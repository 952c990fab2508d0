import Observe.Space.Handles

/-!
# A call of `subject`, step by step

The call runs under the entries lock, with user code at several points: `K`'s `Eq`, `Hash` and
`Clone`, and, when it resets a recycled slot, the destructors of the outcome and of the wakers that
are still there.  A panic unwinds the call: its handle of the slot is dropped, and the table and the
counter stay as the panic has found them.
-/

namespace Observe

inductive PanicPoint where
  /-- `Eq` or `Hash` in `is_vacant`. -/
  | vacancy
  /-- `assert_ne!(generation, usize::MAX)`. -/
  | exhausted
  /-- The destructor of the recycled slot's outcome. -/
  | outcome
  /-- The destructor of a waker left in the recycled slot. -/
  | waker
  | clone
  /-- `Hash` or `Eq` in the `extend` or the `insert` that promote the table. -/
  | promotion
  /-- `Hash` or `Eq` in the `insert` into a promoted table. -/
  | insertion
deriving DecidableEq

/-- A slot's memory, where the cell keeps the bytes of a value that has been dropped. -/
structure SlotMemory (O W : Type) where
  state : StateWord
  outcome : Option (Gen × O)
  /-- How often the destructor of the cell's value has been started. -/
  started : Nat
  waiters : Option (Registry W)

namespace SlotMemory

variable {O W : Type}

def ofSlot (s : Slot O W) : SlotMemory O W := ⟨s.state, s.outcome, 0, s.waiters⟩

def dropOutcome (m : SlotMemory O W) : SlotMemory O W := { m with started := m.started + 1 }

/-- `Vec::clear`, which drops the elements behind one that panics, too. -/
def clearWaiters (m : SlotMemory O W) : SlotMemory O W :=
  { m with waiters := m.waiters.map fun _ => [] }

def resetOutcome (m : SlotMemory O W) : SlotMemory O W :=
  if m.state.outcomeValid then m.dropOutcome else m

def resetWaiters (m : SlotMemory O W) : SlotMemory O W :=
  if m.state.hasWaiter then m.clearWaiters else m

def reset (m : SlotMemory O W) : SlotMemory O W :=
  { m.resetOutcome.resetWaiters with state := .zero }

def finalDrop (m : SlotMemory O W) : SlotMemory O W :=
  { m.resetOutcome with waiters := none }

end SlotMemory

inductive RegisterPc (K : Type) [Key K] (bits : Nat) where
  | vacant
  | draw
  | resetOutcome
  | resetWaiters
  | resetStore
  | clone
  | insert
  /-- `map.extend(entries.drain(..))`, with the entries still to be yielded and the new map. -/
  | extend (rest : List (K × SlotEntry bits)) (map : Std.HashMap K (SlotEntry bits))
  | insertLast (map : Std.HashMap K (SlotEntry bits))
  | returned
  | conflict
  | unwinding (p : PanicPoint)

structure RegisterCall (K O W : Type) [Key K] (bits : Nat) where
  pc : RegisterPc K bits
  /-- The table in its place under the lock. -/
  map : SmallMap K bits
  nextGeneration : BitVec bits
  pooled : Bool
  slot : SlotMemory O W
  /-- The handles of the slot: the call's own, and those of `Subject`s that are being dropped. -/
  handles : Nat

variable {K O W : Type} [Key K] {bits : Nat}

/-- The call for `key`, whose entry is to be `entry`, takes one step. -/
inductive RegisterStep (key : K) (entry : SlotEntry bits) :
    RegisterCall K O W bits → RegisterCall K O W bits → Prop where
  | vacant {c} (hpc : c.pc = .vacant) (hkey : c.map.isVacant key = true) :
      RegisterStep key entry c { c with pc := .draw }
  | vacant_conflict {c} (hpc : c.pc = .vacant) (hkey : c.map.isVacant key = false) :
      RegisterStep key entry c { c with pc := .conflict }
  | vacant_panic {c} (hpc : c.pc = .vacant) :
      RegisterStep key entry c { c with pc := .unwinding .vacancy }
  | draw_pooled {c} (hpc : c.pc = .draw) (hmax : c.nextGeneration ≠ BitVec.allOnes bits)
      (hpool : c.pooled = true) :
      RegisterStep key entry c
        { c with nextGeneration := c.nextGeneration + 1, pc := .resetOutcome }
  /-- `Arc::new(Slot::new())`. -/
  | draw_new {c} (hpc : c.pc = .draw) (hmax : c.nextGeneration ≠ BitVec.allOnes bits)
      (hpool : c.pooled = false) :
      RegisterStep key entry c
        { c with
          nextGeneration := c.nextGeneration + 1, pc := .clone
          slot := .ofSlot .new, handles := 1 }
  | draw_exhausted {c} (hpc : c.pc = .draw) (hmax : c.nextGeneration = BitVec.allOnes bits) :
      RegisterStep key entry c
        { c with nextGeneration := c.nextGeneration + 1, pc := .unwinding .exhausted }
  | resetOutcome_dead {c} (hpc : c.pc = .resetOutcome)
      (hvalid : c.slot.state.outcomeValid = false) :
      RegisterStep key entry c { c with pc := .resetWaiters }
  | resetOutcome {c} (hpc : c.pc = .resetOutcome) (hvalid : c.slot.state.outcomeValid = true) :
      RegisterStep key entry c { c with slot := c.slot.dropOutcome, pc := .resetWaiters }
  | resetOutcome_panic {c} (hpc : c.pc = .resetOutcome)
      (hvalid : c.slot.state.outcomeValid = true) :
      RegisterStep key entry c { c with slot := c.slot.dropOutcome, pc := .unwinding .outcome }
  | resetWaiters_none {c} (hpc : c.pc = .resetWaiters)
      (hwait : c.slot.state.hasWaiter = false) :
      RegisterStep key entry c { c with pc := .resetStore }
  | resetWaiters {c} (hpc : c.pc = .resetWaiters) (hwait : c.slot.state.hasWaiter = true) :
      RegisterStep key entry c { c with slot := c.slot.clearWaiters, pc := .resetStore }
  | resetWaiters_panic {c} (hpc : c.pc = .resetWaiters) (hwait : c.slot.state.hasWaiter = true)
      (hwaker : (c.slot.waiters.getD []).filterMap Waiter.waker? ≠ []) :
      RegisterStep key entry c { c with slot := c.slot.clearWaiters, pc := .unwinding .waker }
  | resetStore {c} (hpc : c.pc = .resetStore) :
      RegisterStep key entry c { c with slot := { c.slot with state := .zero }, pc := .clone }
  | clone {c} (hpc : c.pc = .clone) : RegisterStep key entry c { c with pc := .insert }
  | clone_panic {c} (hpc : c.pc = .clone) :
      RegisterStep key entry c { c with pc := .unwinding .clone }
  | insert_push {c entries} (hpc : c.pc = .insert) (hmap : c.map = .inline entries)
      (hcap : entries.length < inlineCap) :
      RegisterStep key entry c
        { c with map := .inline (entries ++ [(Key.clone key, entry)]), pc := .returned }
  /-- `Vec::drain` takes the entries out of the vector before it yields the first one. -/
  | insert_promote {c entries} (hpc : c.pc = .insert) (hmap : c.map = .inline entries)
      (hcap : inlineCap ≤ entries.length) :
      RegisterStep key entry c { c with map := .inline [], pc := .extend entries ∅ }
  | insert_hash {c m} (hpc : c.pc = .insert) (hmap : c.map = .hash m) :
      RegisterStep key entry c
        { c with map := .hash (m.insert (Key.clone key) entry), pc := .returned }
  | insert_hash_panic {c m} (hpc : c.pc = .insert) (hmap : c.map = .hash m) :
      RegisterStep key entry c { c with pc := .unwinding .insertion }
  | extend {c e rest m} (hpc : c.pc = .extend (e :: rest) m) :
      RegisterStep key entry c { c with pc := .extend rest (m.insert e.1 e.2) }
  /-- The new map goes with the entries it has, and the drain with those it has not yielded. -/
  | extend_panic {c e rest m} (hpc : c.pc = .extend (e :: rest) m) :
      RegisterStep key entry c { c with pc := .unwinding .promotion }
  | extend_done {c m} (hpc : c.pc = .extend [] m) :
      RegisterStep key entry c { c with pc := .insertLast m }
  | insertLast {c m} (hpc : c.pc = .insertLast m) :
      RegisterStep key entry c
        { c with map := .hash (m.insert (Key.clone key) entry), pc := .returned }
  | insertLast_panic {c m} (hpc : c.pc = .insertLast m) :
      RegisterStep key entry c { c with pc := .unwinding .promotion }
  /-- A `Subject` that is being dropped gives up its handle, or the unwinding does, and another one
  is left. -/
  | drop_shared {c n} (hn : c.handles = n + 2) :
      RegisterStep key entry c { c with handles := n + 1 }
  | drop_last {c p} (hpc : c.pc = .unwinding p) (hn : c.handles = 1) :
      RegisterStep key entry c { c with slot := c.slot.finalDrop, handles := 0 }

namespace World

def registerSlot (w : World K O W bits) : SlotId := w.pool.headD w.nextSlot

def registerEntry (w : World K O W bits) : SlotEntry bits :=
  ⟨w.nextGeneration, w.registerSlot, w.nextGen⟩

def startRegister (w : World K O W bits) : RegisterCall K O W bits where
  pc := .vacant
  map := w.map
  nextGeneration := w.nextGeneration
  pooled := !w.pool.isEmpty
  slot := .ofSlot (w.slots w.registerSlot).slot
  handles := if w.pool.isEmpty then 0 else w.arcs.count w.registerSlot

def RegisterReaches (w : World K O W bits) (key : K) (c : RegisterCall K O W bits) : Prop :=
  Relation.ReflTransGen (RegisterStep key w.registerEntry) w.startRegister c

end World

/-! ## The table -/

/-- The table of a call that has found `m`. -/
def RegisterCall.TableAt (m : SmallMap K bits) (key : K) (entry : SlotEntry bits)
    (c : RegisterCall K O W bits) : Prop :=
  match c.pc with
  | .returned => c.map = m.insertVacant (Key.clone key) entry
  | .extend rest map => c.map = .inline [] ∧ ∃ entries, m = .inline entries ∧
      inlineCap ≤ entries.length ∧ map.insertMany rest = Std.HashMap.ofList entries
  | .insertLast map => c.map = .inline [] ∧ ∃ entries, m = .inline entries ∧
      inlineCap ≤ entries.length ∧ map = Std.HashMap.ofList entries
  | .unwinding .promotion => c.map = .inline [] ∧ ∃ entries, m = .inline entries ∧
      inlineCap ≤ entries.length
  | _ => c.map = m

section Table

variable {m : SmallMap K bits} {key : K} {entry : SlotEntry bits} {c c' : RegisterCall K O W bits}

/-- Each step of the call leaves the table as its place in the call says. -/
theorem RegisterStep.tableAt (h : RegisterStep key entry c c') (ht : c.TableAt m key entry) :
    c'.TableAt m key entry := by
  unfold RegisterCall.TableAt at ht ⊢
  cases h with
  | drop_shared hn => exact ht
  | drop_last hpc hn => exact ht
  | @insert_push entries hpc hmap hcap =>
    rw [hpc, hmap] at ht
    have hm : SmallMap.inline entries = m := ht
    rw [← hm]
    exact (if_neg (by omega)).symm
  | @insert_promote entries hpc hmap hcap =>
    rw [hpc, hmap] at ht
    exact ⟨rfl, entries, ht.symm, hcap, Std.HashMap.ofList_eq_insertMany_empty.symm⟩
  | @insert_hash m' hpc hmap =>
    rw [hpc, hmap] at ht
    have hm : SmallMap.hash m' = m := ht
    rw [← hm]
    rfl
  | @extend e rest map hpc =>
    rw [hpc] at ht
    have ⟨hnil, entries, hm, hcap, hmany⟩ := ht
    exact ⟨hnil, entries, hm, hcap, Std.HashMap.insertMany_cons.symm.trans hmany⟩
  | extend_panic hpc =>
    rw [hpc] at ht
    have ⟨hnil, entries, hm, hcap, _⟩ := ht
    exact ⟨hnil, entries, hm, hcap⟩
  | extend_done hpc =>
    rw [hpc] at ht
    have ⟨hnil, entries, hm, hcap, hmany⟩ := ht
    exact ⟨hnil, entries, hm, hcap, Std.HashMap.insertMany_nil.symm.trans hmany⟩
  | insertLast hpc =>
    rw [hpc] at ht
    have ⟨_, entries, hm, hcap, hlast⟩ := ht
    rw [hm, hlast]
    exact (if_pos hcap).symm
  | insertLast_panic hpc =>
    rw [hpc] at ht
    have ⟨hnil, entries, hm, hcap, _⟩ := ht
    exact ⟨hnil, entries, hm, hcap⟩
  | _ => simp_all

end Table

/-! ## The counter -/

/-- The counter of a call that has found it at `n`, and what the call has learnt by then. -/
def RegisterCall.CounterAt (m : SmallMap K bits) (n : BitVec bits) (key : K)
    (c : RegisterCall K O W bits) : Prop :=
  match c.pc with
  | .vacant => c.nextGeneration = n ∧ c.map = m
  | .unwinding .vacancy => c.nextGeneration = n
  | .conflict => c.nextGeneration = n ∧ m.isVacant key = false
  | .draw => c.nextGeneration = n ∧ m.isVacant key = true
  | .unwinding .exhausted =>
    c.nextGeneration = n + 1 ∧ m.isVacant key = true ∧ n = BitVec.allOnes bits
  | _ => c.nextGeneration = n + 1 ∧ m.isVacant key = true ∧ n ≠ BitVec.allOnes bits

section Counter

variable {m : SmallMap K bits} {n : BitVec bits} {key : K} {entry : SlotEntry bits}
  {c c' : RegisterCall K O W bits}

/-- Each step of the call leaves the counter as its place in the call says. -/
theorem RegisterStep.counterAt (h : RegisterStep key entry c c') (hn : c.CounterAt m n key) :
    c'.CounterAt m n key := by
  unfold RegisterCall.CounterAt at hn ⊢
  cases h with
  | drop_shared _ => exact hn
  | drop_last _ _ => exact hn
  | vacant hpc hkey =>
    rw [hpc] at hn
    exact ⟨hn.1, hn.2 ▸ hkey⟩
  | vacant_conflict hpc hkey =>
    rw [hpc] at hn
    exact ⟨hn.1, hn.2 ▸ hkey⟩
  | vacant_panic hpc =>
    rw [hpc] at hn
    exact hn.1
  | draw_pooled hpc hmax _ | draw_new hpc hmax _ =>
    rw [hpc] at hn
    exact ⟨by rw [← hn.1], hn.2, hn.1 ▸ hmax⟩
  | draw_exhausted hpc hmax =>
    rw [hpc] at hn
    exact ⟨by rw [← hn.1], hn.2, hn.1 ▸ hmax⟩
  | _ => simp_all

end Counter

namespace World

variable {w : World K O W bits} {key : K} {c : RegisterCall K O W bits}

/-- What a call goes through has the table as its place in the call says. -/
theorem RegisterReaches.tableAt (h : w.RegisterReaches key c) :
    c.TableAt w.map key w.registerEntry := by
  induction h with
  | refl => exact rfl
  | tail _ hs ih => exact hs.tableAt ih

/-- What a call goes through has the counter as its place in the call says. -/
theorem RegisterReaches.counterAt (h : w.RegisterReaches key c) :
    c.CounterAt w.map w.nextGeneration key := by
  induction h with
  | refl => exact ⟨rfl, rfl⟩
  | tail _ hs ih => exact hs.counterAt ih

/-- `Clone` can panic in a call that has drawn a number and made a new slot. -/
theorem reaches_clone_panic (w : World K O W bits) (key : K)
    (hkey : w.map.isVacant key = true) (hmax : w.nextGeneration ≠ BitVec.allOnes bits)
    (hpool : w.pool = []) : ∃ c, w.RegisterReaches key c ∧ c.pc = .unwinding .clone ∧ c.map = w.map ∧
      c.nextGeneration = w.nextGeneration + 1 := by
  have hnew : w.startRegister.pooled = false := by simp [startRegister, hpool]
  have h₀ : w.RegisterReaches key w.startRegister := .refl
  have h₁ := h₀.tail (.vacant rfl hkey)
  have h₂ := h₁.tail (.draw_new rfl hmax hnew)
  have h₃ := h₂.tail (.clone_panic rfl)
  exact ⟨_, h₃, rfl, rfl, rfl⟩

/-- `Hash` can panic in a call that has made a new slot and promotes the table. -/
theorem reaches_promotion_panic (key : K) {e : K × SlotEntry bits}
    {rest : List (K × SlotEntry bits)} (hkey : w.map.isVacant key = true)
    (hmax : w.nextGeneration ≠ BitVec.allOnes bits) (hpool : w.pool = [])
    (hmap : w.map = .inline (e :: rest)) (hcap : inlineCap ≤ (e :: rest).length) :
    w.RegisterReaches key
      ⟨.unwinding .promotion, .inline [], w.nextGeneration + 1, !w.pool.isEmpty, .ofSlot .new,
        1⟩ := by
  have hnew : w.startRegister.pooled = false := by simp [startRegister, hpool]
  have h₀ : w.RegisterReaches key w.startRegister := .refl
  have h₁ := h₀.tail (.vacant rfl hkey)
  have h₂ := h₁.tail (.draw_new rfl hmax hnew)
  have h₃ := h₂.tail (.clone rfl)
  have h₄ := h₃.tail (.insert_promote rfl hmap hcap)
  have h₅ := h₄.tail (.extend_panic rfl)
  exact h₅

end World

end Observe
