import Observe.Space.Registration
import Observe.Space.Retention

/-!
# Panics inside a registration

A destructor that panics in `reset` leaves the recycled slot half reset, and the call's handle of it
is dropped by the unwinding.  A panic in the promotion of the table finds the inline entries gone.
-/

namespace Observe

variable {K O W : Type} [Key K] {bits : Nat}

/-! ## The recycled slot -/

/-- The memory of a recycled slot at each point of the call, as long as a handle is left. -/
def SlotMemory.memoryAt (m : SlotMemory O W) : RegisterPc K bits → SlotMemory O W
  | .vacant | .draw | .conflict | .resetOutcome => m
  | .unwinding .vacancy | .unwinding .exhausted => m
  | .resetWaiters => m.resetOutcome
  | .unwinding .outcome => m.dropOutcome
  | .resetStore => m.resetOutcome.resetWaiters
  | .unwinding .waker => m.resetOutcome.clearWaiters
  | _ => m.reset

structure RegisterCall.SlotAt (m : SlotMemory O W) (c : RegisterCall K O W bits) : Prop where
  pooled : c.pooled = true
  live : 0 < c.handles → c.slot = m.memoryAt c.pc
  dead : c.handles = 0 → ∃ p, c.pc = .unwinding p ∧ c.slot = (m.memoryAt c.pc).finalDrop
  outcome : c.pc = .unwinding .outcome → m.state.outcomeValid = true

section Memory

variable {m : SlotMemory O W} {key : K} {entry : SlotEntry bits} {c c' : RegisterCall K O W bits}

@[simp] theorem SlotMemory.resetOutcome_state (m : SlotMemory O W) :
    m.resetOutcome.state = m.state := by
  unfold resetOutcome
  split <;> rfl

/-- A step of the call itself, which holds a handle. -/
theorem RegisterCall.SlotAt.go {k : RegisterPc K bits} (h : c.SlotAt m) (hpc : c.pc = k)
    (hrun : ∀ p, k ≠ .unwinding p) (hpool : c'.pooled = c.pooled)
    (hhandles : c'.handles = c.handles)
    (hslot : c.slot = m.memoryAt k → c'.slot = m.memoryAt c'.pc)
    (hout : c.slot = m.memoryAt k → c'.pc = .unwinding .outcome → m.state.outcomeValid = true) :
    c'.SlotAt m := by
  have hlive : 0 < c.handles := by
    by_contra hzero
    have ⟨p, hp, _⟩ := h.dead (by omega)
    exact hrun p (hpc.symm.trans hp)
  have hm : c.slot = m.memoryAt k := hpc ▸ h.live hlive
  refine ⟨hpool.trans h.pooled, fun _ => hslot hm, ?_, hout hm⟩
  intro hzero
  omega

/-- Each step of the call leaves the slot's memory as its place in the call says. -/
theorem RegisterStep.slotAt (h : RegisterStep key entry c c') (hs : c.SlotAt m) :
    c'.SlotAt m := by
  cases h with
  | draw_new hpc hmax hpool =>
    rw [hs.pooled] at hpool
    cases hpool
  | @drop_shared n hn =>
    refine ⟨hs.pooled, ?_, ?_, hs.outcome⟩
    · intro _
      exact hs.live (by omega)
    · intro hzero
      have hn' : n + 1 = 0 := hzero
      omega
  | @drop_last p hpc hn =>
    refine ⟨hs.pooled, ?_, ?_, hs.outcome⟩
    · intro hpos
      exact absurd hpos (Nat.lt_irrefl 0)
    · intro _
      refine ⟨p, hpc, ?_⟩
      show c.slot.finalDrop = _
      rw [hs.live (by omega)]
  | resetOutcome_panic hpc hvalid =>
    refine hs.go hpc nofun rfl rfl ?_ ?_
    · intro hm
      show c.slot.dropOutcome = m.dropOutcome
      rw [hm]
      rfl
    · intro hm _
      rw [hm] at hvalid
      exact hvalid
  | resetOutcome_dead hpc hvalid =>
    refine hs.go hpc nofun rfl rfl ?_ (fun _ => nofun)
    intro hm
    rw [hm] at hvalid ⊢
    exact (if_neg (Bool.eq_false_iff.mp hvalid)).symm
  | resetOutcome hpc hvalid =>
    refine hs.go hpc nofun rfl rfl ?_ (fun _ => nofun)
    intro hm
    show c.slot.dropOutcome = m.resetOutcome
    rw [hm] at hvalid ⊢
    exact (if_pos hvalid).symm
  | resetWaiters_none hpc hwait =>
    refine hs.go hpc nofun rfl rfl ?_ (fun _ => nofun)
    intro hm
    rw [hm] at hwait ⊢
    exact (if_neg (Bool.eq_false_iff.mp hwait)).symm
  | resetWaiters hpc hwait =>
    refine hs.go hpc nofun rfl rfl ?_ (fun _ => nofun)
    intro hm
    show c.slot.clearWaiters = m.resetOutcome.resetWaiters
    rw [hm] at hwait ⊢
    exact (if_pos hwait).symm
  | resetWaiters_panic hpc hwait hwaker =>
    refine hs.go hpc nofun rfl rfl ?_ (fun _ => nofun)
    intro hm
    show c.slot.clearWaiters = m.resetOutcome.clearWaiters
    rw [hm]
    rfl
  | resetStore hpc =>
    refine hs.go hpc nofun rfl rfl ?_ (fun _ => nofun)
    intro hm
    show { c.slot with state := .zero } = m.reset
    rw [hm]
    rfl
  | vacant hpc | vacant_conflict hpc | vacant_panic hpc | draw_pooled hpc | draw_exhausted hpc
  | clone hpc | clone_panic hpc | insert_push hpc | insert_promote hpc | insert_hash hpc
  | insert_hash_panic hpc | extend hpc | extend_panic hpc | extend_done hpc | insertLast hpc
  | insertLast_panic hpc => exact hs.go hpc nofun rfl rfl id (fun _ => nofun)

/-! ## How often the outcome's destructor is started -/

/-- The destructor is started once for a live value, and never for a dead one. -/
def SlotMemory.owed (m : SlotMemory O W) : Nat := if m.state.outcomeValid then 1 else 0

theorem SlotMemory.resetOutcome_started (m : SlotMemory O W) :
    m.resetOutcome.started = m.started + m.owed := by
  unfold resetOutcome owed
  split <;> rfl

@[simp] theorem SlotMemory.resetWaiters_started (m : SlotMemory O W) :
    m.resetWaiters.started = m.started := by
  unfold resetWaiters
  split <;> rfl

/-- A reset starts the destructor when one is owed. -/
theorem SlotMemory.reset_started (m : SlotMemory O W) : m.reset.started = m.started + m.owed := by
  show m.resetOutcome.resetWaiters.started = _
  rw [resetWaiters_started, resetOutcome_started]

/-- The final drop starts the destructor when one is owed. -/
theorem SlotMemory.finalDrop_started (m : SlotMemory O W) :
    m.finalDrop.started = m.started + m.owed :=
  m.resetOutcome_started

/-- A panic of `reset` starts the destructor of a live outcome, and leaves `OUTCOME_VALID` set. -/
def PanicPoint.inReset : PanicPoint → Bool
  | .outcome | .waker => true
  | _ => false

def SlotMemory.startedAt (m : SlotMemory O W) : PanicPoint → Nat
  | .vacancy | .exhausted => m.started
  | _ => m.started + m.owed

def SlotMemory.owedAt (m : SlotMemory O W) : PanicPoint → Nat
  | .clone | .promotion | .insertion => 0
  | _ => m.owed

/-- The starts that a call which has panicked has made. -/
theorem RegisterCall.SlotAt.started {p : PanicPoint} (h : c.SlotAt m)
    (hpc : c.pc = .unwinding p) :
    c.slot.started = m.startedAt p + if c.handles = 0 then m.owedAt p else 0 := by
  have hmem : (m.memoryAt c.pc).started = m.startedAt p ∧ (m.memoryAt c.pc).owed = m.owedAt p := by
    rw [hpc]
    cases p with
    | vacancy | exhausted => exact ⟨rfl, rfl⟩
    | outcome =>
      have hvalid : m.owed = 1 := if_pos (h.outcome hpc)
      exact ⟨by show m.started + 1 = m.started + m.owed; rw [hvalid], rfl⟩
    | waker =>
      refine ⟨m.resetOutcome_started, ?_⟩
      show (if m.resetOutcome.state.outcomeValid then 1 else 0) = m.owed
      rw [m.resetOutcome_state]
      rfl
    | clone | promotion | insertion => exact ⟨m.reset_started, rfl⟩
  by_cases hzero : c.handles = 0
  · have ⟨_, _, hslot⟩ := h.dead hzero
    rw [if_pos hzero, hslot, SlotMemory.finalDrop_started, hmem.1, hmem.2]
  · rw [if_neg hzero, h.live (by omega), hmem.1]
    rfl

end Memory

/-! ## A call as a whole -/

namespace World

variable [WillWake W] {w : World K O W bits} {key : K} {c : RegisterCall K O W bits}

/-- What a call goes through has the slot's memory as its place in the call says. -/
theorem RegisterReaches.slotAt (h : w.RegisterReaches key c) (hw : w.Inv) {i : SlotId}
    {rest : List SlotId} (hpool : w.pool = i :: rest) :
    c.SlotAt (.ofSlot (w.slots i).slot) := by
  induction h with
  | refl =>
    have hcount : w.startRegister.handles = w.arcs.count i := by
      simp [startRegister, registerSlot, hpool]
    have hheld : w.arcs.count i ≠ 0 := by
      rw [Ne, Lib.Handles.count_eq_zero_iff]
      intro hnone
      apply hnone (.pool i)
      rw [hw.held]
      exact if_pos (by rw [hpool]; exact List.mem_cons_self)
    refine ⟨by simp [startRegister, hpool], ?_, ?_, ?_⟩
    · intro _
      show SlotMemory.ofSlot (w.slots (w.pool.headD w.nextSlot)).slot = _
      rw [hpool]
      rfl
    · intro hzero
      rw [hcount] at hzero
      exact absurd hzero hheld
    · intro hpc
      cases hpc
  | tail _ hs ih => exact hs.slotAt ih

omit [WillWake W] in
/-- A call that returns leaves the table and the counter as `subject` does. -/
theorem RegisterReaches.returned (h : w.RegisterReaches key c) (hret : c.pc = .returned) :
    (w.subject key).2 = .ok w.nextGen ∧ c.map = (w.subject key).1.map ∧
      c.nextGeneration = (w.subject key).1.nextGeneration := by
  have htable := h.tableAt
  have hcounter := h.counterAt
  unfold RegisterCall.TableAt at htable
  unfold RegisterCall.CounterAt at hcounter
  rw [hret] at htable hcounter
  have ⟨hnext, hkey, hmax⟩ := hcounter
  have hcases := w.subject_cases key
  generalize w.subject key = r at hcases ⊢
  cases hcases with
  | conflict hconf =>
    rw [hkey] at hconf
    cases hconf
  | exhausted _ hexh => exact absurd hexh hmax
  | recycled _ _ hpool =>
    have hentry : w.registerEntry = ⟨w.nextGeneration, _, w.nextGen⟩ := rfl
    refine ⟨rfl, ?_, hnext⟩
    rw [htable, hentry, registerSlot, hpool]
    rfl
  | fresh _ _ hpool =>
    have hentry : w.registerEntry = ⟨w.nextGeneration, _, w.nextGen⟩ := rfl
    refine ⟨rfl, ?_, hnext⟩
    rw [htable, hentry, registerSlot, hpool]
    rfl

omit [WillWake W] in
theorem reset_waiters (s : Slot O W) : (SlotMemory.ofSlot s).reset.waiters = s.reset.waiters := by
  unfold SlotMemory.reset SlotMemory.resetWaiters Slot.reset
  rw [SlotMemory.resetOutcome_state]
  show (if s.state.hasWaiter then _ else _ : SlotMemory O W).waiters = _
  cases hwait : s.state.hasWaiter <;> cases hvalid : s.state.outcomeValid <;>
    simp [SlotMemory.resetOutcome, SlotMemory.clearWaiters, SlotMemory.dropOutcome,
      SlotMemory.ofSlot, Slot.dropOutcome, hvalid]

omit [WillWake W] in
/-- What a destruction of the slot's contents starts is what it destroys. -/
theorem owed_ofSlot {s : Slot O W} (hv : s.state.outcomeValid = s.outcome.isSome) :
    (SlotMemory.ofSlot s).owed = s.destroys.length := by
  unfold SlotMemory.owed Slot.destroys
  show (if s.state.outcomeValid then 1 else 0) = _
  cases hvalid : s.state.outcomeValid with
  | false => rfl
  | true =>
    rw [hvalid] at hv
    have ⟨x, hx⟩ := Option.isSome_iff_exists.mp hv.symm
    simp [hx]

/-- A pooled slot's bit says whether its cell is live. -/
theorem Inv.pooled_valid (h : w.Inv) {i : SlotId} {rest : List SlotId}
    (hpool : w.pool = i :: rest) :
    (w.slots i).slot.state.outcomeValid = (w.slots i).slot.outcome.isSome := by
  have hmem : i ∈ w.pool := by rw [hpool]; exact List.mem_cons_self
  exact (h.safe_of_pooled hmem).wf.published.valid_iff (h.quiescent hmem).comp

/-- The reset of a returning call is `Slot.reset`, which starts each destructor it owes. -/
theorem RegisterReaches.returned_slot (h : w.RegisterReaches key c) (hret : c.pc = .returned)
    (hw : w.Inv) {i : SlotId} {rest : List SlotId} (hpool : w.pool = i :: rest) :
    c.slot.state = (w.slots i).slot.reset.state ∧
      c.slot.waiters = (w.slots i).slot.reset.waiters ∧
      c.slot.started = (w.slots i).slot.destroys.length := by
  have hs := h.slotAt hw hpool
  have hslot : c.slot = (SlotMemory.ofSlot (w.slots i).slot).reset := by
    by_cases hzero : c.handles = 0
    · have ⟨p, hp, _⟩ := hs.dead hzero
      rw [hret] at hp
      cases hp
    · have hlive := hs.live (by omega)
      rwa [hret] at hlive
  rw [hslot]
  refine ⟨rfl, reset_waiters _, ?_⟩
  rw [SlotMemory.reset_started, owed_ofSlot (hw.pooled_valid hpool)]
  exact Nat.zero_add _

end World

/-! ## Panics in `reset` -/

/-- The unwinding treats the recycled slot's outcome as a value that is destroyed once. -/
structure RegisterCall.PanicSafe (s : Slot O W) (c : RegisterCall K O W bits) : Prop where
  /-- While the slot exists, `OUTCOME_VALID` tells of a value that is still whole. -/
  valid : 0 < c.handles → c.slot.state.outcomeValid = true →
    c.slot.outcome ≠ none ∧ c.slot.started = 0
  once : c.handles = 0 → c.slot.started = s.destroys.length

/-- A panic inside `reset` leaves the state word as it was. -/
theorem SlotMemory.memoryAt_inReset (m : SlotMemory O W) {p : PanicPoint}
    (hp : p.inReset = true) :
    (m.memoryAt (.unwinding p : RegisterPc K bits)).state = m.state ∧
      m.startedAt p = m.started + m.owed ∧ m.owedAt p = m.owed := by
  cases p with
  | outcome => exact ⟨rfl, rfl, rfl⟩
  | waker => exact ⟨m.resetOutcome_state, rfl, rfl⟩
  | _ => cases hp

/-- A panic outside finds the slot whole, or reset. -/
theorem SlotMemory.memoryAt_outside (m : SlotMemory O W) {p : PanicPoint}
    (hp : p.inReset = false) :
    (m.memoryAt (.unwinding p : RegisterPc K bits) = m ∨
      (m.memoryAt (.unwinding p : RegisterPc K bits)).state = .zero) ∧
      m.startedAt p + m.owedAt p = m.started + m.owed := by
  cases p with
  | outcome | waker => cases hp
  | vacancy | exhausted => exact ⟨.inl rfl, rfl⟩
  | clone | promotion | insertion => exact ⟨.inr rfl, rfl⟩

namespace RegisterCall.SlotAt

variable {s : Slot O W} {c : RegisterCall K O W bits} {p : PanicPoint}

/-- A panic inside `reset` leaves a live outcome to be destroyed once more. -/
theorem outcome_dead (h : c.SlotAt (.ofSlot s)) (hpc : c.pc = .unwinding p)
    (hp : p.inReset = true) (hv : s.state.outcomeValid = s.outcome.isSome)
    (hsafe : c.PanicSafe s) : s.state.outcomeValid = false := by
  have ⟨hstate, hat, howedAt⟩ := @SlotMemory.memoryAt_inReset K O W _ bits (.ofSlot s) p hp
  have hzero : (SlotMemory.ofSlot s).started = 0 := rfl
  have hstarted := h.started hpc
  by_contra hne
  have hvalid : s.state.outcomeValid = true := by simpa using hne
  have hone : (SlotMemory.ofSlot s).owed = 1 := if_pos hvalid
  rw [hat, howedAt, hone, hzero] at hstarted
  by_cases hgone : c.handles = 0
  · -- the final drop starts the destructor again
    rw [if_pos hgone, hsafe.once hgone, ← World.owed_ofSlot hv, hone] at hstarted
    omega
  · -- the slot stays, and its bit tells of a value that has been destroyed
    have hpos : 0 < c.handles := by omega
    have hbit : c.slot.state.outcomeValid = true := by
      rw [h.live hpos, hpc, hstate]
      exact hvalid
    have hfresh := (hsafe.valid hpos hbit).2
    rw [if_neg hgone] at hstarted
    omega

/-- A panic of `reset` without a live outcome is safe. -/
theorem panicSafe_of_dead (h : c.SlotAt (.ofSlot s)) (hpc : c.pc = .unwinding p)
    (hp : p.inReset = true) (hv : s.state.outcomeValid = s.outcome.isSome)
    (hdead : s.state.outcomeValid = false) : c.PanicSafe s := by
  have ⟨hstate, hat, howedAt⟩ := @SlotMemory.memoryAt_inReset K O W _ bits (.ofSlot s) p hp
  have hnone : (SlotMemory.ofSlot s).owed = 0 := if_neg (Bool.eq_false_iff.mp hdead)
  constructor
  · intro hpos hbit
    rw [h.live hpos, hpc, hstate] at hbit
    exact absurd hbit (Bool.eq_false_iff.mp hdead)
  · intro hgone
    rw [h.started hpc, if_pos hgone, hat, howedAt, ← World.owed_ofSlot hv, hnone]
    rfl

/-- A panic outside `reset` is safe. -/
theorem panicSafe_outside (h : c.SlotAt (.ofSlot s)) (hpc : c.pc = .unwinding p)
    (hp : p.inReset = false) (hv : s.state.outcomeValid = s.outcome.isSome) : c.PanicSafe s := by
  have ⟨hcell, hsum⟩ := @SlotMemory.memoryAt_outside K O W _ bits (.ofSlot s) p hp
  constructor
  · intro hpos hbit
    have hlive := h.live hpos
    rw [hpc] at hlive
    rcases hcell with hsame | hreset
    · rw [hlive, hsame] at hbit ⊢
      have hvalid : s.state.outcomeValid = true := hbit
      rw [hv] at hvalid
      exact ⟨Option.isSome_iff_ne_none.mp hvalid, rfl⟩
    · rw [hlive, hreset] at hbit
      cases hbit
  · intro hgone
    rw [h.started hpc, if_pos hgone, hsum, ← World.owed_ofSlot hv]
    exact Nat.zero_add _

/-- The unwinding is safe from every panic but one of `reset` on a slot with a live outcome. -/
theorem panicSafe_iff (h : c.SlotAt (.ofSlot s)) (hpc : c.pc = .unwinding p)
    (hv : s.state.outcomeValid = s.outcome.isSome) :
    c.PanicSafe s ↔ (p.inReset = true → s.state.outcomeValid = false) := by
  constructor
  · intro hsafe hp
    exact h.outcome_dead hpc hp hv hsafe
  · intro hdead
    cases hp : p.inReset with
    | true => exact h.panicSafe_of_dead hpc hp hv (hdead hp)
    | false => exact h.panicSafe_outside hpc hp hv

end RegisterCall.SlotAt

/-- **Panic-safe recycling.** A call of `subject` recycles a pooled slot and a destructor panics in
`reset`: the unwinding is safe exactly when the slot holds no live outcome, so that the destructor
is a stale waker's. -/
theorem recycling_panicSafe_iff [WillWake W] {w : World K O W bits}
    (h : (worldSystem K O W bits).Reachable w) {i : SlotId} {rest : List SlotId}
    (hpool : w.pool = i :: rest) {key : K} {c : RegisterCall K O W bits}
    (hc : w.RegisterReaches key c) {p : PanicPoint} (hpc : c.pc = .unwinding p)
    (hp : p.inReset = true) :
    c.PanicSafe (w.slots i).slot ↔ (w.slots i).slot.state.outcomeValid = false := by
  have hw := (worldSystem_sound h).inv
  rw [(hc.slotAt hw hpool).panicSafe_iff hpc (hw.pooled_valid hpool)]
  exact ⟨fun himp => himp hp, fun hdead _ => hdead⟩

/-- The pool's slot holds the waker 5 of a dropped observation, whose destructor panics. -/
theorem stale_waker_panics : ∃ (w : World Nat Nat Nat 64) (c : RegisterCall Nat Nat Nat 64),
    (worldSystem Nat Nat Nat 64).Reachable w ∧ w.pool = [0] ∧ w.RegisterReaches 7 c ∧
      c.pc = .unwinding .waker ∧ c.handles = 0 ∧ c.PanicSafe (w.slots 0).slot := by
  have ⟨w, l, hrun, _, _, hpool, hcount, hmap, hnext, hslot⟩ := stale_run
  have hstart : w.startRegister = ⟨.vacant, .inline [], 2, true,
      .ofSlot ⟨.HAS_WAITER, none, some [.waker 5 true 0 1]⟩, 1⟩ := by
    simp [World.startRegister, World.registerSlot, hpool, hmap, hnext, hslot, hcount]
  have h₀ : w.RegisterReaches 7 _ := .refl
  rw [hstart] at h₀
  have h₁ := h₀.tail (.vacant rfl rfl)
  have h₂ := h₁.tail (.draw_pooled rfl (by decide) rfl)
  have h₃ := h₂.tail (.resetOutcome_dead rfl rfl)
  have h₄ := h₃.tail (.resetWaiters_panic rfl rfl (List.cons_ne_nil 5 []))
  have h₅ := h₄.tail (.drop_last rfl rfl)
  have hreach := hrun.reachable w List.mem_cons_self
  have hdead : (w.slots 0).slot.state.outcomeValid = false := by rw [hslot]; rfl
  exact ⟨w, _, hreach, hpool, h₅, rfl, rfl,
    (recycling_panicSafe_iff hreach hpool h₅ rfl rfl).mpr hdead⟩

/-- The pool's slot holds the outcome of generation 1, whose destructor panics: the final drop finds
`OUTCOME_VALID` still set. -/
theorem outcome_dropped_twice : ∃ (w : World Nat Nat Nat 64) (c : RegisterCall Nat Nat Nat 64),
    (worldSystem Nat Nat Nat 64).Reachable w ∧ w.pool = [0] ∧ w.RegisterReaches 7 c ∧
      c.pc = .unwinding .outcome ∧ c.handles = 0 ∧ c.slot.started = 2 ∧
      ¬ c.PanicSafe (w.slots 0).slot := by
  have h₀ : (worldSystem Nat Nat Nat 64).Reachable _ := .init ⟨⟨fun _ => false, 0⟩, rfl⟩
  have h₁ := h₀.step (.subject 7 (by decide))
  have h₂ := h₁.step (.complete (g := 1) 42 rfl)
  have h₃ := h₂.step (.callStep 0 (.complete (.write rfl)))
  have h₄ := h₃.step (.callStep 0 (.complete (.publish_alone rfl rfl)))
  have h₅ := h₄.step (.retire (g := 1) rfl rfl)
  have h₆ := h₅.step (.releaseInner (g := 1) rfl)
  have h₇ := h₆.step (.releaseSubject (g := 1) rfl)
  refine ⟨_, _, h₇, rfl, Relation.ReflTransGen.head (.vacant rfl rfl) <|
    .head (.draw_pooled rfl (by decide) rfl) <| .head (.resetOutcome_panic rfl rfl) <|
    .single (.drop_last rfl rfl), rfl, rfl, rfl, ?_⟩
  intro hsafe
  have htwice : 2 = 1 := hsafe.once rfl
  omega

/-- **Registration under panics.** A call of `subject` has panicked: every key is mapped as before
exactly when the panic was not one of `K`'s `Hash` or `Eq` in the promotion of the table. -/
theorem registration_kept_iff {w : World K O W bits} {key : K} {c : RegisterCall K O W bits}
    (hc : w.RegisterReaches key c) {p : PanicPoint} (hpc : c.pc = .unwinding p) :
    (∀ k, c.map.get k = w.map.get k) ↔ p ≠ .promotion := by
  have htable := hc.tableAt
  unfold RegisterCall.TableAt at htable
  rw [hpc] at htable
  constructor
  · intro hkept hp
    subst hp
    have ⟨hnil, entries, hm, hcap⟩ := htable
    cases entries with
    | nil => simp [inlineCap] at hcap
    | cons e entries =>
      -- the first entry is gone
      have hlost := hkept e.1
      rw [hnil, hm] at hlost
      simp [SmallMap.get, SmallMap.hasKey] at hlost
  · intro hp k
    cases p with
    | promotion => exact absurd rfl hp
    | _ => rw [htable]

/-- Four keys are registered, and a call for another one starts. -/
theorem four_subjects : ∃ w : World Nat Nat Nat 64, (worldSystem Nat Nat Nat 64).Reachable w ∧
    w.auth 1 = .subject 0 1 0 false ∧ w.map.get 0 = some ⟨1, 0, 1⟩ ∧
      w.startRegister = ⟨.vacant, .inline [(0, ⟨1, 0, 1⟩), (1, ⟨2, 1, 2⟩), (2, ⟨3, 2, 3⟩),
        (3, ⟨4, 3, 4⟩)], 5, false, .ofSlot .new, 0⟩ := by
  have h₀ : (worldSystem Nat Nat Nat 64).Reachable _ := .init ⟨⟨fun _ => false, 0⟩, rfl⟩
  have h₁ := h₀.step (.subject 0 (by decide))
  have h₂ := h₁.step (.subject 1 (by decide))
  have h₃ := h₂.step (.subject 2 (by decide))
  have h₄ := h₃.step (.subject 3 (by decide))
  exact ⟨_, h₄, rfl, rfl, rfl⟩

/-- `Clone` of the fifth key panics. -/
theorem clone_panics : ∃ (w : World Nat Nat Nat 64) (c : RegisterCall Nat Nat Nat 64),
    (worldSystem Nat Nat Nat 64).Reachable w ∧ w.RegisterReaches 4 c ∧
      c.pc = .unwinding .clone ∧ ∀ k, c.map.get k = w.map.get k := by
  have ⟨w, hreach, _, _, hstart⟩ := four_subjects
  have h₀ : w.RegisterReaches 4 _ := .refl
  rw [hstart] at h₀
  have h₁ := h₀.tail (.vacant rfl rfl)
  have h₂ := h₁.tail (.draw_new rfl (by decide) rfl)
  have h₃ := h₂.tail (.clone_panic rfl)
  exact ⟨w, _, hreach, h₃, rfl, (registration_kept_iff h₃ rfl).mpr nofun⟩

/-- `Hash` of the first key panics in the promotion: its `Subject` is alive, but the table has
forgotten it. -/
theorem promotion_loses_entries : ∃ (w : World Nat Nat Nat 64) (c : RegisterCall Nat Nat Nat 64),
    (worldSystem Nat Nat Nat 64).Reachable w ∧ w.RegisterReaches 4 c ∧
      c.pc = .unwinding .promotion ∧ w.auth 1 = .subject 0 1 0 false ∧
      w.map.get 0 = some ⟨1, 0, 1⟩ ∧ c.map.get 0 = none := by
  have ⟨w, hreach, hauth, hget, hstart⟩ := four_subjects
  have h₀ : w.RegisterReaches 4 _ := .refl
  rw [hstart] at h₀
  have h₁ := h₀.tail (.vacant rfl rfl)
  have h₂ := h₁.tail (.draw_new rfl (by decide) rfl)
  have h₃ := h₂.tail (.clone rfl)
  have h₄ := h₃.tail (.insert_promote rfl rfl (by decide))
  have h₅ := h₄.tail (.extend_panic rfl)
  exact ⟨w, _, hreach, h₅, rfl, hauth, hget, rfl⟩

end Observe
