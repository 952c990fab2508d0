import Observe.Space.History
import Observe.Space.Recast

/-!
# User code under the entries lock

A destructor of an outcome or of a waker may call into the space again, and then waits for the lock
of the entries.  A slot goes into the pool with whatever it still holds; its contents are destroyed
by the call of `subject` that takes the slot out again, inside that call's section.  An entry that a
panic has left without its subject keeps its slot, too, and may be dropped inside a section.
-/

namespace Observe

variable {K O W : Type} [Key K] {bits : Nat}

/-! ## What a slot still holds -/

/-- The slot holds a live outcome, or a waker whose observation is gone. -/
def Slot.Laden (s : Slot O W) : Prop := s.state.outcomeValid = true ∨ s.wakers ≠ []

/-- A slot drops something at its end exactly when it is laden. -/
theorem Slot.finalDrops_ne_nil {s : Slot O W} (hv : s.state.outcomeValid = s.outcome.isSome) :
    s.finalDrops ≠ [] ↔ s.Laden := by
  unfold finalDrops Laden destroys
  cases hvalid : s.state.outcomeValid with
  | false => simp
  | true =>
    rw [hvalid] at hv
    have ⟨c, hc⟩ := Option.isSome_iff_exists.mp hv.symm
    simp [hc]

/-- `reset` finds every waker of the registry, for each has set `HAS_WAITER`. -/
theorem Slot.resetDrops_eq {s : Slot O W} (hw : s.registry ≠ [] → s.state.hasWaiter = true) :
    s.resetDrops = s.finalDrops := by
  unfold resetDrops finalDrops
  cases hwait : s.state.hasWaiter with
  | true => rfl
  | false =>
    have hnil : s.registry = [] := by
      by_contra hne
      rw [hw hne] at hwait
      cases hwait
    simp [wakers, hnil]

/-- Nothing is left to destroy behind a reset. -/
theorem Slot.finalDrops_reset {s : Slot O W} (hw : s.registry ≠ [] → s.state.hasWaiter = true) :
    s.reset.finalDrops = [] := by
  have hdead : StateWord.zero.outcomeValid = false := rfl
  simp [finalDrops, destroys, wakers, hdead, reset_registry hw]

namespace World

/-- No destructor of a user's value has run under the lock so far. -/
def Unlocked (w : World K O W bits) : Prop := ∀ d ∈ w.drops, d.2 = false

/-- The step drops a slot, or takes one out of the pool, that still holds something, and destroys that
before it gives up the lock. -/
inductive DestroysLocked (w : World K O W bits) : World K O W bits → Prop where
  | reset {key : K} {i : SlotId} {rest : List SlotId} (hkey : w.map.isVacant key = true)
      (hmax : w.nextGeneration ≠ BitVec.allOnes bits) (hpool : w.pool = i :: rest)
      (hladen : (w.slots i).slot.Laden) : DestroysLocked w (w.subject key).1
  | exhausted {key : K} {i : SlotId} {rest : List SlotId} (hkey : w.map.isVacant key = true)
      (hmax : w.nextGeneration = BitVec.allOnes bits) (hpool : w.pool = i :: rest)
      (hlast : w.arcs.count i = 1) (hladen : (w.slots i).slot.Laden) :
      DestroysLocked w (w.subject key).1
  | unwind {i : SlotId} {rest : List SlotId} (hpool : w.pool = i :: rest)
      (hlast : w.arcs.count i = 1) (hladen : (w.slots i).slot.Laden) :
      DestroysLocked w (w.dropPopped true)
  /-- The call has reset the slot before it unwinds. -/
  | register {p : PanicPoint} {m : SmallMap K bits} {i : SlotId} {rest : List SlotId}
      (hpool : w.pool = i :: rest) (hladen : (w.slots i).slot.Laden) :
      DestroysLocked w (w.unwindRegister p m)
  /-- Only entries that the promotion loses hold the slot. -/
  | promotion {p : PanicPoint} {m : SmallMap K bits} {i : SlotId}
      (hlost : w.arcs.HeldWithin (w.lost p) i) (hladen : (w.slots i).slot.Laden) :
      DestroysLocked w (w.unwindRegister p m)
  /-- The entry is not the subject's own, but has its key and number. -/
  | remove {g : Gen} {k : K} {n : BitVec bits} {i : SlotId} {e : SlotEntry bits}
      (hget : w.map.get k = some e) (hn : e.generation = n)
      (hlast : w.arcs.HeldWithin [.table e.gen] e.slot) (hladen : (w.slots e.slot).slot.Laden) :
      DestroysLocked w (w.retire g k n i)

variable {w w' : World K O W bits}

/-! ## Releases -/

theorem Unlocked.append (h : w.Unlocked) {d : List (Dropped W)}
    (hd : w'.drops = d.map (·, false) ++ w.drops) : w'.Unlocked := by
  intro x hmem
  rw [hd] at hmem
  rcases List.mem_append.mp hmem with hnew | hold
  · have ⟨c, _, hc⟩ := List.mem_map.mp hnew
    rw [← hc]
  · exact h x hold

theorem unlocked_congr (hd : w'.drops = w.drops) : w'.Unlocked ↔ w.Unlocked := by
  unfold Unlocked
  rw [hd]

/-- What is destroyed under the lock shows. -/
theorem unlocked_append_iff {d : List (Dropped W)}
    (hd : w'.drops = d.map (·, true) ++ w.drops) : w'.Unlocked ↔ w.Unlocked ∧ d = [] := by
  unfold Unlocked
  rw [hd, List.forall_mem_append]
  constructor
  · intro ⟨hnew, hold⟩
    refine ⟨hold, List.eq_nil_iff_forall_not_mem.mpr fun x hmem => ?_⟩
    have hflag : true = false := hnew (x, true) (List.mem_map.mpr ⟨x, hmem, rfl⟩)
    cases hflag
  · intro ⟨hold, hnil⟩
    rw [hnil]
    exact ⟨by simp, hold⟩

theorem lastHandle_eq_some_iff (x : Owner) (i : SlotId) :
    w.lastHandle x = some i ↔ w.arcs.HeldWithin [x] i := by
  unfold lastHandle
  rw [Option.filter_eq_some_iff, decide_eq_true_iff, Lib.Handles.heldWithin_singleton]
  exact and_congr_right fun hx => Lib.Handles.count_release_eq_zero_iff _ hx

/-- A release outside the lock leaves it unlocked. -/
theorem Unlocked.release (h : w.Unlocked) (x : Owner) : (w.release x false).Unlocked := by
  cases hlast : w.lastHandle x with
  | none => exact (unlocked_congr (by simp only [World.release, hlast])).mpr h
  | some i =>
    exact h.append (d := (w.slots i).slot.finalDrops) (by simp only [World.release, hlast])

/-- A handle that is dropped under the lock. -/
theorem release_unlocked_iff (w : World K O W bits) (x : Owner) :
    (w.release x true).Unlocked ↔
      w.Unlocked ∧ ∀ i, w.arcs.HeldWithin [x] i → (w.slots i).slot.finalDrops = [] := by
  simp only [← lastHandle_eq_some_iff]
  cases hlast : w.lastHandle x with
  | none =>
    rw [unlocked_congr (w := w) (by simp only [World.release, hlast])]
    simp
  | some i =>
    rw [unlocked_append_iff (w := w) (d := (w.slots i).slot.finalDrops)
      (by simp only [World.release, hlast])]
    simp

/-- Another handle of the slot is left. -/
theorem release_slots_of_not {x : Owner} {i : SlotId} (h : ¬ w.arcs.HeldWithin [x] i) (l : Bool) :
    (w.release x l).slots i = w.slots i := by
  have hne : w.lastHandle x ≠ some i := fun hli => h ((lastHandle_eq_some_iff x i).mp hli)
  cases hlast : w.lastHandle x with
  | none => simp only [World.release, hlast]
  | some j =>
    have hij : i ≠ j := by
      rintro rfl
      exact hne hlast
    simp only [World.release, hlast, Function.update_of_ne hij]

/-- Handles that are dropped under the lock, one after the other. -/
theorem releaseAll_unlocked_iff (w : World K O W bits) (xs : List Owner) :
    (w.releaseAll xs true).Unlocked ↔
      w.Unlocked ∧ ∀ i, w.arcs.HeldWithin xs i → (w.slots i).slot.finalDrops = [] := by
  induction xs generalizing w with
  | nil =>
    refine (and_iff_left ?_).symm
    intro i ⟨⟨x, hx⟩, hall⟩
    cases hall x hx
  | cons x xs ih =>
    show ((w.release x true).releaseAll xs true).Unlocked ↔ _
    rw [ih, release_unlocked_iff, and_assoc]
    simp only [w.arcs.heldWithin_cons_iff x xs]
    refine and_congr_right fun _ => ⟨fun ⟨hlast, hrest⟩ i hi => ?_, fun hall => ⟨?_, ?_⟩⟩
    · by_cases hli : w.arcs.HeldWithin [x] i
      · exact hlast i hli
      · -- the slot outlives the first handle, and goes with a later one
        rw [← release_slots_of_not hli true]
        exact hrest i (hi.resolve_left hli)
    · intro i hi
      exact hall i (.inl hi)
    · intro i hi
      rw [release_slots_of_not hi.not_of_release]
      exact hall i (.inr hi)

/-! ## Slots that are pooled or left to an entry -/

section Explained

variable [WillWake W]

/-- The pool's handles are those of the pooled slots. -/
theorem Explained.pool_of (h : w.Explained) (i : SlotId) :
    w.arcs.of (.pool i) = if i ∈ w.pool then some i else none := by
  obtain ⟨v, a, c, hv, hr, rfl⟩ := h
  exact (hr.other _ (by simp)).trans (hv.held _)

/-- An entry of the table has its handle. -/
theorem Explained.of_table (h : w.Explained) {k : K} {e : SlotEntry bits}
    (hget : w.map.get k = some e) : w.arcs.of (.table e.gen) = some e.slot := by
  obtain ⟨v, a, c, hv, hr, rfl⟩ := h
  exact hr.of_table hv hget

/-- A pooled slot holds exactly what its final drop and its reset destroy, and nothing once it is
reset. -/
theorem Explained.pooled_drops (h : w.Explained) {i : SlotId} (hi : i ∈ w.pool) :
    ((w.slots i).slot.finalDrops = [] ↔ ¬ (w.slots i).slot.Laden) ∧
      (w.slots i).slot.resetDrops = (w.slots i).slot.finalDrops ∧
        (w.slots i).slot.reset.finalDrops = [] := by
  obtain ⟨v, a, c, hv, hr, rfl⟩ := h
  have hsafe := hv.safe_of_pooled hi
  have hquiet := hv.quiescent hi
  have hvalid := hsafe.wf.published.valid_iff hquiet.comp
  refine ⟨not_iff_not.mp ?_, Slot.resetDrops_eq hsafe.wf.announced.registry,
    Slot.finalDrops_reset hsafe.wf.announced.registry⟩
  rw [not_not]
  exact Slot.finalDrops_ne_nil hvalid

/-- So does a slot that only entries hold. -/
theorem Explained.listed_drops (h : w.Explained) {xs : List Owner} {i : SlotId}
    (hi : w.arcs.HeldWithin xs i) (hxs : ∀ x ∈ xs, ∃ g, x = .table g) :
    (w.slots i).slot.finalDrops = [] ↔ ¬ (w.slots i).slot.Laden := by
  obtain ⟨v, a, c, hv, hr, rfl⟩ := h
  obtain ⟨⟨x, hx⟩, hall⟩ := hi
  obtain ⟨g, rfl⟩ := hxs x (hall x hx)
  have htab : v.arcs.of (.table g) = some i := (hr.other _ (by simp)).symm.trans hx
  have hsafe : (v.slots i).Safe v.env := hv.safe _ i htab
  have hown : (v.auth g).table? = some i := by
    rw [← htab, hv.held]
    rfl
  -- its authority is an orphan's, and has dropped its handle
  have hgone : (a g).slot? ≠ some i := by
    intro hslot
    have hheld : (v.recast a c).arcs.of (.subject g) = some i := (hr.subject g).trans hslot
    obtain ⟨g', hg'⟩ := hxs _ (hall _ hheld)
    cases hg'
  have hrest : (v.slots i).comp.resting = true := by
    cases ha : v.auth g with
    | subject k n j d =>
      rw [ha] at hown
      cases hown
      refine hr.rest g k n i d ha fun heq => hgone ?_
      rw [heq, ha]
      rfl
    | _ =>
      rw [ha] at hown
      cases hown
  refine not_iff_not.mp ?_
  rw [not_not]
  exact Slot.finalDrops_ne_nil (hsafe.wf.published.valid_iff hrest)

/-- A popped slot goes under the lock. -/
theorem Explained.dropPopped_unlocked_iff (h : w.Explained) : (w.dropPopped true).Unlocked ↔
    w.Unlocked ∧ ∀ i rest, w.pool = i :: rest → w.arcs.count i = 1 →
      ¬ (w.slots i).slot.Laden := by
  unfold World.dropPopped
  cases hpool : w.pool with
  | nil => simp
  | cons i rest =>
    have hmem : i ∈ w.pool := by rw [hpool]; exact List.mem_cons_self
    have hof : w.arcs.of (.pool i) = some i := by rw [h.pool_of, if_pos hmem]
    have hlast (j : SlotId) : w.arcs.HeldWithin [.pool i] j ↔ i = j ∧ w.arcs.count i = 1 := by
      rw [Lib.Handles.heldWithin_singleton, Lib.Handles.count_eq_one_iff _ hof]
      show w.arcs.of (.pool i) = some j ∧ _ ↔ _
      rw [hof, Option.some.injEq]
      exact and_congr_right fun hij => hij ▸ Iff.rfl
    rw [release_unlocked_iff]
    refine and_congr Iff.rfl ⟨fun hall j rest' hj hone hladen => ?_, fun hall j hj => ?_⟩
    · cases hj
      exact (h.pooled_drops hmem).1.mp (hall i ((hlast i).mpr ⟨rfl, hone⟩)) hladen
    · obtain ⟨rfl, hone⟩ := (hlast j).mp hj
      exact (h.pooled_drops hmem).1.mpr (hall i rest rfl hone)

/-- The section of `Subject::drop` destroys nothing, unless the entry is another one's. -/
theorem Explained.retire_unlocked_iff (h : w.Explained) (g : Gen) (k : K) (n : BitVec bits)
    (i : SlotId) : (w.retire g k n i).Unlocked ↔ w.Unlocked ∧ ∀ e, w.map.get k = some e →
      e.generation = n → w.arcs.HeldWithin [.table e.gen] e.slot →
        ¬ (w.slots e.slot).slot.Laden := by
  have hrem := w.map.removeIf_snd k n
  cases hget : w.map.get k with
  | none =>
    rw [hget] at hrem
    have hsame : (w.retire g k n i).Unlocked ↔ w.Unlocked := by
      refine unlocked_congr ?_
      unfold World.retire
      simp [hrem]
    rw [hsame]
    simp
  | some e =>
    rw [hget] at hrem
    by_cases hn : e.generation = n
    · have hdrops : (w.retire g k n i).Unlocked ↔ (w.release (.table e.gen) true).Unlocked := by
        refine unlocked_congr ?_
        unfold World.retire
        simp only [hrem, Option.any_some, hn, BEq.rfl, if_true, hget]
        split <;> rfl
      have hheld := h.of_table hget
      rw [hdrops, release_unlocked_iff]
      refine and_congr Iff.rfl ⟨fun hall e' he' _ hlast => ?_, fun hall j hj => ?_⟩
      · cases he'
        exact (h.listed_drops hlast (by simp)).mp (hall _ hlast)
      · have ⟨hof, _⟩ := Lib.Handles.heldWithin_singleton.mp hj
        have hje : some e.slot = some j := hheld.symm.trans hof
        cases hje
        exact (h.listed_drops hj (by simp)).mpr (hall e rfl hn hj)
    · have hsame : (w.retire g k n i).Unlocked ↔ w.Unlocked := by
        refine unlocked_congr ?_
        unfold World.retire
        simp [hrem, hn]
      rw [hsame]
      refine (and_iff_left ?_).symm
      intro e' he' hn'
      cases he'
      exact absurd hn' hn

end Explained

/-! ## Calls of `subject` that unwind -/

/-- A call that has drawn its number has taken a pooled slot or made one. -/
theorem prepared_cases (w : World K O W bits) :
    w.pool = [] ∧ w.registerSlot = w.nextSlot ∧ w.prepared = w.drawNumber.newSlot ∨
      ∃ i rest, w.pool = i :: rest ∧ w.registerSlot = i ∧
        w.prepared = w.drawNumber.recycleSlot i rest := by
  unfold World.prepared World.registerSlot
  cases hpool : w.pool with
  | nil => exact .inl ⟨rfl, rfl, rfl⟩
  | cons i rest => exact .inr ⟨i, rest, rfl, rfl, rfl⟩

/-- A slot that has nothing to destroy keeps nothing back. -/
theorem releaseAll_finalDrops {i : SlotId} (xs : List Owner) (l : Bool)
    (h : (w.slots i).slot.finalDrops = []) :
    ((w.releaseAll xs l).slots i).slot.finalDrops = [] := by
  induction xs generalizing w with
  | nil => exact h
  | cons x xs ih =>
    refine ih ?_
    rcases w.release_slots x l i with hsame | ⟨-, -, hdrop⟩
    · rw [hsame]
      exact h
    · rw [hdrop]
      rfl

theorem releaseAll_of {x : Owner} {xs : List Owner} (hx : x ∉ xs) (l : Bool) :
    (w.releaseAll xs l).arcs.of x = w.arcs.of x := by
  induction xs generalizing w with
  | nil => rfl
  | cons y xs ih =>
    have ⟨hxy, hrest⟩ : x ≠ y ∧ x ∉ xs := by simpa only [List.mem_cons, not_or] using hx
    refine (ih hrest).trans ?_
    rw [release_arcs, Lib.Handles.of_release_of_ne _ hxy]

section Holding

variable [WillWake W]

theorem Explained.nextGen_free (h : w.Explained) :
    w.arcs.of (.table w.nextGen) = none ∧ w.arcs.of (.subject w.nextGen) = none := by
  obtain ⟨v, a, c, hv, hr, rfl⟩ := h
  have ⟨htab, hsub⟩ := hv.nextGen_free
  refine ⟨(hr.other _ (by simp)).trans htab, ?_⟩
  cases hof : c.of (.subject v.nextGen) with
  | none => exact hof
  | some i =>
    rw [hr.le hv hof] at hsub
    cases hsub

/-- Nobody holds a slot that has not been made. -/
theorem Explained.nextSlot_free (h : w.Explained) (x : Owner) :
    w.arcs.of x ≠ some w.nextSlot := by
  obtain ⟨v, a, c, hv, hr, rfl⟩ := h
  intro hx
  exact hv.unused.slot v.nextSlot le_rfl x (hr.le hv hx)

/-- Somebody other than an entry has the slot that the call takes, or nobody has it. -/
theorem Explained.registerSlot_not (h : w.Explained) {xs : List Owner}
    (hxs : ∀ x ∈ xs, ∃ g, x = .table g) : ¬ w.arcs.HeldWithin xs w.registerSlot := by
  intro ⟨⟨x, hx⟩, hall⟩
  rcases w.prepared_cases with ⟨-, hslot, -⟩ | ⟨i, rest, hpool, hslot, -⟩
  · rw [hslot] at hx
    exact h.nextSlot_free x hx
  · have hmem : i ∈ w.pool := by rw [hpool]; exact List.mem_cons_self
    have hof : w.arcs.of (.pool i) = some w.registerSlot := by
      rw [hslot, h.pool_of, if_pos hmem]
    obtain ⟨g, hg⟩ := hxs _ (hall _ hof)
    cases hg

theorem Explained.prepared_of (h : w.Explained) (x : Owner) :
    w.prepared.arcs.of x = if x = .pool w.registerSlot then none else w.arcs.of x := by
  rcases w.prepared_cases with ⟨hpool, hslot, heq⟩ | ⟨i, rest, -, hslot, heq⟩
  · rw [heq, hslot]
    show w.arcs.of x = _
    split
    · rename_i hx
      rw [hx, h.pool_of, hpool]
      rfl
    · rfl
  · rw [heq, hslot]
    show (w.arcs.release (.pool i)).of x = _
    split
    · rename_i hx
      rw [hx, Lib.Handles.of_release_self]
    · rename_i hx
      rw [Lib.Handles.of_release_of_ne _ hx]

/-- A call in front of its insert holds its slot by its local handle alone. -/
theorem Explained.holding_of (h : w.Explained) (x : Owner) : w.holding.arcs.of x =
    if x = .subject w.nextGen then some w.registerSlot
    else if x = .table w.nextGen then none
    else if x = .pool w.registerSlot then none else w.arcs.of x := by
  have hgen : w.prepared.nextGen = w.nextGen := by
    rcases w.prepared_cases with ⟨-, -, heq⟩ | ⟨i, rest, -, -, heq⟩ <;> rw [heq] <;> rfl
  have hfree : w.prepared.arcs.of (.table w.prepared.nextGen) = none := by
    rw [hgen, h.prepared_of, if_neg (by simp), h.nextGen_free.1]
  unfold World.holding
  rw [claim_of w.map (.inl rfl) hfree, hgen, h.prepared_of]
  rfl

/-- The entries that hold a slot alone are the same for the call that has taken its own. -/
theorem Explained.holding_heldWithin (h : w.Explained) {xs : List Owner}
    (hxs : ∀ x ∈ xs, ∃ g, x = .table g) (i : SlotId) :
    w.holding.arcs.HeldWithin xs i ↔ w.arcs.HeldWithin xs i := by
  by_cases hi : i = w.registerSlot
  · subst hi
    refine iff_of_false (fun ⟨_, hall⟩ => ?_) (h.registerSlot_not hxs)
    obtain ⟨g, hg⟩ := hxs (.subject w.nextGen) (hall _ (by rw [h.holding_of, if_pos rfl]))
    cases hg
  · have hsame (x : Owner) : w.holding.arcs.of x = some i ↔ w.arcs.of x = some i := by
      have ⟨htab, hsub⟩ := h.nextGen_free
      rw [h.holding_of]
      split
      · rename_i hx
        rw [hx, hsub]
        exact iff_of_false (fun heq => hi (Option.some.inj heq).symm) (by simp)
      · split
        · rename_i hx
          rw [hx, htab]
        · split
          · rename_i hx
            rw [hx, h.pool_of]
            refine iff_of_false (by simp) fun heq => ?_
            split at heq
            · exact hi (Option.some.inj heq).symm
            · cases heq
          · rfl
    unfold Lib.Handles.HeldWithin Lib.Handles.Held
    simp only [hsame]

/-- Taking a slot destroys what was left in it. -/
theorem Explained.prepared_unlocked_iff (h : w.Explained) : w.prepared.Unlocked ↔
    w.Unlocked ∧ ∀ i rest, w.pool = i :: rest → ¬ (w.slots i).slot.Laden := by
  rcases w.prepared_cases with ⟨hpool, -, heq⟩ | ⟨i, rest, hpool, -, heq⟩
  · have hdrops : w.prepared.drops = w.drops := by
      rw [heq]
      rfl
    rw [unlocked_congr hdrops, hpool]
    simp
  · have hmem : i ∈ w.pool := by rw [hpool]; exact List.mem_cons_self
    obtain ⟨hempty, hreset, -⟩ := h.pooled_drops hmem
    have hdrops : w.prepared.drops = (w.slots i).slot.resetDrops.map (·, true) ++ w.drops := by
      rw [heq]
      rfl
    rw [unlocked_append_iff hdrops, hreset, hempty, hpool]
    refine and_congr Iff.rfl ⟨fun hnot j rest' hj => ?_, fun hall => hall i rest rfl⟩
    cases hj
    exact hnot

/-- A slot that has just been reset or made has nothing to drop. -/
theorem Explained.prepared_finalDrops (h : w.Explained) :
    (w.prepared.slots w.registerSlot).slot.finalDrops = [] := by
  rcases w.prepared_cases with ⟨-, hslot, heq⟩ | ⟨i, rest, hpool, hslot, heq⟩
  · rw [heq, hslot]
    simp only [World.newSlot, World.drawNumber, Function.update_self]
    rfl
  · have hmem : i ∈ w.pool := by rw [hpool]; exact List.mem_cons_self
    rw [heq, hslot]
    simp only [World.recycleSlot, World.drawNumber, Function.update_self]
    exact (h.pooled_drops hmem).2.2

omit [WillWake W] in
theorem prepared_slots_of_ne {i : SlotId} (hi : i ≠ w.registerSlot) :
    w.prepared.slots i = w.slots i := by
  rcases w.prepared_cases with ⟨-, hslot, heq⟩ | ⟨j, rest, -, hslot, heq⟩
  · rw [hslot] at hi
    rw [heq]
    exact Function.update_of_ne hi _ _
  · rw [hslot] at hi
    rw [heq]
    exact Function.update_of_ne hi _ _

omit [WillWake W] in
/-- What is lost in a promotion are entries. -/
theorem lost_table (w : World K O W bits) (p : PanicPoint) : ∀ x ∈ w.lost p, ∃ g, x = .table g := by
  intro x hx
  unfold World.lost at hx
  split at hx
  · obtain ⟨e, -, he⟩ := List.mem_map.mp hx
    exact ⟨_, he.symm⟩
  · cases hx

/-- The lost entries destroy what they keep alone. -/
theorem Explained.lost_unlocked_iff (h : w.Explained) (p : PanicPoint) :
    (w.holding.releaseAll (w.lost p) true).Unlocked ↔ w.prepared.Unlocked ∧
      ∀ i, w.arcs.HeldWithin (w.lost p) i → ¬ (w.slots i).slot.Laden := by
  have hlost := w.lost_table p
  have hdrops : w.holding.drops = w.prepared.drops := rfl
  rw [releaseAll_unlocked_iff, unlocked_congr hdrops]
  refine and_congr Iff.rfl (forall_congr' fun i => ?_)
  rw [h.holding_heldWithin hlost]
  refine imp_congr_right fun hi => ?_
  have hne : i ≠ w.registerSlot := by
    rintro rfl
    exact h.registerSlot_not hlost hi
  rw [← h.listed_drops hi hlost, ← prepared_slots_of_ne hne]
  rfl

/-- A call of `subject` that unwinds behind its reset destroys what was left in the popped slot, and
what the entries that it loses keep alone. -/
theorem Explained.unwindRegister_unlocked_iff (h : w.Explained) (p : PanicPoint)
    (m : SmallMap K bits) : (w.unwindRegister p m).Unlocked ↔
      (w.Unlocked ∧ ∀ i rest, w.pool = i :: rest → ¬ (w.slots i).slot.Laden) ∧
        ∀ i, w.arcs.HeldWithin (w.lost p) i → ¬ (w.slots i).slot.Laden := by
  rw [← h.prepared_unlocked_iff, ← h.lost_unlocked_iff]
  unfold World.unwindRegister
  rw [release_unlocked_iff, unlocked_congr (w := w.holding.releaseAll (w.lost p) true) rfl]
  refine and_iff_left fun i hi => ?_
  -- the call's own handle is on the slot that it has prepared
  have hof := (Lib.Handles.heldWithin_singleton.mp hi).1
  have hown : (w.holding.releaseAll (w.lost p) true).arcs.of (.subject w.nextGen) =
      some w.registerSlot := by
    rw [releaseAll_of, h.holding_of, if_pos rfl]
    intro hmem
    obtain ⟨g, hg⟩ := w.lost_table p _ hmem
    cases hg
  have hslot : some w.registerSlot = some i := hown.symm.trans hof
  cases hslot
  exact releaseAll_finalDrops _ true h.prepared_finalDrops

end Holding

/-! ## Steps -/

section Steps

variable [WillWake W]

theorem Explained.drawNumber (h : w.Explained) : w.drawNumber.Explained := by
  obtain ⟨v, a, c, hv, hr, rfl⟩ := h
  exact hr.explained (u := v.drawNumber) rfl rfl (fun _ => id) (hv.nextGeneration _)

/-- A call of `subject` that returns destroys what was left in the popped slot. -/
theorem Explained.subject_unlocked_iff (h : w.Explained) {key : K}
    (hkey : w.map.isVacant key = true) : (w.subject key).1.Unlocked ↔ w.Unlocked ∧
      ∀ i rest, w.pool = i :: rest →
        w.nextGeneration ≠ BitVec.allOnes bits ∨ w.arcs.count i = 1 → ¬ (w.slots i).slot.Laden := by
  have hcases := w.subject_cases key
  generalize w.subject key = r at hcases ⊢
  cases hcases with
  | conflict hconf =>
    rw [hkey] at hconf
    cases hconf
  | exhausted _ hmax =>
    rw [h.drawNumber.dropPopped_unlocked_iff]
    refine and_congr Iff.rfl (forall_congr' fun i => forall_congr' fun rest => ?_)
    refine imp_congr_right fun _ => ⟨fun hall hor => hall (hor.resolve_left (not_not.mpr hmax)), ?_⟩
    exact fun hall hone => hall (.inr hone)
  | @recycled i rest _ hmax hpool =>
    have hmem : i ∈ w.pool := by rw [hpool]; exact List.mem_cons_self
    obtain ⟨hempty, hreset, -⟩ := h.pooled_drops hmem
    rw [unlocked_append_iff (w := w) (d := (w.slots i).slot.resetDrops) rfl, hreset, hempty, hpool]
    refine and_congr Iff.rfl ⟨fun hnot j rest' hj _ => ?_, fun hall => hall i rest rfl (.inl hmax)⟩
    cases hj
    exact hnot
  | fresh _ _ hpool =>
    have hsame : (w.drawNumber.newSlot.enter key w.nextGeneration w.nextSlot).Unlocked ↔
        w.Unlocked := unlocked_congr rfl
    refine hsame.trans (and_iff_left ?_).symm
    intro i rest hnone
    rw [hpool] at hnone
    cases hnone

/-- A step that destroys nothing under the lock. -/
theorem Unlocked.step (hu : w.Unlocked) (h : w.Explained) (hs : Step w w')
    (hclean : ¬ w.DestroysLocked w') : w'.Unlocked := by
  cases hs with
  | subject key =>
    cases hkey : w.map.isVacant key with
    | false =>
      have hsame : w.subject key = (w, .subjectExists key) := by simp [World.subject, hkey]
      rw [hsame]
      exact hu
    | true =>
      refine (h.subject_unlocked_iff hkey).mpr ⟨hu, fun i rest hpool hor hladen => ?_⟩
      by_cases hmax : w.nextGeneration = BitVec.allOnes bits
      · exact hclean (.exhausted hkey hmax hpool (hor.resolve_left (not_not.mpr hmax)) hladen)
      · exact hclean (.reset hkey hmax hpool hladen)
  | unwind =>
    refine h.dropPopped_unlocked_iff.mpr ⟨hu, fun i rest hpool hlast hladen => ?_⟩
    exact hclean (.unwind hpool hlast hladen)
  | observe key =>
    unfold World.observe
    split <;> exact hu
  | dropPooled =>
    unfold World.dropPopped
    split
    · exact hu
    · exact Unlocked.release hu _
  | @retire g k n i c ha hrest =>
    refine (h.retire_unlocked_iff g k n i).mpr ⟨hu, fun e hget hn hlast hladen => ?_⟩
    exact hclean (.remove hget hn hlast hladen)
  | releaseSubject ha => exact Unlocked.release hu _
  | releaseFuture hf hdead => exact Unlocked.release hu _
  | dropObs ho hb => exact Unlocked.release hu _
  | @intoOutcome o i g ho hb =>
    unfold World.intoOutcome
    split
    · exact hu.append rfl
    · exact hu
  | dropRefused ho => exact Unlocked.release hu _
  | _ => exact hu

/-- A step that does not destroy under the lock leaves it unlocked. -/
theorem Unlocked.unwindingStep (hu : w.Unlocked) (h : w.Explained) (hs : UnwindingStep w w')
    (hclean : ¬ w.DestroysLocked w') : w'.Unlocked := by
  cases hs with
  | step hs => exact hu.step h hs hclean
  | register key hspace hc hpc hp =>
    refine (h.unwindRegister_unlocked_iff _ _).mpr ⟨⟨hu, fun i rest hpool hladen => ?_⟩,
      fun i hlost hladen => hclean (.promotion hlost hladen)⟩
    exact hclean (.register hpool hladen)
  | remove ha hrest => exact hu
  | dropEntry hinner hget => exact Unlocked.release hu _

/-- A step that destroys something under the lock. -/
theorem DestroysLocked.not_unlocked (hd : w.DestroysLocked w') (h : w.Explained) :
    ¬ w'.Unlocked := by
  intro hu
  cases hd with
  | reset hkey hmax hpool hladen =>
    exact ((h.subject_unlocked_iff hkey).mp hu).2 _ _ hpool (.inl hmax) hladen
  | exhausted hkey hmax hpool hlast hladen =>
    exact ((h.subject_unlocked_iff hkey).mp hu).2 _ _ hpool (.inr hlast) hladen
  | unwind hpool hlast hladen =>
    exact (h.dropPopped_unlocked_iff.mp hu).2 _ _ hpool hlast hladen
  | register hpool hladen =>
    exact ((h.unwindRegister_unlocked_iff _ _).mp hu).1.2 _ _ hpool hladen
  | promotion hlost hladen =>
    exact ((h.unwindRegister_unlocked_iff _ _).mp hu).2 _ hlost hladen
  | remove hget hn hlast hladen =>
    exact ((h.retire_unlocked_iff _ _ _ _).mp hu).2 _ hget hn hlast hladen

end Steps

end World

/-! ## Re-entry from destructors -/

/-- **No self-deadlock through destructors** along a run, in which the code of `K` may panic, exactly
when no call of `subject` in the run takes a slot out of the pool that still holds an outcome or a
waker, to reset it or, unwinding, to drop its last handle, and no section drops an entry that is all
that is left of such a slot. -/
theorem destructors_unlocked_iff [WillWake W] {l : List (World K O W bits)}
    (hr : (unwindingSystem K O W bits).Run l) :
    (∀ w ∈ l, w.Unlocked) ↔ Lib.System.Steps (fun w w' => ¬ w.DestroysLocked w') l := by
  apply hr.forall_iff_steps (I := fun w => w.Explained ∧ w.Unlocked)
  · intro w hi
    have ⟨e, he⟩ := hi
    rw [he]
    refine ⟨.new e, ?_⟩
    intro d hd
    cases hd
  · intro w w' hw hs hclean
    exact ⟨hw.1.step hs, hw.2.unwindingStep hw.1 hs hclean⟩
  · intro w hw
    exact hw.2
  · intro w w' hw hs hdirty
    exact (not_not.mp hdirty).not_unlocked hw.1

-- The removal of a completed generation panics, and the promotion that its entry is lost in destroys
-- its outcome.
example : ∃ w w', (unwindingSystem Nat Nat Nat 64).Reachable w ∧ w.UnwindingStep w' ∧
    w.drops = [] ∧ w'.drops = [(.outcome 1, true)] := by
  have h₀ : (unwindingSystem Nat Nat Nat 64).Reachable _ := .init ⟨⟨fun _ => false, 0⟩, rfl⟩
  have h₁ := h₀.step (.step (.subject 7 (by decide)))
  have h₂ := h₁.step (.step (.complete (g := 1) 42 rfl))
  have h₃ := h₂.step (.step (.callStep 0 (.complete (.write rfl))))
  have h₄ := h₃.step (.step (.callStep 0 (.complete (.publish_alone rfl rfl))))
  have h₅ := h₄.step (.remove (g := 1) rfl rfl)
  have h₆ := h₅.step (.step (.releaseInner (g := 1) rfl))
  have h₇ := h₆.step (.step (.releaseSubject (g := 1) rfl))
  have h₈ := h₇.step (.step (.subject 1 (by decide)))
  have h₉ := h₈.step (.step (.subject 2 (by decide)))
  have h₁₀ := h₉.step (.step (.subject 3 (by decide)))
  exact ⟨_, _, h₁₀, .register 4 (by decide)
    (World.reaches_promotion_panic 4 rfl (by decide) rfl rfl (by decide)) rfl (.inr (.inl rfl)),
      rfl, rfl⟩

/-- Generation 1 completes with nobody waiting and is retired into the pool; the next registration
of its key destroys its outcome. -/
theorem locked_run : ∃ w l, (unwindingSystem Nat Nat Nat 64).Run (w :: l) ∧
    w.drops = [(.outcome 1, true)] := by
  have h₀ : (unwindingSystem Nat Nat Nat 64).Run [_] := .init ⟨⟨fun _ => false, 0⟩, rfl⟩
  have h₁ := h₀.step (.step (.subject 7 (by decide)))
  have h₂ := h₁.step (.step (.complete (g := 1) 42 rfl))
  have h₃ := h₂.step (.step (.callStep 0 (.complete (.write rfl))))
  have h₄ := h₃.step (.step (.callStep 0 (.complete (.publish_alone rfl rfl))))
  have h₅ := h₄.step (.step (.retire (g := 1) rfl rfl))
  have h₆ := h₅.step (.step (.releaseInner (g := 1) rfl))
  have h₇ := h₆.step (.step (.releaseSubject (g := 1) rfl))
  have h₈ := h₇.step (.step (.subject 7 (by decide)))
  exact ⟨_, _, h₈, rfl⟩

theorem destructor_under_lock : ¬ ∀ w : World Nat Nat Nat 64,
    (unwindingSystem Nat Nat Nat 64).Reachable w → w.Unlocked := by
  intro hclaim
  have ⟨w, l, hrun, hdrops⟩ := locked_run
  have hflag : true = false := hclaim w (hrun.reachable w List.mem_cons_self) (.outcome 1, true)
    (by rw [hdrops]; exact List.mem_cons_self)
  cases hflag

/-- That run takes a step of the kind in question. -/
theorem locked_run_destroys : ∃ l, (unwindingSystem Nat Nat Nat 64).Run l ∧
    ¬ Lib.System.Steps (fun w w' => ¬ w.DestroysLocked w') l := by
  have ⟨w, l, hrun, hdrops⟩ := locked_run
  refine ⟨w :: l, hrun, ?_⟩
  intro hclean
  have hu : w.Unlocked := (destructors_unlocked_iff hrun).mpr hclean w List.mem_cons_self
  have hflag : true = false := hu (.outcome 1, true) (by rw [hdrops]; exact List.mem_cons_self)
  cases hflag

end Observe
