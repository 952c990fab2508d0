import Observe.Space.Isolation
import Observe.Space.Answers

/-!
# The life of an outcome

Every read of a cell finds the value of the reader's own generation; the validity bit tells the
truth about the cell whenever a slot is reset or goes; and a published value leaves the program
once, as the answer of an `into_outcome` or by the crate's own hand.
-/

namespace Observe

variable {K O W : Type} [Key K] {bits : Nat} [WillWake W] {w w' : World K O W bits}

omit [WillWake W] in
def SlotSys.LiveFor (s : SlotSys O W) (g : Gen) : Prop :=
  s.slot.state.outcomeValid = true ∧ ∃ v, s.slot.outcome = some (g, v) ∧ s.published g = some v

omit [WillWake W] in
/-- The validity bit is set exactly while the cell holds a live value. -/
def SlotSys.Truthful (s : SlotSys O W) : Prop :=
  s.slot.state.outcomeValid = s.slot.outcome.isSome

/-- A completed slot holds the value of its generation. -/
theorem SlotSys.Safe.liveFor {e : Env} {s : SlotSys O W} (hs : s.Safe e)
    (hc : s.slot.state.completed = true) : s.LiveFor s.gen := by
  have hp := hs.wf.published
  exact ⟨by rw [hp.outcomeValid, ← hp.completed, hc], hp.live hc⟩

namespace World

/-- The slots that lose their last handle in a step have no publication under way. -/
theorem Inv.resting_of_dropped (h : w.Inv) (hs : Step w w') {i : SlotId} (hi : w.arcs.Held i)
    (hi' : ¬ w'.arcs.Held i) : (w.slots i).comp.resting = true := by
  by_contra hrest
  have hcomp : (w'.slots i).comp = (w.slots i).comp := by
    cases h.touch hs i with
    | same hs henv hheld => exact absurd (hheld.mpr hi) hi'
    | moved hx hy hm => exact absurd hy hi'
    | made _ hy hs => exact absurd hy hi'
    | dropped hx hnone hs => rcases hs with hs | ⟨-, hs⟩ <;> rw [hs] <;> rfl
  exact hi' ((h.step hs).held_of_pin
    ((h.step hs).pin_comp (by rw [hcomp]; simpa using hrest)))

/-- The slot that `into_outcome` has to itself tells the truth also behind the take, where its final
drop finds it. -/
theorem Inv.takenSlot_truthful (h : w.Inv) {o : ObsId} {i : SlotId} {g : Gen}
    (ho : w.obs o = .live i g) (hone : w.arcs.count i = 1) : (w.takenSlot i).Truthful := by
  have hx : w.arcs.of (.obs o) = some i := by
    rw [h.held]
    exact handle_of_pin (pin_obs ho)
  have hrest : (w.slots i).comp.resting = true := by
    by_contra hrest
    have hsub : w.arcs.of (.subject (w.slots i).gen) = some i := by
      rw [h.held]
      exact handle_of_pin (h.pin_comp (by simpa using hrest))
    cases (Lib.Handles.count_eq_one_iff _ hx).mp hone _ hsub
  unfold World.takenSlot
  split
  · rfl
  · exact (h.safe_of_pin (pin_obs ho)).wf.published.valid_iff hrest

omit [WillWake W] in
/-- What an `into_outcome` has returned was published, and the crate does not destroy it. -/
theorem Answers.taken (ha : w.Answers) (hh : w.History) {o : ObsId} {g : Gen} {v : O}
    (ht : w.Took o g v) : ∃ i, (w.slots i).published g = some v ∧ (w.slots i).moved.count g = 1 ∧
      (w.slots i).destroyed.count g = 0 ∧ g ∉ w.destroyed := by
  obtain ⟨i, hv, hg⟩ := ha.value o g v ht
  have hpos := List.count_pos_iff.mpr hg
  have hle := hh.left_le_one i g
  have hzero : (w.slots i).destroyed.count g = 0 := by omega
  refine ⟨i, hv, by omega, hzero, fun hd => ?_⟩
  obtain ⟨j, hj⟩ := (ha.destroyed g).mp hd
  have hij : i = j := hh.single i j g (by simp [hv]) (hh.published_of_left (.inr hj))
  subst hij
  exact List.count_eq_zero.mp hzero hj

omit [WillWake W] in
/-- A value whose slot is gone has been returned once, or destroyed once. -/
theorem Answers.leaves (ha : w.Answers) (hh : w.History) {i : SlotId} (hfree : ¬ w.arcs.Held i)
    {g : Gen} {v : O} (hv : (w.slots i).published g = some v) :
    ((∃ o, w.Took o g v ∧ ∀ o' v', w.Took o' g v' → o' = o) ∧ w.destroyed.count g = 0) ∨
      ((∀ o v', ¬ w.Took o g v') ∧ w.destroyed.count g = 1) := by
  have honce := hh.left_once hfree (by rw [hv]; simp)
  by_cases hg : g ∈ (w.slots i).moved
  · left
    obtain ⟨o, v', ht⟩ := ha.taker i g hg
    obtain ⟨j, hv', hmoved, -, hd⟩ := ha.taken hh ht
    have hij : i = j := hh.single i j g (by simp [hv]) (by simp [hv'])
    subst hij
    rw [hv] at hv'
    cases hv'
    exact ⟨⟨o, ht, fun o' v' ht' => ha.sole o o' g v v' ht ht'⟩, List.count_eq_zero.mpr hd⟩
  · right
    have hpos : 0 < (w.slots i).destroyed.count g := by
      have hzero := List.count_eq_zero.mpr hg
      omega
    refine ⟨fun o v' ht => ?_, List.count_eq_one_of_mem ha.nodup
      ((ha.destroyed g).mpr ⟨i, List.count_pos_iff.mp hpos⟩)⟩
    obtain ⟨j, hv', hm⟩ := ha.value o g v' ht
    have hij : i = j := hh.single i j g (by simp [hv]) (by simp [hv'])
    subst hij
    exact hg hm

/-- The accounts of the outcome cells. -/
structure Accounted (w : World K O W bits) : Prop where
  readThread : ∀ i t, ((w.slots i).thr t = .read ∨ (w.slots i).thr t = .readLocked) →
    (w.slots i).LiveFor ((w.slots i).via t).gen
  readFuture : ∀ i f, (w.slots i).fpc f = .read → (w.slots i).LiveFor ((w.slots i).fut f).gen
  readTake : ∀ o i g, w.obs o = .live i g → (w.slots i).slot.state.completed = true →
    (w.slots i).LiveFor g
  /-- Every slot that is reset comes from the pool. -/
  reset : ∀ i ∈ w.pool, (w.slots i).Truthful
  finalDrop : ∀ w', Step w w' → ∀ i, w.arcs.Held i → ¬ w'.arcs.Held i → (w.slots i).Truthful
  /-- `into_outcome` drops the slot behind its take. -/
  takenDrop : ∀ o i g, w.obs o = .live i g → w.arcs.count i = 1 → (w.takenSlot i).Truthful
  /-- What it returns is the published value, and the crate destroys that value no more. -/
  taken : ∀ o g v, w.Took o g v → ∃ i, (w.slots i).published g = some v ∧
    (w.slots i).moved.count g = 1 ∧ (w.slots i).destroyed.count g = 0 ∧ g ∉ w.destroyed
  /-- A value whose slot is gone is the answer of exactly one `into_outcome`, or the destructor has
  run on it exactly once. -/
  leaves : ∀ i, ¬ w.arcs.Held i → ∀ g v, (w.slots i).published g = some v →
    ((∃ o, w.Took o g v ∧ ∀ o' v', w.Took o' g v' → o' = o) ∧ w.destroyed.count g = 0) ∨
      ((∀ o v', ¬ w.Took o g v') ∧ w.destroyed.count g = 1)
  /-- A value that is no longer in its cell was moved out once, or destroyed once. -/
  once : ∀ i, ¬ w.arcs.Held i → ∀ g, (w.slots i).published g ≠ none →
    (w.slots i).moved.count g + (w.slots i).destroyed.count g = 1
  atMostOnce : ∀ i g, (w.slots i).moved.count g + (w.slots i).destroyed.count g ≤ 1
  /-- No other slot has moved out or destroyed it. -/
  elsewhere : ∀ i j g, (w.slots i).published g ≠ none → j ≠ i →
    g ∉ (w.slots j).moved ∧ g ∉ (w.slots j).destroyed

end World

/-- **Outcome cells.** In every reachable state of the program. -/
theorem outcomes_accounted (h : (worldSystem K O W bits).Reachable w) : w.Accounted := by
  obtain ⟨hi, hh, -⟩ := worldSystem_sound h
  have ha := worldSystem_answers h
  have hlive {i : SlotId} {x : Owner} {g : Gen} (hp : w.pin x = some (i, g))
      (hc : (w.slots i).slot.state.completed = true) : (w.slots i).LiveFor g := by
    rw [← hi.pinned _ _ _ hp]
    exact (hi.safe_of_pin hp).liveFor hc
  refine
    { readThread := ?readThread
      readFuture := ?readFuture
      readTake := fun o i g ho hc => hlive (World.pin_obs ho) hc
      reset := ?reset
      finalDrop := ?finalDrop
      takenDrop := fun o i g ho hone => hi.takenSlot_truthful ho hone
      taken := fun o g v ht => ha.taken hh ht
      leaves := fun i hfree g v hv => ha.leaves hh hfree hv
      once := fun i hfree g hpub => hh.left_once hfree hpub
      atMostOnce := hh.left_le_one
      elsewhere := ?elsewhere }
  case readThread =>
    intro i t hpc
    have hact : ((w.slots i).thr t).active = true := by rcases hpc with hpc | hpc <;> rw [hpc] <;> rfl
    have hseen : ((w.slots i).thr t).seen = true := by rcases hpc with hpc | hpc <;> rw [hpc] <;> rfl
    have hpin := hi.pin_thr hact
    exact hlive hpin ((hi.safe_of_pin hpin).wf.published.thr t hseen)
  case readFuture =>
    intro i f hpc
    obtain ⟨g, hf⟩ := hi.borrowed.fut i f (by rw [hpc]; rfl)
    have hpin := World.pin_fut hf
    have hs := hi.safe_of_pin hpin
    rw [hs.records.gen f (hi.borrowed.mem i f g hf)]
    exact hs.liveFor (hs.wf.published.fut f (by rw [hpc]; rfl))
  case reset =>
    intro i hmem
    exact (hi.safe_of_pooled hmem).wf.published.valid_iff (hi.quiescent hmem).comp
  case finalDrop =>
    intro w' hs i hheld hgone
    exact (hi.safe_of_held hheld).wf.published.valid_iff (hi.resting_of_dropped hs hheld hgone)
  case elsewhere =>
    intro i j g hpub hne
    have hnone : (w.slots j).published g = none := by
      by_contra hpub'
      exact hne (hh.single j i g hpub' hpub)
    exact ⟨fun hg => hh.published_of_left (.inl hg) hnone,
      fun hg => hh.published_of_left (.inr hg) hnone⟩

/-- The last observation has moved the outcome out and returned it, and its slot is gone. -/
theorem taken_outcome_accounted : ∃ w : World Nat Nat Nat 64, w.Accounted ∧ ¬ w.arcs.Held 0 ∧
    (w.slots 0).published 1 = some 42 ∧ w.obs 0 = .gone 1 (some (some 42)) ∧
      (w.slots 0).moved.count 1 = 1 ∧ (w.slots 0).destroyed.count 1 = 0 ∧ w.drops = [] := by
  have h₀ : (worldSystem Nat Nat Nat 64).Reachable _ := .init ⟨⟨fun _ => false, 0⟩, rfl⟩
  have h₁ := h₀.step (.subject 7 (by decide))
  have h₂ := h₁.step (.observe 7 (by decide))
  have h₃ := h₂.step (.complete (g := 1) 42 rfl)
  have h₄ := h₃.step (.callStep 0 (.complete (.write rfl)))
  have h₅ := h₄.step (.callStep 0 (.complete (.publish_alone rfl rfl)))
  have h₆ := h₅.step (.retire (g := 1) rfl rfl)
  have h₇ := h₆.step (.releaseInner (g := 1) rfl)
  have h₈ := h₇.step (.releaseSubject (g := 1) rfl)
  have h₉ := h₈.step (.intoOutcome (o := 0) rfl (by
    intro i t hact
    rcases i with _ | i <;> rcases t with _ | t <;> cases hact))
  have hacc := outcomes_accounted h₉
  refine ⟨_, hacc, ?free, rfl, rfl, by decide, by decide, rfl⟩
  rintro ⟨x, hx⟩
  rw [(worldSystem_sound h₉).inv.held x] at hx
  rcases x with g | i | g | o | f
  · rcases g with _ | _ | g <;> cases hx
  · cases hx
  · rcases g with _ | _ | g <;> cases hx
  · rcases o with _ | o <;> cases hx
  · cases hx

end Observe
