import Observe.Space.Events
import Observe.Protocol.Lifetime

/-!
# What the program leaves behind

The history of every slot of the program, in use or not, and the refinement of the program by the
slot system: each slot in use is in a reachable state of its own.
-/

namespace Observe

variable {K O W : Type} [Key K] {bits : Nat} [WillWake W] {w w' : World K O W bits}

namespace World

/-! ## Authorities -/

omit [WillWake W] in
/-- What a step can make of the authority of generation `g`. -/
inductive AuthMove (w : World K O W bits) : Gen → Authority K bits → Prop where
  | subject {k n i} (hi : i ∈ w.pool ∨ i = w.nextSlot) : AuthMove w w.nextGen (.subject k n i false)
  | publisher : AuthMove w w.nextGen (.publisher w.nextSlot)
  | completes {g a} (h : (w.auth g).Completes a) : AuthMove w g a
  | retired {g k n i c} (ha : w.auth g = .subject k n i c) : AuthMove w g (.retired i)
  | releasing {g i} (ha : w.auth g = .retired i ∨ w.auth g = .publisher i ∨
      w.auth g = .publishing i) : AuthMove w g (.releasing i)
  | gone {g i} (ha : w.auth g = .releasing i) : AuthMove w g .gone

/-- A step moves one authority at most. -/
theorem Inv.auth_step (h : w.Inv) (hs : Step w w') :
    w'.auth = w.auth ∨ ∃ g a, w.AuthMove g a ∧ w'.auth = Function.update w.auth g a := by
  cases hs with
  | subject key =>
    have hcases := w.subject_cases key
    generalize w.subject key = r at hcases ⊢
    cases hcases with
    | conflict _ => exact .inl rfl
    | exhausted _ _ => exact .inl (w.drawNumber.dropPopped_auth true)
    | recycled _ _ hpool =>
      refine .inr ⟨_, _, .subject (.inl ?_), rfl⟩
      rw [hpool]
      exact List.mem_cons_self
    | fresh _ _ _ => exact .inr ⟨_, _, .subject (.inr rfl), rfl⟩
  | unwind => exact .inl (w.dropPopped_auth true)
  | observe key =>
    left
    unfold World.observe
    split <;> rfl
  | dropPooled => exact .inl (w.dropPopped_auth false)
  | complete v ha => exact .inr ⟨_, _, .completes (ha ▸ .subject), rfl⟩
  | retire ha hrest =>
    refine .inr ⟨_, _, .retired ha, ?_⟩
    rw [h.retire_eq ha]
    split <;> rfl
  | releaseInner ha => exact .inr ⟨_, _, .releasing (.inl ha), rfl⟩
  | releaseSubject ha => exact .inr ⟨_, _, .gone ha, rfl⟩
  | pair => exact .inr ⟨_, _, .publisher, rfl⟩
  | publish v ha => exact .inr ⟨_, _, .completes (ha ▸ .publisher), rfl⟩
  | published ha hrest => exact .inr ⟨_, _, .releasing (.inr (.inr ha)), rfl⟩
  | dropPublisher ha => exact .inr ⟨_, _, .releasing (.inr (.inl ha)), rfl⟩
  | intoOutcome ho hb =>
    left
    unfold World.intoOutcome
    split <;> rfl
  | _ => exact .inl rfl

/-- A generation gets a slot, pooled or fresh, when it is made, and keeps it. -/
theorem Inv.auth_slot (h : w.Inv) (hs : Step w w') {g : Gen} {j : SlotId}
    (hg : (w'.auth g).slot? = some j) :
    (w.auth g).slot? = some j ∨ (g = w.nextGen ∧ (j ∈ w.pool ∨ j = w.nextSlot)) := by
  rcases h.auth_step hs with hsame | ⟨g₀, a, hm, hset⟩
  · rw [hsame] at hg
    exact .inl hg
  · rw [hset] at hg
    by_cases hgg : g = g₀
    · subst hgg
      rw [Function.update_self] at hg
      cases hm with
      | subject hi =>
        cases hg
        exact .inr ⟨rfl, hi⟩
      | publisher =>
        cases hg
        exact .inr ⟨rfl, .inr rfl⟩
      | completes hc => exact .inl (hc.slot ▸ hg)
      | retired ha =>
        rw [ha]
        exact .inl hg
      | releasing ha =>
        rcases ha with ha | ha | ha <;> rw [ha] <;> exact .inl hg
      | gone _ => cases hg
    · rw [Function.update_of_ne hgg] at hg
      exact .inl hg

theorem Inv.safe_of_held (h : w.Inv) {i : SlotId} (hi : w.arcs.Held i) :
    (w.slots i).Safe w.env :=
  hi.elim fun x hx => h.safe x i hx

theorem Inv.next_le (h : w.Inv) (hs : Step w w') :
    w.nextGen ≤ w'.nextGen ∧ w.nextSlot ≤ w'.nextSlot := by
  have hpop (v : World K O W bits) (l : Bool) : v.nextGen ≤ (v.dropPopped l).nextGen ∧
      v.nextSlot ≤ (v.dropPopped l).nextSlot :=
    ⟨(v.dropPopped_nextGen l).ge, (v.dropPopped_nextSlot l).ge⟩
  cases hs with
  | subject key =>
    have hcases := w.subject_cases key
    generalize w.subject key = r at hcases ⊢
    cases hcases with
    | conflict _ => exact ⟨le_rfl, le_rfl⟩
    | exhausted _ _ => exact hpop w.drawNumber true
    | recycled _ _ _ => exact ⟨Nat.le_succ _, le_rfl⟩
    | fresh _ _ _ => exact ⟨Nat.le_succ _, Nat.le_succ _⟩
  | unwind => exact hpop w true
  | observe key =>
    unfold World.observe
    split <;> exact ⟨le_rfl, le_rfl⟩
  | dropPooled => exact hpop w false
  | retire ha hrest =>
    rw [h.retire_eq ha]
    split <;> exact ⟨le_rfl, le_rfl⟩
  | pair => exact ⟨Nat.le_succ _, Nat.le_succ _⟩
  | intoOutcome ho hb =>
    unfold World.intoOutcome
    split <;> exact ⟨le_rfl, le_rfl⟩
  | _ => exact ⟨le_rfl, le_rfl⟩

/-! ## The invariant -/

/-- What is left of every slot, and of every published value, whoever holds it. -/
structure History (w : World K O W bits) : Prop where
  past : ∀ i, (w.slots i).Past
  /-- A slot that nobody holds has no memory. -/
  freed : ∀ i, ¬ w.arcs.Held i → (w.slots i).slot = .new
  unmade : ∀ i, w.nextSlot ≤ i → w.slots i = .blank
  /-- A generation publishes in its own slot only. -/
  home : ∀ i g, (w.slots i).published g ≠ none → ∀ j, (w.auth g).slot? = some j → j = i
  single : ∀ i j g, (w.slots i).published g ≠ none → (w.slots j).published g ≠ none → i = j

/-- What a step of the program publishes. -/
theorem Inv.published_of (h : w.Inv) (hh : w.History) (hs : Step w w') (i : SlotId) :
    (w'.slots i).published = (w.slots i).published ∨
      ((w.auth (w.slots i).gen).slot? = some i ∧ (w.slots i).published (w.slots i).gen = none ∧
        ∃ v, (w'.slots i).published =
          Function.update (w.slots i).published (w.slots i).gen (some v)) := by
  cases h.touch hs i with
  | same hs henv hheld => exact .inl (by rw [hs])
  | moved hx hy hm =>
    refine (hm.published_of (h.safe_of_held hx)).imp_right fun ⟨hrest, hpub⟩ => ⟨?_, hpub⟩
    rcases h.borrowed.comp i hrest with ha | ⟨k, n, ha⟩ <;> rw [ha] <;> rfl
  | made hi hy hs =>
    rw [hs, hh.unmade i hi.ge]
    exact .inl rfl
  | dropped hx hnone hs =>
    rcases hs with hs | ⟨-, hs⟩ <;> rw [hs] <;> exact .inl rfl

/-- A published value stays published. -/
theorem Inv.published_mono (h : w.Inv) (hh : w.History) (hs : Step w w') {i : SlotId} {g : Gen}
    {v : O} (hv : (w.slots i).published g = some v) : (w'.slots i).published g = some v := by
  rcases h.published_of hh hs i with hpub | ⟨-, hnone, v', hpub⟩
  · rw [hpub, hv]
  · have hne : g ≠ (w.slots i).gen := by
      rintro rfl
      rw [hnone] at hv
      cases hv
    rw [hpub, Function.update_of_ne hne, hv]

/-- Every step keeps the history. -/
theorem History.step (hh : w.History) (h : w.Inv) (hs : Step w w') : w'.History := by
  have h' := h.step hs
  have hle := (h.next_le hs).2
  have hnew (i : SlotId) (g : Gen) (hpub : (w'.slots i).published g ≠ none) :
      (w.slots i).published g ≠ none ∨ (w.auth g).slot? = some i := by
    rcases h.published_of hh hs i with hold | ⟨ha, -, v, hnew⟩
    · exact .inl (by rwa [hold] at hpub)
    · by_cases hg : g = (w.slots i).gen
      · rw [hg]
        exact .inr ha
      · rw [hnew, Function.update_of_ne hg] at hpub
        exact .inl hpub
  have hlt (i : SlotId) (g : Gen) (hpub : (w.slots i).published g ≠ none) : g < w.nextGen :=
    lt_of_le_of_lt ((hh.past i).past g hpub) (h.unused.gen i)
  refine ⟨?past, ?freed, ?unmade, ?home, ?single⟩
  case past =>
    intro i
    cases h.touch hs i with
    | same hs henv hheld =>
      rw [hs]
      exact hh.past i
    | moved hx hy hm => exact (hh.past i).move (h.safe_of_held hx) hm
    | made hi hy hs =>
      rw [hs]
      exact .fresh _
    | dropped hx hnone hs =>
      rcases hs with hs | ⟨hc, hs⟩
      · rw [hs]
        exact (hh.past i).finalDrop
      · -- the take has moved the value out, so the final drop destroys nothing
        rw [hs]
        refine ((hh.past i).takeOutcome ?_).finalDrop
        have hw := (h.safe_of_held hx).wf.published
        rw [hw.outcomeValid, ← hw.completed, hc]
  case freed =>
    intro i hfree
    cases h.touch hs i with
    | same hs henv hheld =>
      rw [hs]
      exact hh.freed i (hheld.not.mp hfree)
    | moved hx hy hm => exact absurd hy hfree
    | made hi hy hs => exact absurd hy hfree
    | dropped hx hnone hs => rcases hs with hs | ⟨-, hs⟩ <;> rw [hs] <;> rfl
  case unmade =>
    intro i hi
    cases h.touch hs i with
    | same hs henv hheld =>
      rw [hs]
      exact hh.unmade i (hle.trans hi)
    | moved hx hy hm => exact hx.elim fun x hx => absurd hx (h.unused.slot i (hle.trans hi) x)
    | made hi' hy hs => exact hy.elim fun y hy => absurd hy (h'.unused.slot i hi y)
    | dropped hx hnone hs =>
      exact hx.elim fun x hx => absurd hx (h.unused.slot i (hle.trans hi) x)
  case home =>
    intro i g hpub j hj
    rcases h.auth_slot hs hj with hold | ⟨rfl, -⟩
    · rcases hnew i g hpub with hpub | ha
      · exact hh.home i g hpub j hold
      · rw [ha] at hold
        exact (Option.some.inj hold).symm
    · -- a generation that is only now made has published nothing
      exfalso
      rcases hnew i _ hpub with hpub | ha
      · exact absurd (hlt i _ hpub) (Nat.lt_irrefl _)
      · rw [h.unused.auth _ le_rfl] at ha
        cases ha
  case single =>
    intro i j g hi hj
    rcases hnew i g hi with hi | hi <;> rcases hnew j g hj with hj | hj
    · exact hh.single i j g hi hj
    · exact (hh.home i g hi j hj).symm
    · exact hh.home j g hj i hi
    · rw [hi] at hj
      exact Option.some.inj hj

omit [WillWake W] in
theorem History.new (e : Env) : (World.new e : World K O W bits).History :=
  ⟨fun _ => .blank, fun _ _ => rfl, fun _ _ => rfl, fun _ _ h => absurd rfl h,
    fun _ _ _ h => absurd rfl h⟩

/-! ## Refinement -/

def Refines (w : World K O W bits) : Prop :=
  ∀ i, w.arcs.Held i → (slotSystem O W).Reachable (w.env, w.slots i)

/-- Every step keeps the slots in states that the slot system reaches. -/
theorem Refines.step (hr : w.Refines) (h : w.Inv) (hs : Step w w') : w'.Refines := by
  intro i hi
  cases h.touch hs i with
  | same hslot henv hheld =>
    rw [hslot]
    have hold := hr i (hheld.mp hi)
    rcases henv with henv | henv
    · rwa [henv]
    · exact hold.step henv
  | moved hx hy hm => exact (hr i hx).step hm
  | made _ hy hs =>
    rw [hs]
    exact .init ⟨_, rfl⟩
  | dropped hx hnone hs => exact absurd hi hnone

/-! ## Runs -/

structure Sound (w : World K O W bits) : Prop where
  inv : w.Inv
  history : w.History
  refines : w.Refines

/-- Every step of the program keeps its invariant. -/
theorem Sound.step (h : w.Sound) (hs : Step w w') : w'.Sound :=
  ⟨h.inv.step hs, h.history.step h.inv hs, h.refines.step h.inv hs⟩

theorem Sound.new (e : Env) : (World.new e : World K O W bits).Sound :=
  ⟨.new e, .new e, fun _ ⟨_, hx⟩ => by cases hx⟩

end World

/-- Every reachable state of the program is sound. -/
theorem worldSystem_sound (h : (worldSystem K O W bits).Reachable w) : w.Sound := by
  have hind : (worldSystem K O W bits).Inductive World.Sound :=
    ⟨fun w ⟨e, hw⟩ => hw ▸ World.Sound.new e, fun _ _ => World.Sound.step⟩
  exact hind.reachable h

/-- What is published stays published, over every run. -/
theorem World.published_run {w w' : World K O W bits} (h : (worldSystem K O W bits).Reachable w)
    (hrun : Relation.ReflTransGen World.Step w w') {i : SlotId} {g : Gen} {v : O}
    (hv : (w.slots i).published g = some v) : (w'.slots i).published g = some v := by
  induction hrun with
  | refl => exact hv
  | tail hrun hs ih =>
    obtain ⟨hi, hh, -⟩ := worldSystem_sound (h.trans hrun)
    exact hi.published_mono hh hs ih

/-- **Refinement.** In every reachable state of the program, every slot in use is in a reachable
state of the slot system: what holds over all interleavings on one slot holds of every slot. -/
theorem worldSystem_refines (h : (worldSystem K O W bits).Reachable w) {i : SlotId}
    (hi : w.arcs.Held i) : (slotSystem O W).Reachable (w.env, w.slots i) :=
  (worldSystem_sound h).refines i hi

end Observe
