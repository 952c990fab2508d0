import Observe.Space.History

/-!
# Generations are isolated

What the invariant says about readers and waiters: a slot is recycled behind the last of its
observers, a read yields the outcome of the reader's own generation or none, and a completion
notifies waiters of its own generation only.
-/

namespace Observe

variable {K O W : Type} [Key K] {bits : Nat} [WillWake W] {w w' : World K O W bits}

namespace World

omit [WillWake W] in
def Observed (w : World K O W bits) (i : SlotId) : Prop :=
  (∃ o g, (w.obs o).at? = some (i, g)) ∨ ∃ f g, (w.futs f).at? = some (i, g)

omit [WillWake W] in
theorem Observed.pin {i : SlotId} (h : w.Observed i) : ∃ x g, w.pin x = some (i, g) := by
  rcases h with ⟨o, g, ho⟩ | ⟨f, g, hf⟩
  · exact ⟨.obs o, g, ho⟩
  · exact ⟨.fut f, g, hf⟩

/-- Nobody observes a pooled slot. -/
theorem Inv.not_observed_of_pooled (h : w.Inv) {i : SlotId} (hi : i ∈ w.pool) :
    ¬ w.Observed i := by
  intro ho
  obtain ⟨x, g, hp⟩ := ho.pin
  exact h.pooled.free i hi x g hp

/-- A slot changes its generation only when it is popped from the pool or new. -/
theorem Inv.gen_of_step (h : w.Inv) (hs : Step w w') {i : SlotId}
    (hne : (w'.slots i).gen ≠ (w.slots i).gen) : i ∈ w.pool ∨ i = w.nextSlot := by
  have hset {j : SlotId} {s' : SlotSys O W}
      (hne : (Function.update w.slots j s' i).gen ≠ (w.slots i).gen)
      (hg : s'.gen = (w.slots j).gen) : i ∈ w.pool ∨ i = w.nextSlot := by
    exfalso
    by_cases hij : i = j
    · subst hij
      rw [Function.update_self] at hne
      exact hne hg
    · rw [Function.update_of_ne hij] at hne
      exact hne rfl
  have hdrop {w₁ : World K O W bits} {x : Owner} {l : Bool}
      (hne : ((w₁.release x l).slots i).gen ≠ (w.slots i).gen) (hs : w₁.slots = w.slots) :
      i ∈ w.pool ∨ i = w.nextSlot := by
    exfalso
    rw [(release_quieter w₁ x l i).gen, hs] at hne
    exact hne rfl
  have hpop {v : World K O W bits} (hs : v.slots = w.slots) (l : Bool)
      (hne : ((v.dropPopped l).slots i).gen ≠ (w.slots i).gen) :
      i ∈ w.pool ∨ i = w.nextSlot := by
    unfold World.dropPopped at hne
    split at hne
    · exact absurd (by rw [hs]) hne
    · rename_i j rest hp
      exact hdrop hne hs
  have hfresh {s' : SlotSys O W}
      (hne : (Function.update w.slots w.nextSlot s' i).gen ≠ (w.slots i).gen) :
      i ∈ w.pool ∨ i = w.nextSlot := by
    by_cases hij : i = w.nextSlot
    · exact .inr hij
    · rw [Function.update_of_ne hij] at hne
      exact absurd rfl hne
  cases hs with
  | subject key =>
    have hcases := w.subject_cases key
    generalize w.subject key = r at hcases hne
    cases hcases with
    | conflict _ => exact absurd rfl hne
    | exhausted _ _ => exact hpop (v := w.drawNumber) rfl true hne
    | @recycled j rest _ _ hpool =>
      by_cases hij : i = j
      · rw [hij, hpool]
        exact .inl List.mem_cons_self
      · refine absurd ?_ hne
        show (Function.update w.slots j _ i).gen = _
        rw [Function.update_of_ne hij]
    | fresh _ _ _ => exact hfresh hne
  | unwind => exact hpop rfl true hne
  | observe key =>
    unfold World.observe at hne
    split at hne <;> exact absurd rfl hne
  | dropPooled => exact hpop rfl false hne
  | complete v ha => exact hset hne rfl
  | retire ha hrest =>
    refine absurd ?_ hne
    rw [h.retire_eq ha]
    split
    · show ((w.unlist _ _ _ _).slots i).gen = _
      rw [h.unlist_slots ha]
    · rw [h.unlist_slots ha]
  | releaseSubject ha => exact hdrop hne rfl
  | pair => exact hfresh hne
  | publish v ha => exact hset hne rfl
  | call t c ho hidle => exact hset hne rfl
  | callStep j hs => exact hset hne hs.quieter.gen
  | intoFuture ho hb => exact hset hne rfl
  | poll wk hf hrest => exact hset hne rfl
  | cancel hf hrest =>
    refine hset hne ?_
    unfold SlotSys.startCancel
    split <;> rfl
  | releaseFuture hf hdead => exact hdrop hne rfl
  | dropObs ho hb => exact hdrop hne rfl
  | @intoOutcome o j g ho hb =>
    unfold World.intoOutcome at hne
    split at hne
    · exact hset (j := j) hne (w.takenSlot_quieter j).gen
    · exact absurd rfl hne
  | dropRefused ho => exact hdrop hne rfl
  | _ => exact absurd rfl hne

/-! ## Reads -/

/-- A read by thread `t` through an observation of generation `g` has nothing to yield before `g` is
published, and from then on yields what `g` has published. -/
theorem Inv.tryGet (h : w.Inv) {i : SlotId} {t : Tid} {e' : Env} {s' : SlotSys O W}
    (hs : ThreadStep t w.env (w.slots i) e' s') (hpc : (w.slots i).thr t = .tryGet) :
    s'.thr t = if ((w.slots i).published ((w.slots i).via t).gen).isSome then .read
      else .returned .none := by
  have hact : ((w.slots i).thr t).active = true := by rw [hpc]; rfl
  have hsafe := h.safe_of_pin (h.pin_thr hact)
  rw [hsafe.tags.via t hact]
  cases hs with
  | tryGet_pending hpc' hc => simp [hsafe.wf.published.pending hc]
  | tryGet_done hpc' hc =>
    obtain ⟨v, -, hpub⟩ := hsafe.wf.published.live hc
    simp [hpub]
  | _ => simp_all

/-- A read returns what the reader's own generation has published. -/
theorem Inv.read (h : w.Inv) {i : SlotId} {t : Tid} {e' : Env} {s' : SlotSys O W}
    (hs : ThreadStep t w.env (w.slots i) e' s') (hpc : (w.slots i).thr t = .read) :
    ∃ v, (w.slots i).published ((w.slots i).via t).gen = some v ∧
      s'.thr t = .returned (.value v) := by
  have hact : ((w.slots i).thr t).active = true := by rw [hpc]; rfl
  have hsafe := h.safe_of_pin (h.pin_thr hact)
  have hseen := hsafe.wf.published.thr t (by rw [hpc]; rfl)
  obtain ⟨v, hcell, hpub⟩ := hsafe.wf.published.live hseen
  rw [hsafe.tags.via t hact]
  cases hs with
  | read hpc' hv =>
    rw [hcell] at hv
    cases hv
    exact ⟨v, hpub, by simp⟩
  | read_dead hpc' hv => rw [hcell] at hv; cases hv
  | _ => simp_all

/-! ## Isolation -/

structure Isolated (w : World K O W bits) : Prop where
  oneGeneration : ∀ g g' k k' n n' i i' c c', w.auth g = .subject k n i c →
    w.auth g' = .subject k' n' i' c' → (k == k') = true → g = g'
  poolLength : w.pool.length ≤ slotPoolCap
  poolNodup : w.pool.Nodup
  poolUntabled : ∀ i ∈ w.pool, ∀ k e, w.map.get k = some e → e.slot ≠ i
  poolUnobserved : ∀ i ∈ w.pool, ¬ w.Observed i
  /-- A slot that gets another generation has no observer left. -/
  reset : ∀ w', Step w w' → ∀ i, (w'.slots i).gen ≠ (w.slots i).gen → ¬ w.Observed i
  /-- A read starts with a look at the state word: before the publication it yields nothing, -/
  tryGet : ∀ i t e' s', ThreadStep t w.env (w.slots i) e' s' → (w.slots i).thr t = .tryGet →
    s'.thr t = if ((w.slots i).published ((w.slots i).via t).gen).isSome then .read
      else .returned .none
  /-- and after it the outcome of the reader's generation, -/
  read : ∀ i t e' s', ThreadStep t w.env (w.slots i) e' s' → (w.slots i).thr t = .read →
    ∃ v, (w.slots i).published ((w.slots i).via t).gen = some v ∧ s'.thr t = .returned (.value v)
  /-- which is the generation through which the observation was captured. -/
  captured : ∀ i t, ((w.slots i).thr t).active = true →
    w.obs ((w.slots i).via t).obs = .live i ((w.slots i).via t).gen
  value : ∀ i t v, (w.slots i).thr t = .returned (.value v) →
    (w.slots i).published ((w.slots i).via t).gen = some v
  /-- An outcome is published once and stays, whatever becomes of its key and its slot. -/
  stays : ∀ w', Step w w' → ∀ i g v, (w.slots i).published g = some v →
    (w'.slots i).published g = some v
  /-- A generation has one slot. -/
  single : ∀ i j g, (w.slots i).published g ≠ none → (w.slots j).published g ≠ none → i = j

end World

/-- **Generation isolation.** In every reachable state of the program. -/
theorem generation_isolation (h : (worldSystem K O W bits).Reachable w) : w.Isolated := by
  obtain ⟨hi, hh, -⟩ := worldSystem_sound h
  refine
    { oneGeneration := ?oneGeneration
      poolLength := hi.pooled.length
      poolNodup := hi.pooled.nodup
      poolUntabled := ?poolUntabled
      poolUnobserved := fun i => hi.not_observed_of_pooled
      reset := ?reset
      tryGet := fun i t e' s' => hi.tryGet
      read := fun i t e' s' => hi.read
      captured := hi.borrowed.thr
      value := fun i t v hret => (hh.past i).thr t _ (.inl hret)
      stays := fun w' hs i g v => hi.published_mono hh hs
      single := hh.single }
  case oneGeneration =>
    intro g g' k k' n n' i i' c c' ha ha' hk
    have hget := hi.mapped.entry g k n i c ha
    rw [w.map.get_congr hk, hi.mapped.entry g' k' n' i' c' ha'] at hget
    cases hget
    rfl
  case poolUntabled =>
    intro i hmem k e he hslot
    obtain ⟨k', c, -, ha⟩ := hi.mapped.find k e he
    exact hi.pooled.free i hmem (.subject e.gen) e.gen
      (by simp [World.pin, ha, Authority.current?, hslot])
  case reset =>
    intro w' hs i hne hobs
    rcases hi.gen_of_step hs hne with hpool | rfl
    · exact hi.not_observed_of_pooled hpool hobs
    · -- nobody can have observed a slot that is only now allocated
      obtain ⟨x, g, hp⟩ := hobs.pin
      exact hi.unused.slot _ le_rfl x (by rw [hi.held]; exact World.handle_of_pin hp)

/-- The key of generation 1 has a new generation, and the observation that is left of generation 1
reads its own outcome. -/
theorem retired_observation_reads_own : ∃ w : World Nat Nat Nat 64, w.Isolated ∧
    w.auth 1 = .gone ∧ w.auth 2 = .subject 7 2 1 false ∧ w.obs 0 = .live 0 1 ∧
      (w.slots 0).thr 0 = .returned (.value 42) ∧ (w.slots 0).published 1 = some 42 := by
  have h₀ : (worldSystem Nat Nat Nat 64).Reachable _ := .init ⟨⟨fun _ => false, 0⟩, rfl⟩
  have h₁ := h₀.step (.subject 7 (by decide))
  have h₂ := h₁.step (.observe 7 (by decide))
  have h₃ := h₂.step (.complete (g := 1) 42 rfl)
  have h₄ := h₃.step (.callStep 0 (.complete (.write rfl)))
  have h₅ := h₄.step (.callStep 0 (.complete (.publish_alone rfl rfl)))
  have h₆ := h₅.step (.retire (g := 1) rfl rfl)
  have h₇ := h₆.step (.releaseInner (g := 1) rfl)
  have h₈ := h₇.step (.releaseSubject (g := 1) rfl)
  have h₉ := h₈.step (.subject 7 (by decide))
  have h₁₀ := h₉.step (.call (o := 0) 0 .tryGet rfl (by intro i; rcases i with _ | _ | i <;> rfl))
  have h₁₁ := h₁₀.step (.callStep 0 (.thread 0 (.tryGet_done rfl rfl)))
  have h₁₂ := h₁₁.step (.callStep 0 (.thread 0 (.read (g := 1) (v := 42) rfl rfl)))
  have hiso := generation_isolation h₁₂
  exact ⟨_, hiso, rfl, rfl, rfl, rfl, hiso.value 0 0 42 rfl⟩

/-! ## Notifications -/

namespace World

structure Separate (w : World K O W bits) : Prop where
  announced : ∀ i, (w.slots i).slot.registry ≠ [] → (w.slots i).slot.state.hasWaiter = true
  drained : ∀ i, (w.slots i).comp.taken = true → (w.slots i).held = none →
    (w.slots i).slot.registry = []
  reset : ∀ i, (w.slots i).slot.reset.registry = [] ∧ (w.slots i).slot.reset.state = .zero
  /-- A completion notifies what an observation of its own generation has registered. -/
  own : ∀ i g x, (g, x) ∈ (w.slots i).notified →
    x.gen = g ∧ x.Stored (w.slots i).stored ∧ (w.slots i).published g ≠ none
  /-- A task whose wakers are all registered on generations that have not completed sleeps on. -/
  never : ∀ e, (∀ i g e', (g, e') ∈ (w.slots i).stored → willWake e' e = true →
    (w.slots i).published g = none) → ∀ i g x, (g, x) ∈ (w.slots i).notified → x.wakes e = false

end World

/-- **Notifications never cross generations.** In every reachable state of the program. -/
theorem notifications_separate (h : (worldSystem K O W bits).Reachable w) : w.Separate := by
  obtain ⟨hi, hh, -⟩ := worldSystem_sound h
  have hann (i : SlotId) (hne : (w.slots i).slot.registry ≠ []) :
      (w.slots i).slot.state.hasWaiter = true := by
    by_cases hheld : w.arcs.Held i
    · exact (hi.safe_of_held hheld).wf.announced.registry hne
    · rw [hh.freed i hheld] at hne
      exact absurd rfl hne
  refine ⟨hann, ?drained, fun i => ⟨Slot.reset_registry (hann i), rfl⟩, ?own, ?never⟩
  case drained =>
    intro i htk hfree
    by_cases hheld : w.arcs.Held i
    · exact (hi.safe_of_held hheld).wf.registry_nil htk hfree
    · rw [hh.freed i hheld]
      rfl
  case own =>
    intro i g x hx
    obtain ⟨hb, hpub⟩ := (hh.past i).notified (g, x) hx
    exact ⟨hb.gen, hb.stored, hpub⟩
  case never =>
    intro e hpending i g x hx
    obtain ⟨hb, hpub⟩ := (hh.past i).notified (g, x) hx
    cases x with
    | thread t g' => rfl
    | waker e' p n g' =>
      by_contra hwakes
      have hst : (g', e') ∈ (w.slots i).stored := hb.stored
      have hgen : g' = g := hb.gen
      rw [hgen] at hst
      exact hpub (hpending i g e' hst (by simpa [Waiter.wakes] using hwakes))

/-- Generation 1 is retired with the waker 5 registered and its slot recycled; the completion of
generation 2 in the same slot wakes nobody. -/
theorem stale_waker_sleeps : ∃ w : World Nat Nat Nat 64, w.Separate ∧
    (w.slots 0).stored = [(1, 5)] ∧ (w.slots 0).published 2 = some 42 ∧
      ∀ x, (2, x) ∈ (w.slots 0).notified → x.wakes 5 = false := by
  have h₀ : (worldSystem Nat Nat Nat 64).Reachable _ := .init ⟨⟨fun _ => false, 0⟩, rfl⟩
  have h₁ := h₀.step (.subject 7 (by decide))
  have h₂ := h₁.step (.observe 7 (by decide))
  have h₃ := h₂.step (.call (o := 0) 0 (.registerWaker 5) rfl (by intro i; cases i <;> rfl))
  have h₄ := h₃.step (.callStep 0 (.thread 0 (.check_pending rfl rfl)))
  have h₅ := h₄.step (.callStep 0 (.thread 0 (.setBit rfl)))
  have h₆ := h₅.step (.callStep 0 (.thread 0 (.loadReg_null rfl rfl)))
  have h₇ := h₆.step (.callStep 0 (.thread 0 (.casReg rfl)))
  have h₈ := h₇.step (.callStep 0 (.thread 0 (.acquire_register rfl rfl)))
  have h₉ := h₈.step (.callStep 0 (.thread 0 (.recheck_register_pending rfl rfl)))
  have h₁₀ := h₉.step (.callStep 0 (.thread 0 (.store rfl)))
  have h₁₁ := h₁₀.step (.callStep 0 (.thread 0 (.unlock_return rfl)))
  have h₁₂ := h₁₁.step (.dropObs (o := 0) rfl (by
    intro i t hact
    rcases i with _ | i <;> rcases t with _ | t <;> cases hact))
  have h₁₃ := h₁₂.step (.retire (g := 1) rfl rfl)
  have h₁₄ := h₁₃.step (.subject 7 (by decide))
  have h₁₅ := h₁₄.step (.complete (g := 2) 42 rfl)
  have h₁₆ := h₁₅.step (.callStep 0 (.complete (.write rfl)))
  have h₁₇ := h₁₆.step (.callStep 0 (.complete (.publish_alone rfl rfl)))
  have hsep := notifications_separate h₁₇
  exact ⟨_, hsep, rfl, rfl, fun x hx => hsep.never 5 (fun i g e' hst hw => by
    rcases i with _ | i <;> cases hst
    · rfl
    · contradiction) 0 2 x hx⟩

end Observe
