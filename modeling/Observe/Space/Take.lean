import Observe.Space.Lifetime

/-!
# Taking an outcome by value

`into_outcome` moves the value out when its handle is the only one of the slot.  Whose handles those
can be decides whether the last observation of a generation gets its outcome.
-/

namespace Observe

variable {K O W : Type} [Key K] {bits : Nat} [WillWake W] {w w' : World K O W bits}

namespace World

omit [WillWake W] in
structure SoleObserver (w : World K O W bits) (o : ObsId) (g : Gen) : Prop where
  obs : ∀ o' i, (w.obs o').at? = some (i, g) → o' = o
  fut : ∀ f i, (w.futs f).at? ≠ some (i, g)

/-- A published value sits in the cell of the slot that its generation still has. -/
theorem Inv.cell_of_published (h : w.Inv) {x : Owner} {i : SlotId} {g : Gen}
    (hp : w.pin x = some (i, g)) {v : O} (hv : (w.slots i).published g = some v) :
    (w.slots i).slot.state.completed = true ∧ (w.slots i).slot.outcome = some (g, v) := by
  have hs := h.safe_of_pin hp
  have hgen := h.pinned _ _ _ hp
  subst hgen
  have hc : (w.slots i).slot.state.completed = true := by
    by_contra hc
    rw [hs.wf.published.pending (by simpa using hc)] at hv
    cases hv
  obtain ⟨v', hcell, hpub⟩ := hs.wf.published.live hc
  rw [hv] at hpub
  cases hpub
  exact ⟨hc, hcell⟩

/-- What `into_outcome` of an observation of a completed generation returns. -/
theorem Inv.intoOutcome_eq_some (h : w.Inv) {o : ObsId} {i : SlotId} {g : Gen} {v : O}
    (ho : w.obs o = .live i g) (hv : (w.slots i).published g = some v) :
    (w.intoOutcome o i g).2 = some v ↔ ∀ y, w.arcs.of y = some i → y = .obs o := by
  have hx : w.arcs.of (.obs o) = some i := by
    rw [h.held]
    simp [handle, ho, ObsState.at?]
  obtain ⟨hc, hcell⟩ := h.cell_of_published (pin_obs ho) hv
  rw [← Lib.Handles.count_eq_one_iff _ hx]
  unfold World.intoOutcome
  split
  · rename_i hone
    simp [hone, unwrapped, hc, hcell]
  · rename_i hmany
    simp [hmany]

/-- Whose handle, other than that of the only observation `o`, can be on the slot of `o`. -/
theorem Inv.other_holder (h : w.Inv) {o : ObsId} {i : SlotId} {g : Gen} (ho : w.obs o = .live i g)
    (hsole : w.SoleObserver o g) {y : Owner} (hy : w.arcs.of y = some i) (hne : y ≠ .obs o) :
    (∃ g', y = .table g' ∧ (w.auth g').table? = some i ∧ g' = g) ∨
      ∃ g', y = .subject g' ∧ (w.auth g').slot? = some i ∧
        (g' = g ∨ w.auth g' = .retired i ∨ w.auth g' = .releasing i) := by
  have hgen := h.pinned _ _ _ (pin_obs ho)
  have hpin {x : Owner} {g' : Gen} (hp : w.pin x = some (i, g')) : g' = g := by
    rw [← h.pinned _ _ _ hp, hgen]
  rw [h.held] at hy
  cases y with
  | table g' =>
    have ht : (w.auth g').table? = some i := hy
    refine .inl ⟨g', rfl, ht, hpin (x := .subject g') ?_⟩
    cases ha : w.auth g' <;> rw [ha] at ht <;> cases ht
    simp [pin, ha, Authority.current?]
  | pool j =>
    exfalso
    simp only [handle] at hy
    split at hy
    · rename_i hmem
      cases hy
      exact h.pooled.free _ hmem _ _ (pin_obs ho)
    · cases hy
  | subject g' =>
    have hs : (w.auth g').slot? = some i := hy
    refine .inr ⟨g', rfl, hs, ?_⟩
    cases ha : w.auth g' with
    | retired j =>
      rw [ha] at hs
      cases hs
      exact .inr (.inl rfl)
    | releasing j =>
      rw [ha] at hs
      cases hs
      exact .inr (.inr rfl)
    | absent | gone => rw [ha] at hs; cases hs
    | _ =>
      refine .inl (hpin (x := .subject g') ?_)
      rw [ha] at hs
      cases hs
      simp [pin, ha, Authority.current?]
  | obs o' =>
    exfalso
    obtain ⟨⟨j, g'⟩, hat, hj⟩ := Option.map_eq_some_iff.mp hy
    cases hj
    have hgg : g' = g := hpin (x := .obs o') hat
    exact hne (by rw [hsole.obs o' _ (hgg ▸ hat)])
  | fut f =>
    exfalso
    obtain ⟨⟨j, g'⟩, hat, hj⟩ := Option.map_eq_some_iff.mp hy
    cases hj
    have hgg : g' = g := hpin (x := .fut f) hat
    exact hsole.fut f _ (hgg ▸ hat)

end World

/-! ## The last observation of a retired generation -/

/-- **When the last observation gets the outcome.** Generation `g` has completed with `v`, its
`Subject` is gone and `o` is the only observation or future of it.  Then `into_outcome` returns the
value exactly when no `Subject` of another generation is still to drop its handle of the slot: one
that was retired before, and whose slot went through the pool to `g` in the meantime. -/
theorem intoOutcome_of_last_observation (h : (worldSystem K O W bits).Reachable w) {o : ObsId}
    {i : SlotId} {g : Gen} {v : O} (ho : w.obs o = .live i g) (hsole : w.SoleObserver o g)
    (hv : (w.slots i).published g = some v) (hgone : w.auth g = .gone) :
    (w.intoOutcome o i g).2 = some v ↔
      ∀ g', w.auth g' ≠ .retired i ∧ w.auth g' ≠ .releasing i := by
  obtain ⟨hi, -, -⟩ := worldSystem_sound h
  rw [hi.intoOutcome_eq_some ho hv]
  constructor
  · intro hall g'
    have hother (hs : (w.auth g').slot? = some i) : False := by
      have hx : w.arcs.of (.subject g') = some i := by
        rw [hi.held]
        exact hs
      cases hall _ hx
    exact ⟨fun ha => hother (by rw [ha]; rfl), fun ha => hother (by rw [ha]; rfl)⟩
  · intro hnone y hy
    by_contra hne
    rcases hi.other_holder ho hsole hy hne with ⟨g', -, ht, rfl⟩ | ⟨g', -, hs, rfl | ha | ha⟩
    · rw [hgone] at ht
      cases ht
    · rw [hgone] at hs
      cases hs
    · exact (hnone g').1 ha
    · exact (hnone g').2 ha

/-- A run in which the last observation gets its outcome. -/
theorem last_observation_answered : ∃ w : World Nat Nat Nat 64,
    (worldSystem Nat Nat Nat 64).Reachable w ∧ w.obs 0 = .live 0 1 ∧ w.auth 1 = .gone ∧
      (w.intoOutcome 0 0 1).2 = some 42 := by
  have h₀ : (worldSystem Nat Nat Nat 64).Reachable _ := .init ⟨⟨fun _ => false, 0⟩, rfl⟩
  have h₁ := h₀.step (.subject 7 (by decide))
  have h₂ := h₁.step (.observe 7 (by decide))
  have h₃ := h₂.step (.complete (g := 1) 42 rfl)
  have h₄ := h₃.step (.callStep 0 (.complete (.write rfl)))
  have h₅ := h₄.step (.callStep 0 (.complete (.publish_alone rfl rfl)))
  have h₆ := h₅.step (.retire (g := 1) rfl rfl)
  have h₇ := h₆.step (.releaseInner (g := 1) rfl)
  have h₈ := h₇.step (.releaseSubject (g := 1) rfl)
  refine ⟨_, h₈, rfl, rfl, (intoOutcome_of_last_observation h₈ rfl ⟨fun o i ho => ?_, ?_⟩ rfl
    rfl).mpr fun g => ?_⟩
  · cases o with
    | zero => rfl
    | succ n => cases ho
  · intro f i hf
    cases hf
  · rcases g with _ | _ | g <;> exact ⟨nofun, nofun⟩

/-- Generation 1 is retired and its slot pooled, but its `Subject` has still to drop the slot's
handle; generation 2 takes the slot out of the pool, completes and is retired: the last observation
of generation 2 finds the slot shared. -/
theorem last_observation_refused : ¬ ∀ (w : World Nat Nat Nat 64) (o : ObsId) (i : SlotId) (g : Gen)
    (v : Nat), (worldSystem Nat Nat Nat 64).Reachable w → w.obs o = .live i g →
    w.SoleObserver o g → (w.slots i).published g = some v → w.auth g = .gone →
    (w.intoOutcome o i g).2 = some v := by
  intro hclaim
  have h₀ : (worldSystem Nat Nat Nat 64).Reachable _ := .init ⟨⟨fun _ => false, 0⟩, rfl⟩
  have h₁ := h₀.step (.subject 7 (by decide))
  have h₂ := h₁.step (.retire (g := 1) rfl rfl)
  have h₃ := h₂.step (.subject 7 (by decide))
  have h₄ := h₃.step (.observe 7 (by decide))
  have h₅ := h₄.step (.complete (g := 2) 42 rfl)
  have h₆ := h₅.step (.callStep 0 (.complete (.write rfl)))
  have h₇ := h₆.step (.callStep 0 (.complete (.publish_alone rfl rfl)))
  have h₈ := h₇.step (.retire (g := 2) rfl rfl)
  have h₉ := h₈.step (.releaseInner (g := 2) rfl)
  have h₁₀ := h₉.step (.releaseSubject (g := 2) rfl)
  have hanswer := hclaim _ 0 0 2 42 h₁₀ rfl ⟨fun o i ho => ?_, ?_⟩ rfl rfl
  · cases hanswer
  · cases o with
    | zero => rfl
    | succ n => cases ho
  · intro f i hf
    cases hf

/-! ## The only observation of a pair -/

namespace World

/-- Slot `i` was made for the pair `g`, and serves nobody else. -/
structure PairSlot (w : World K O W bits) (g : Gen) (i : SlotId) : Prop where
  auth : w.auth g = .publisher i ∨ w.auth g = .publishing i ∨ w.auth g = .releasing i ∨
    w.auth g = .gone
  alone : ∀ g', (w.auth g').slot? = some i → g' = g
  unpooled : i ∉ w.pool
  gen : g < w.nextGen
  slot : i < w.nextSlot

/-- The slot of a new pair is the pair's. -/
theorem Inv.pairSlot (h : w.Inv) : w.pair.PairSlot w.nextGen w.nextSlot := by
  refine ⟨.inl (by simp [World.pair, World.newObs, World.claim, World.newSlot]), fun g' hg' => ?_,
    fun hmem => ?_, Nat.lt_succ_self _, Nat.lt_succ_self _⟩
  · by_contra hne
    have hold : (w.auth g').slot? = some w.nextSlot := by
      simpa [World.pair, World.newObs, World.claim, World.newSlot, hne] using hg'
    exact h.unused.slot _ le_rfl (.subject g') (by rw [h.held]; exact hold)
  · exact h.unused.slot _ le_rfl (.pool w.nextSlot) (by rw [h.held]; exact if_pos hmem)

/-- Only a `Subject` that is dropped puts its slot into the pool. -/
theorem Inv.pool_of_step (h : w.Inv) (hs : Step w w') {i : SlotId} (hi : i ∈ w'.pool) :
    i ∈ w.pool ∨ ∃ g k n c, w.auth g = .subject k n i c ∧ w' = w.retire g k n i := by
  cases hs with
  | subject key =>
    have hcases := w.subject_cases key
    generalize w.subject key = r at hcases hi
    cases hcases with
    | conflict _ => exact .inl hi
    | exhausted _ _ => exact .inl (w.drawNumber.dropPopped_pool true hi)
    | recycled _ _ hpool =>
      rw [hpool]
      exact .inl (List.mem_cons_of_mem _ hi)
    | fresh _ _ _ => exact .inl hi
  | unwind => exact .inl (w.dropPopped_pool true hi)
  | observe key =>
    unfold World.observe at hi
    split at hi <;> exact .inl hi
  | dropPooled => exact .inl (w.dropPopped_pool false hi)
  | @retire g k n j c ha hrest =>
    have heq := h.retire_eq ha
    rw [heq] at hi
    split at hi
    · rcases List.mem_cons.mp hi with rfl | hi
      · exact .inr ⟨g, k, n, c, ha, rfl⟩
      · exact .inl hi
    · exact .inl hi
  | intoOutcome ho hb =>
    unfold World.intoOutcome at hi
    split at hi <;> exact .inl hi
  | _ => exact .inl hi

/-- The authority of a pair goes its own way: it publishes, or is dropped, and releases its slot. -/
theorem Inv.pairAuth_step (h : w.Inv) (hs : Step w w') {g : Gen} {i : SlotId} (hg : g < w.nextGen)
    (ha : w.auth g = .publisher i ∨ w.auth g = .publishing i ∨ w.auth g = .releasing i ∨
      w.auth g = .gone) :
    w'.auth g = .publisher i ∨ w'.auth g = .publishing i ∨ w'.auth g = .releasing i ∨
      w'.auth g = .gone := by
  rcases h.auth_step hs with hsame | ⟨g₀, a, hm, hset⟩
  · rwa [hsame]
  · rw [hset]
    by_cases hgg : g = g₀
    · subst hgg
      rw [Function.update_self]
      cases hm with
      | subject hi => exact absurd hg (Nat.lt_irrefl _)
      | publisher => exact absurd hg (Nat.lt_irrefl _)
      | completes hc =>
        rcases ha with ha | ha | ha | ha <;> rw [ha] at hc <;> cases hc
        exact .inr (.inl rfl)
      | retired hsub =>
        rw [hsub] at ha
        rcases ha with ha | ha | ha | ha <;> cases ha
      | releasing hold =>
        -- a subject never gets to where a publisher may be
        rcases ha with ha | ha | ha | ha <;> rw [ha] at hold <;>
          rcases hold with hold | hold | hold <;> cases hold
        · exact .inr (.inr (.inl rfl))
        · exact .inr (.inr (.inl rfl))
      | gone _ => exact .inr (.inr (.inr rfl))
    · rwa [Function.update_of_ne hgg]

/-- The slot of a pair serves nobody else. -/
theorem PairSlot.step {g : Gen} {i : SlotId} (hp : w.PairSlot g i) (h : w.Inv) (hs : Step w w') :
    w'.PairSlot g i := by
  obtain ⟨hgen, hslot⟩ := h.next_le hs
  refine ⟨h.pairAuth_step hs hp.gen hp.auth, fun g' hg' => ?_, fun hmem => ?_,
    hp.gen.trans_le hgen, hp.slot.trans_le hslot⟩
  · rcases h.auth_slot hs hg' with hold | ⟨-, hmem | hnew⟩
    · exact hp.alone g' hold
    · exact absurd hmem hp.unpooled
    · exact absurd hnew hp.slot.ne
  · rcases h.pool_of_step hs hmem with hold | ⟨g', k, n, c, ha, -⟩
    · exact hp.unpooled hold
    · have hgg := hp.alone g' (by rw [ha]; rfl)
      rw [hgg] at ha
      rcases hp.auth with hp' | hp' | hp' | hp' <;> rw [hp'] at ha <;> cases ha

/-- The slot of a pair stays the pair's, over every run. -/
theorem PairSlot.run {g : Gen} {i : SlotId} (h : (worldSystem K O W bits).Reachable w)
    (hp : w.PairSlot g i) (hrun : Relation.ReflTransGen Step w w') : w'.PairSlot g i := by
  induction hrun with
  | refl => exact hp
  | @tail b c hrun hs ih => exact ih.step (worldSystem_sound (h.trans hrun)).inv hs

/-- A call of `register_waker` on the observation `o` has returned, as `w` shows: `true`, or `false`,
and by `w'` the completion has woken its waker. -/
def Told (w w' : World K O W bits) (i : SlotId) (o : ObsId) (g : Gen) : Prop :=
  ∃ t wk, (w.slots i).via t = ⟨o, g⟩ ∧
    ((w.slots i).thr t = .returned (.registered wk true) ∨
      ((w.slots i).thr t = .returned (.registered wk false) ∧ (w'.slots i).Woken g wk))

/-- Whoever has been told finds the generation published. -/
theorem published_of_told (h : (worldSystem K O W bits).Reachable w)
    (hrun : Relation.ReflTransGen Step w w') {i : SlotId} {o : ObsId} {g : Gen}
    (ht : w.Told w' i o g) : ∃ v, (w'.slots i).published g = some v := by
  obtain ⟨t, wk, hvia, hret | ⟨-, x, hx, -⟩⟩ := ht
  · -- what the call has seen is published for good
    obtain ⟨-, hh, -⟩ := worldSystem_sound h
    have hpub := (hh.past i).thr t _ (.inl hret)
    rw [hvia] at hpub
    obtain ⟨v, hv⟩ := Option.ne_none_iff_exists'.mp hpub
    exact ⟨v, published_run h hrun hv⟩
  · obtain ⟨-, hh, -⟩ := worldSystem_sound (h.trans hrun)
    exact Option.ne_none_iff_exists'.mp ((hh.past i).notified (g, x) hx).2

end World

/-- **When a notified observation gets the outcome of its pair.** A pair is made, at some time of the
run a call of `register_waker` on `o` has returned, and at its end `o` is the only observation and has
been told of the completion; what its threads have called in between is open.  Then `into_outcome`
returns the published value exactly when the publisher has dropped its own handle of the slot. -/
theorem intoOutcome_of_told {w₀ u : World K O W bits}
    (h₀ : (worldSystem K O W bits).Reachable w₀)
    (hbefore : Relation.ReflTransGen World.Step w₀.pair u)
    (hafter : Relation.ReflTransGen World.Step u w) {o : ObsId}
    (ho : w.obs o = .live w₀.nextSlot w₀.nextGen) (hsole : w.SoleObserver o w₀.nextGen)
    (htold : u.Told w w₀.nextSlot o w₀.nextGen) :
    ∃ v, (w.slots w₀.nextSlot).published w₀.nextGen = some v ∧
      ((w.intoOutcome o w₀.nextSlot w₀.nextGen).2 = some v ↔ w.auth w₀.nextGen = .gone) := by
  have h₁ : (worldSystem K O W bits).Reachable w₀.pair := h₀.step .pair
  have hrun := hbefore.trans hafter
  have hpair := (worldSystem_sound h₀).inv.pairSlot.run h₁ hrun
  obtain ⟨hi, hh, -⟩ := worldSystem_sound (h₁.trans hrun)
  obtain ⟨v, hv⟩ := World.published_of_told (h₁.trans hbefore) hafter htold
  refine ⟨v, hv, ?_⟩
  rw [hi.intoOutcome_eq_some ho hv]
  constructor
  · intro hall
    by_contra hgone
    have hs : (w.auth w₀.nextGen).slot? = some w₀.nextSlot := by
      rcases hpair.auth with ha | ha | ha | ha
      · rw [ha]; rfl
      · rw [ha]; rfl
      · rw [ha]; rfl
      · exact absurd ha hgone
    have hx : w.arcs.of (.subject w₀.nextGen) = some w₀.nextSlot := by
      rw [hi.held]
      exact hs
    cases hall _ hx
  · intro hgone y hy
    by_contra hne
    rcases hi.other_holder ho hsole hy hne with ⟨g', -, ht, rfl⟩ | ⟨g', -, hs, -⟩
    · rw [hgone] at ht
      cases ht
    · rw [hpair.alone g' hs, hgone] at hs
      cases hs

/-- A run in which the observation of a pair is told of the completion after the publisher has
gone. -/
theorem told_observation_answered : ∃ w : World Nat Nat Nat 64,
    (worldSystem Nat Nat Nat 64).Reachable w ∧ w.obs 0 = .live 0 1 ∧
      ∃ v, (w.slots 0).published 1 = some v ∧ (w.intoOutcome 0 0 1).2 = some v := by
  have h₀ : (worldSystem Nat Nat Nat 64).Reachable _ := .init ⟨⟨fun _ => false, 0⟩, rfl⟩
  have h₁ := Relation.ReflTransGen.refl.tail
    (World.Step.publish (w := (World.new ⟨fun _ => false, 0⟩ : World Nat Nat Nat 64).pair) (g := 1)
      42 rfl)
  have h₂ := h₁.tail (.callStep 0 (.complete (.write rfl)))
  have h₃ := h₂.tail (.callStep 0 (.complete (.publish_alone rfl rfl)))
  have h₄ := h₃.tail (.published (g := 1) rfl rfl)
  have h₅ := h₄.tail (.releaseSubject (g := 1) rfl)
  have h₆ := h₅.tail (.call (o := 0) 0 (.registerWaker 5) rfl (by intro i; cases i <;> rfl))
  have h₇ := h₆.tail (.callStep 0 (.thread 0 (.check_register_done rfl rfl)))
  obtain ⟨v, hv, hiff⟩ := intoOutcome_of_told h₀ h₇ .refl (o := 0) rfl
    ⟨fun o i ho => (by cases o with | zero => rfl | succ n => cases ho), fun f i hf => (by cases hf)⟩
    ⟨0, 5, rfl, .inl rfl⟩
  exact ⟨_, (h₀.step .pair).trans h₇, rfl, v, hv, hiff.mpr rfl⟩

/-- The completion has woken the waker, but `Publisher::complete` has not dropped its own handle
yet: the only observation of the pair finds the slot shared. -/
theorem told_observation_refused : ¬ ∀ (w₀ u w : World Nat Nat Nat 64) (o : ObsId),
    (worldSystem Nat Nat Nat 64).Reachable w₀ → Relation.ReflTransGen World.Step w₀.pair u →
    Relation.ReflTransGen World.Step u w → w.obs o = .live w₀.nextSlot w₀.nextGen →
    w.SoleObserver o w₀.nextGen → u.Told w w₀.nextSlot o w₀.nextGen →
    ∃ v, (w.slots w₀.nextSlot).published w₀.nextGen = some v ∧
      (w.intoOutcome o w₀.nextSlot w₀.nextGen).2 = some v := by
  intro hclaim
  have h₀ : (worldSystem Nat Nat Nat 64).Reachable _ := .init ⟨⟨fun _ => false, 0⟩, rfl⟩
  have h₁ := Relation.ReflTransGen.refl.tail
    (World.Step.call (w := (World.new ⟨fun _ => false, 0⟩ : World Nat Nat Nat 64).pair) (o := 0) 0
      (.registerWaker 5) rfl (by intro i; cases i <;> rfl))
  have h₂ := h₁.tail (.callStep 0 (.thread 0 (.check_pending rfl rfl)))
  have h₃ := h₂.tail (.callStep 0 (.thread 0 (.setBit rfl)))
  have h₄ := h₃.tail (.callStep 0 (.thread 0 (.loadReg_null rfl rfl)))
  have h₅ := h₄.tail (.callStep 0 (.thread 0 (.casReg rfl)))
  have h₆ := h₅.tail (.callStep 0 (.thread 0 (.acquire_register rfl rfl)))
  have h₇ := h₆.tail (.callStep 0 (.thread 0 (.recheck_register_pending rfl rfl)))
  have h₈ := h₇.tail (.callStep 0 (.thread 0 (.store rfl)))
  have h₉ := h₈.tail (.callStep 0 (.thread 0 (.unlock_return rfl)))
  have h₁₀ := h₉.tail (.publish (g := 1) 42 rfl)
  have h₁₁ := h₁₀.tail (.callStep 0 (.complete (.write rfl)))
  have h₁₂ := h₁₁.tail (.callStep 0 (.complete (.publish_waiters rfl rfl)))
  have h₁₃ := h₁₂.tail (.callStep 0 (.complete (.loadReg_some rfl nofun)))
  have h₁₄ := h₁₃.tail (.callStep 0 (.complete (.acquire rfl rfl)))
  have h₁₅ := h₁₄.tail (.callStep 0 (.complete (.take rfl)))
  have h₁₆ := h₁₅.tail (.callStep 0 (.complete (.unlock rfl)))
  have h₁₇ := h₁₆.tail (.callStep 0 (.complete (.wake false rfl)))
  obtain ⟨v, -, hanswer⟩ := hclaim _ _ _ 0 h₀ h₁₇ .refl rfl
    ⟨fun o i ho => (by cases o with | zero => rfl | succ n => cases ho), fun f i hf => (by cases hf)⟩
    ⟨0, 5, rfl, .inr ⟨rfl, _, List.mem_cons_self, rfl⟩⟩
  cases hanswer

end Observe
