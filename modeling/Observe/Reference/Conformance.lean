import Observe.Reference.Operations

/-!
# The campaign never fails

A completion wakes every registered waker of its epoch once, and every observation reads it.  So any
sequence of operations is one that the reference model accepts.
-/

namespace Observe.Reference

namespace Campaign

namespace Follows

variable {c : Campaign} {l : Ledger UInt8 Nat} {gen : UInt8 → Nat → Gen}

/-! ## Completions -/

/-- A completed epoch is read by all its observations. -/
theorem assertTryGets (hf : c.Follows l gen) (hsmall : made l + 1 < 2 ^ 64) {value : Nat}
    {handles : List ObsHandle} (h : ∀ x ∈ handles, (∃ id, c.harness.observations id = some x) ∧
      l.outcome (gen x.key x.epoch) = some value) :
    ∃ c', handles.foldlM (assertTryGet value) c = .ok c' ∧ c'.Follows l gen := by
  induction handles generalizing c with
  | nil => exact ⟨c, rfl, hf⟩
  | cons x handles ih =>
    obtain ⟨⟨id, hx⟩, hout⟩ := h x List.mem_cons_self
    obtain ⟨hfollows, hresult⟩ := hf.tryGet_follows hsmall hx
    rw [hout] at hresult
    have hrest : ∀ y ∈ handles,
        (∃ id, (c.exec (.tryGet x.observation)).1.harness.observations id = some y) ∧
          l.outcome (gen y.key y.epoch) = some value :=
      fun y hy => h y (List.mem_cons_of_mem x hy)
    obtain ⟨c', hfold, hf'⟩ := ih hfollows hrest
    refine ⟨c', ?_, hf'⟩
    have hstep : assertTryGet value c x = .ok (c.exec (.tryGet x.observation)).1 := by
      unfold assertTryGet
      dsimp only
      rw [hresult, ensure_ok rfl]
      rfl
    rw [List.foldlM_cons, hstep]
    exact hfold

/-- The subject of a live epoch that is pending. -/
theorem subject_pending (hf : c.Follows l gen) {key : UInt8} {epoch : Nat}
    (hk : c.model.keys key = some (.live epoch none)) :
    ∃ n i, c.harness.space.auth (gen key epoch) = .subject key n i false := by
  obtain ⟨-, -, hkey, hout⟩ := hf.keyed.live key epoch none hk
  obtain ⟨n, i, b, ha⟩ := hf.models.key_eq_some hkey
  have hb := hf.models.completed _ _ _ _ _ ha
  rw [hout] at hb
  rw [hb] at ha
  exact ⟨n, i, ha⟩

/-- A completion wakes each waker of a future of the epoch once. -/
theorem future_woken (hf : c.Follows l gen) {key : UInt8} {epoch : Nat}
    (hk : c.model.keys key = some (.live epoch none)) {id : Nat} {x : FutureHandle}
    (hx : c.harness.futures id = some x) (hkey : x.key = key) (hepoch : x.epoch = epoch) {wk : Nat}
    (hwk : wk ∈ x.wakers) (v : Nat) :
    (c.harness.space.exec (.complete (gen key epoch) v)).1.wakeCount wk = 1 := by
  have he := hf.enrolled
  obtain ⟨n, i, ha⟩ := hf.subject_pending hk
  obtain ⟨hrec, -⟩ := hf.fut_record hx
  obtain ⟨j, hlive⟩ := hf.models.futs_eq_some hrec
  rw [hkey, hepoch] at hlive
  have hsub : c.harness.space.pin (.subject (gen key epoch)) = some (i, gen key epoch) := by
    simp [World.pin, ha, Authority.current?]
  -- the future waits on the slot that the subject completes
  have hj : j = i := hf.models.oneSlot _ _ j i _ (World.pin_fut hlive) hsub
  subst hj
  refine hf.quiet.wakeCount_complete hf.sound ha (.inr ⟨x.future, hlive, ?_⟩) (fun g a hst hwa => ?_) v
  · rw [he.recorded id x hx]
    exact hwk
  · have hown := he.owned id x hx wk hwk
    rw [hkey, hepoch] at hown
    rw [willWake_iff.mp hwa] at hst
    exact he.single g _ wk hst hown

/-- A completion wakes each direct registration of the epoch once. -/
theorem registration_woken (hf : c.Follows l gen) {r : UInt8 × Nat × Nat}
    (hr : r ∈ c.registrations) (hk : c.model.keys r.1 = some (.live r.2.1 none)) (v : Nat) :
    (c.harness.space.exec (.complete (gen r.1 r.2.1) v)).1.wakeCount r.2.2 = 1 := by
  have he := hf.enrolled
  obtain ⟨n, i, ha⟩ := hf.subject_pending hk
  refine hf.quiet.wakeCount_complete hf.sound ha (.inl (he.direct r hr none hk))
    (fun g a hst hwa => ?_) v
  rw [willWake_iff.mp hwa] at hst
  exact he.single g _ r.2.2 hst (he.enrolled r hr)

/-- A pending key completes, and all that has been registered is woken once. -/
theorem complete_pending (hf : c.Follows l gen) (hsmall : made l + 1 < 2 ^ 64) {key : UInt8}
    {epoch : Nat} (hk : c.model.keys key = some (.live epoch none)) :
    Goes l (c.complete key) := by
  obtain ⟨-, hsubject, hkey, hout⟩ := hf.keyed.live key epoch none hk
  let value := ModelState.outcomeValue key epoch
  have hledger : l.exec (.complete (gen key epoch) value : Observe.Op UInt8 Nat Nat) =
      ({ l with outcome := Function.update l.outcome (gen key epoch) (some value) }, .done) := by
    simp [Ledger.exec, hkey, hout]
  obtain ⟨hsound, hquiet, hmodels, hres⟩ := hf.exec hsmall (.complete (gen key epoch) value)
  rw [hledger] at hmodels hres
  let c₁ := (c.exec (.complete (gen key epoch) value)).1
  let c₂ : Campaign := { c₁ with model := { c.model with
    keys := Function.update c.model.keys key (some (.live epoch (some value))) } }
  have hf₂ : c₂.Follows
      { l with outcome := Function.update l.outcome (gen key epoch) (some value) } gen := by
    refine hf.calm (hf.sound.inv.calm hf.sound.history rfl) hsound hquiet hmodels
      (hf.keyed.complete hk) (hf.observations.mono fun _ _ hm => ⟨hm, rfl⟩)
      (hf.futures.mono fun _ _ hm => ⟨hm, rfl⟩) hf.apart (fun _ _ hm => ⟨hm, rfl⟩)
      (fun k e o _ hlive => ?_) (fun _ _ hx => .inl hx) rfl le_rfl
    have hnew : Function.update c.model.keys key (some (.live epoch (some value))) k =
        some (.live e o) := hlive
    rcases eq_or_of_insert hnew with ⟨rfl, heq⟩ | ⟨-, hold⟩
    · cases heq
      exact ⟨none, hk⟩
    · exact ⟨o, hold⟩
  -- the wakers of the table are those from before the completion, which registers none
  have hfutures : (c₂.harness.futureHandles.filter fun f => f.key = key ∧ f.epoch = epoch).forM
      (fun handle => handle.wakers.zipIdx.forM fun probe =>
        ensure (c₂.harness.space.wakeCount probe.1 = 1) (.futureWaker probe.2 key epoch)) = .ok () := by
    refine forM_ok fun x hx => forM_ok fun probe hprobe => ensure_ok ?_ _
    obtain ⟨hmem, hsame⟩ := List.mem_filter.mp hx
    obtain ⟨id, hid⟩ := hf.futures.mem_values_iff.mp hmem
    obtain ⟨hxk, hxe⟩ : x.key = key ∧ x.epoch = epoch := by simpa using hsame
    exact hf.future_woken hk hid hxk hxe (List.fst_mem_of_mem_zipIdx hprobe) value
  have hregistrations : c₂.registrations.zipIdx.forM (fun registration =>
      if registration.1.1 = key ∧ registration.1.2.1 = epoch then
        ensure (c₂.harness.space.wakeCount registration.1.2.2 = 1)
          (.registration registration.2 key epoch)
      else return ()) = .ok () := by
    refine forM_ok fun registration hmem => ?_
    have hr : registration.1 ∈ c.registrations := List.fst_mem_of_mem_zipIdx hmem
    split
    · rename_i hsame
      refine ensure_ok ?_ _
      have hwoken := hf.registration_woken hr (by rw [hsame.1, hsame.2]; exact hk) value
      rw [hsame.1, hsame.2] at hwoken
      exact hwoken
    · rfl
  have hread : ∀ x ∈ c₂.harness.observationHandles.filter (fun o => o.key = key ∧ o.epoch = epoch),
      (∃ id, c₂.harness.observations id = some x) ∧
        Function.update l.outcome (gen key epoch) (some value) (gen x.key x.epoch) = some value := by
    intro x hx
    obtain ⟨hmem, hsame⟩ := List.mem_filter.mp hx
    obtain ⟨hxk, hxe⟩ : x.key = key ∧ x.epoch = epoch := by simpa using hsame
    refine ⟨hf₂.observations.mem_values_iff.mp hmem, ?_⟩
    rw [hxk, hxe]
    exact Function.update_self ..
  obtain ⟨c₃, hfold, hf₃⟩ := hf₂.assertTryGets hsmall hread
  have hnotify : c₂.assertCompletionNotifications key epoch value = .ok c₃ := by
    unfold Campaign.assertCompletionNotifications
    dsimp only
    rw [hfutures, hregistrations]
    exact hfold
  refine ⟨c₃, _, gen, ?_, hf₃, ?_⟩
  · unfold Campaign.complete
    rw [ModelState.live_eq hk, hsubject]
    have hdone : (c.exec (.complete (gen key epoch) value)).2 = .done := hres
    show (do
      ensure ((c.exec (.complete (gen key epoch) value)).2 = (.done : Res UInt8 Nat)) .panicked
      c₂.assertCompletionNotifications key epoch value) = .ok c₃
    rw [hdone, ensure_ok rfl, hnotify]
    rfl
  · have hle := made_exec l (.complete (gen key epoch) value)
    rwa [hledger] at hle

theorem complete (hf : c.Follows l gen) (hsmall : made l + 1 < 2 ^ 64) (key : UInt8) :
    Goes l (c.complete key) := by
  cases hk : c.model.keys key with
  | none =>
    unfold Campaign.complete
    rw [ModelState.live_eq_none hk]
    exact ⟨c, l, gen, rfl, hf, Nat.le_succ _⟩
  | some s =>
    obtain ⟨epoch, r⟩ := s
    cases r with
    | none => exact hf.complete_pending hsmall hk
    | some v =>
      unfold Campaign.complete
      rw [ModelState.live_eq hk]
      exact ⟨c, l, gen, rfl, hf, Nat.le_succ _⟩

/-! ## Runs -/

/-- No operation fails an assertion. -/
theorem apply (hf : c.Follows l gen) (hsmall : made l + 1 < 2 ^ 64) (op : Op) :
    Goes l (c.apply op) := by
  cases op with
  | register key => exact hf.register hsmall key
  | complete key => exact hf.complete hsmall key
  | observe key => exact hf.observe hsmall key
  | tryGet id => exact hf.tryGet hsmall id
  | registerWaker id => exact hf.registerWaker hsmall id
  | intoOutcome id => exact hf.intoOutcome hsmall id
  | retire key => exact hf.retire hsmall key
  | dropObs id => exact hf.dropObs hsmall id
  | newFuture id => exact hf.newFuture hsmall id
  | pollFuture id => exact hf.pollFuture hsmall id false
  | migrateFuture id => exact hf.pollFuture hsmall id true
  | cancelFuture id => exact hf.cancelFuture hsmall id

theorem new (e : Env) : (Campaign.new e).Follows Ledger.new fun _ _ => 0 := by
  have hmade (k : UInt8) (n : Nat) : ¬ ModelState.default.Made k n := by
    intro hm
    obtain ⟨last, hlast, -⟩ := hm
    cases hlast
  have hstored (g : Gen) (wk : Nat) : ¬ (World.new e : World UInt8 Nat Nat 64).StoredBy g wk := by
    intro hst
    obtain ⟨j, hmem⟩ := hst
    cases hmem
  have htracks {α : Type} (name : α → Nat) (key : α → UInt8) (epoch : α → Nat) :
      Tracks name key epoch .default (fun _ _ => 0) 0 (fun _ => none) fun _ => none := by
    refine ⟨fun _ _ => rfl, fun _ _ hx => ?_, fun _ _ hx => ?_, fun _ _ _ _ hx => ?_,
      fun _ _ hx => ?_⟩ <;> cases hx
  refine ⟨.new e, .new e, .new e, ?keyed, htracks _ _ _, htracks _ _ _, fun _ _ _ => rfl, ?enrolled⟩
  case keyed =>
    refine ⟨fun k n hm => ?_, fun k n _ _ hm => ?_, fun _ _ _ hk => ?_, fun _ _ => rfl,
      fun k n hm => ?_, fun k n _ hm => ?_⟩
    · exact absurd hm (hmade k n)
    · exact absurd hm (hmade k n)
    · cases hk
    · exact absurd hm (hmade k n)
    · exact absurd hm (hmade k n)
  case enrolled =>
    refine ⟨fun _ _ hx => ?_, fun _ _ hx => ?_, fun _ hr => ?_, fun _ hr => ?_, fun _ hr => ?_,
      fun g wk hst => absurd hst (hstored g wk), fun g _ wk hst => absurd hst (hstored g wk)⟩
    · cases hx
    · cases hx
    · cases hr
    · cases hr
    · cases hr

/-- A campaign goes on without a failure, as long as what it makes can be counted. -/
theorem run (hf : c.Follows l gen) {ops : List Op} (hsmall : made l + ops.length < 2 ^ 64) :
    ∃ c', ops.foldlM Campaign.apply c = .ok c' := by
  induction ops generalizing c l gen with
  | nil => exact ⟨c, rfl⟩
  | cons op ops ih =>
    rw [List.length_cons] at hsmall
    obtain ⟨c', l', gen', hstep, hf', hmade⟩ := hf.apply (by omega) op
    rw [List.foldlM_cons, hstep]
    exact ih hf' (by omega)

end Follows

end Campaign

/-- **Conformance to the reference model.** Whatever the operations and their order, no assertion of
the campaign fails and no call panics.  Up to this length the model's `u64`s do not overflow. -/
theorem sequential_model_conformance (e : Env) (ops : List Op) (h : ops.length ≤ 2 ^ 54) :
    ∃ c, runCase e ops = .ok c := by
  apply (Campaign.Follows.new e).run
  show 1 + 0 + ops.length < 2 ^ 64
  omega

/-- A future of epoch 0 moves to a second waker, another is cancelled, and both wakers of the first
and the direct registration are woken; the retired outcome is moved out of the last observation. -/
def churnedOps : List Op :=
  [.register 3, .observe 3, .observe 3, .observe 3, .registerWaker 0, .newFuture 1, .pollFuture 1,
    .migrateFuture 1, .newFuture 2, .pollFuture 2, .cancelFuture 2, .complete 3, .pollFuture 1,
    .intoOutcome 0, .observe 3, .retire 3, .register 3, .cancelFuture 1, .intoOutcome 3, .retire 3]

theorem churned_conformance : ∃ c, runCase ⟨fun _ => false, 0⟩ churnedOps = .ok c :=
  sequential_model_conformance ⟨fun _ => false, 0⟩ churnedOps (by decide)

end Observe.Reference
