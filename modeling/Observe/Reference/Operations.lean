import Observe.Reference.Simulation

/-!
# The operations of the campaign

What each operation but a completion does to a campaign that follows its ledger.  A result that is
not what the model says would be a failure, and there is none.
-/

namespace Observe.Reference.Campaign.Follows

variable {c : Campaign} {l : Ledger UInt8 Nat} {gen : UInt8 → Nat → Gen}

/-! ## Reading -/

theorem tryGet_follows (hf : c.Follows l gen) (hsmall : made l + 1 < 2 ^ 64) {id : Nat}
    {x : ObsHandle} (hx : c.harness.observations id = some x) :
    (c.exec (.tryGet x.observation)).1.Follows l gen ∧
      (c.exec (.tryGet x.observation)).2 = .outcome (l.outcome (gen x.key x.epoch)) := by
  obtain ⟨hrec, -⟩ := hf.obs_record hx
  have hledger : l.exec (.tryGet x.observation : Observe.Op UInt8 Nat Nat) =
      (l, .outcome (l.outcome (gen x.key x.epoch))) := by simp [Ledger.exec, hrec]
  refine ⟨hf.idle hsmall (by rw [hledger]) (hf.sound.inv.calm hf.sound.history rfl), ?_⟩
  show (c.harness.space.exec _).2 = _
  rw [(hf.exec hsmall _).2.2.2, hledger]

theorem tryGet (hf : c.Follows l gen) (hsmall : made l + 1 < 2 ^ 64) (id : Nat) :
    Goes l (c.tryGet id) := by
  unfold Campaign.tryGet
  cases hx : c.harness.observations id with
  | none => exact ⟨c, l, gen, rfl, hf, Nat.le_succ _⟩
  | some x =>
    obtain ⟨hfollows, hresult⟩ := hf.tryGet_follows hsmall hx
    obtain ⟨-, hexpected⟩ := hf.obs_record hx
    refine ⟨(c.exec (.tryGet x.observation)).1, l, gen, ?_, hfollows, Nat.le_succ _⟩
    dsimp only
    rw [hresult, hexpected, ensure_ok rfl]
    rfl

/-! ## Keys -/

/-- A registration of a live key is refused. -/
theorem register_live (hf : c.Follows l gen) (hsmall : made l + 1 < 2 ^ 64) {key : UInt8}
    {epoch : Nat} {r : Option Nat} (hk : c.model.keys key = some (.live epoch r)) :
    Goes l (c.register key) := by
  have hledger : l.exec (.subject key : Observe.Op UInt8 Nat Nat) =
      (l, .subject (.subjectExists key)) := by
    simp [Ledger.exec, hf.keyed.liveGen hk]
  have hfollows : (c.exec (.subject key)).1.Follows l gen :=
    hf.idle hsmall (by rw [hledger]) (hf.sound.inv.calm hf.sound.history rfl)
  have hmodel : (c.exec (.subject key)).1.model.register key = (c.model, false) := by
    show c.model.register key = _
    simp [ModelState.register, ModelState.live_eq hk]
  refine ⟨(c.exec (.subject key)).1, l, gen, ?_, hfollows, Nat.le_succ _⟩
  unfold Campaign.register
  rw [hf.exec_eq hsmall, hledger]
  simp only [hmodel]
  rfl

/-- A registration of a vacant key begins its next epoch. -/
theorem register_vacant (hf : c.Follows l gen) (hsmall : made l + 1 < 2 ^ 64) {key : UInt8}
    (hk : c.model.keys key = none) : Goes l (c.register key) := by
  have hvacant := hf.keyed.vacant key hk
  have hpending : l.outcome l.nextGen = none :=
    hf.models.pending l.nextGen (hf.models.nextGen ▸ le_rfl)
  have hledger : l.exec (.subject key : Observe.Op UInt8 Nat Nat) =
      (l.register key hvacant, .subject (.ok l.nextGen)) := by
    simp [Ledger.exec, hvacant]
  have hregister := Keyed.register_eq hk
  have hmade (k : UInt8) (e : Nat) (hm : c.model.Made k e) : (c.model.register key).1.Made k e ∧
      Keyed.extend gen key (Keyed.nextEpoch c.model key) l.nextGen k e = gen k e :=
    ⟨(Keyed.made_register_iff hk k e).mpr (.inl hm), Keyed.extend_of_made hm key _⟩
  obtain ⟨hsound, hquiet, hmodels, -⟩ := hf.exec hsmall (.subject key)
  rw [hledger] at hmodels
  let c₁ := (c.exec (.subject key)).1
  refine ⟨{ c₁ with
    model := (c.model.register key).1
    harness := { c₁.harness with
      subjects := Function.update c.harness.subjects key (some l.nextGen) } },
    l.register key hvacant, Keyed.extend gen key (Keyed.nextEpoch c.model key) l.nextGen,
    ?_, ?_, ?_⟩
  · unfold Campaign.register
    rw [hf.exec_eq hsmall, hledger]
    have hmodel : (c.exec (.subject key)).1.model.register key = c.model.register key := rfl
    simp only [hmodel, hregister]
    rfl
  · refine hf.calm (hf.sound.inv.calm hf.sound.history rfl) hsound hquiet hmodels
      (hf.keyed.register hk hpending) (hf.observations.mono hmade) (hf.futures.mono hmade)
      hf.apart hmade (fun k e o hm hlive => ?_) (fun _ _ hx => .inl hx) rfl le_rfl
    have hkeys : (c.model.register key).1.keys k = some (.live e o) := hlive
    rw [hregister] at hkeys
    have hnew : Function.update c.model.keys key
        (some (.live (Keyed.nextEpoch c.model key) none)) k = some (.live e o) := hkeys
    -- the epoch that begins here had not begun, so it is none of those that the campaign remembers
    rcases eq_or_of_insert hnew with ⟨rfl, heq⟩ | ⟨-, hold⟩
    · cases heq
      exact absurd hm Keyed.not_made_nextEpoch
    · exact ⟨o, hold⟩
  · have hle := made_exec l (.subject key)
    rwa [hledger] at hle

theorem register (hf : c.Follows l gen) (hsmall : made l + 1 < 2 ^ 64) (key : UInt8) :
    Goes l (c.register key) := by
  cases hk : c.model.keys key with
  | none => exact hf.register_vacant hsmall hk
  | some s =>
    obtain ⟨epoch, r⟩ := s
    exact hf.register_live hsmall hk

/-- A live key is retired, and its epoch keeps what it has. -/
theorem retire (hf : c.Follows l gen) (hsmall : made l + 1 < 2 ^ 64) (key : UInt8) :
    Goes l (c.retire key) := by
  unfold Campaign.retire
  cases hk : c.model.keys key with
  | none =>
    rw [ModelState.live_eq_none hk]
    exact ⟨c, l, gen, rfl, hf, Nat.le_succ _⟩
  | some s =>
    obtain ⟨epoch, r⟩ := s
    obtain ⟨-, hsubject, hkey, -⟩ := hf.keyed.live key epoch r hk
    have hledger : l.exec (.dropSubject (gen key epoch) : Observe.Op UInt8 Nat Nat) =
        (l.retire (gen key epoch), .done) := by
      simp [Ledger.exec, hkey]
    obtain ⟨hsound, hquiet, hmodels, -⟩ := hf.exec hsmall (.dropSubject (gen key epoch))
    rw [hledger] at hmodels
    rw [ModelState.live_eq hk, hsubject]
    let c₁ := (c.exec (.dropSubject (gen key epoch))).1
    refine ⟨{ c₁ with
      model := c.model.retire key
      harness := { c₁.harness with
        subjects := Function.update c.harness.subjects key none } },
      l.retire (gen key epoch), gen, rfl, ?_, ?_⟩
    · have hmodel : c.model.retire key = { c.model with
          keys := Function.update c.model.keys key none
          retired := Function.update c.model.retired (key, epoch) (some r) } := by
        simp [ModelState.retire, hk]
      have hmade (k : UInt8) (e : Nat) (hm : c.model.Made k e) :
          (c.model.retire key).Made k e ∧ gen k e = gen k e := by
        rw [hmodel]
        exact ⟨hm, rfl⟩
      refine hf.calm (hf.sound.inv.calm hf.sound.history rfl) hsound hquiet hmodels
        (hf.keyed.retire hk) (hf.observations.mono hmade) (hf.futures.mono hmade)
        hf.apart hmade (fun k e o _ hlive => ?_) (fun _ _ hx => .inl hx) rfl le_rfl
      have hnew : (c.model.retire key).keys k = some (.live e o) := hlive
      rw [hmodel] at hnew
      exact ⟨o, (of_remove hnew).2⟩
    · have hle := made_exec l (.dropSubject (gen key epoch))
      rwa [hledger] at hle

/-- A vacant key cannot be observed; of a live one the current epoch is captured. -/
theorem observe (hf : c.Follows l gen) (hsmall : made l + 1 < 2 ^ 64) (key : UInt8) :
    Goes l (c.observe key) := by
  obtain ⟨hsound, hquiet, hmodels, -⟩ := hf.exec hsmall (.observe key)
  have hcalm : c.harness.space.Calm (c.harness.space.exec (.observe key)).1 :=
    hf.sound.inv.calm hf.sound.history rfl
  unfold Campaign.observe
  cases hk : c.model.keys key with
  | none =>
    have hledger : l.exec (.observe key : Observe.Op UInt8 Nat Nat) = (l, .observe none) := by
      simp [Ledger.exec, hf.keyed.vacant key hk]
    have hlive : (c.exec (.observe key)).1.model.live key = none := ModelState.live_eq_none hk
    refine ⟨(c.exec (.observe key)).1, l, gen, ?_, hf.idle hsmall (by rw [hledger]) hcalm,
      Nat.le_succ _⟩
    rw [hf.exec_eq hsmall, hledger]
    simp only [hlive]
    rfl
  | some s =>
    obtain ⟨epoch, r⟩ := s
    have hledger : l.exec (.observe key : Observe.Op UInt8 Nat Nat) =
        (l.capture (gen key epoch), .observe (some l.nextObs)) := by
      simp [Ledger.exec, hf.keyed.liveGen hk]
    have hlive : (c.exec (.observe key)).1.model.live key = some (epoch, r) :=
      ModelState.live_eq hk
    have hunused : l.obs l.nextObs = none := by
      rw [hf.models.obs, hf.models.nextObs, hf.sound.inv.unused.obs _ le_rfl]
      rfl
    rw [hledger] at hmodels
    let c₁ := (c.exec (.observe key)).1
    let handle : ObsHandle := ⟨l.nextObs, key, epoch⟩
    refine ⟨{ c₁ with
      harness := { c₁.harness with
        observations := Function.update c.harness.observations c.harness.nextHandle (some handle)
        nextHandle := c.harness.nextHandle + 1 } },
      l.capture (gen key epoch), gen, ?_, ?_, ?_⟩
    · rw [hf.exec_eq hsmall, hledger]
      simp only [hlive]
      rfl
    · have hnew : c.harness.futures c.harness.nextHandle = none := hf.futures.fresh _ le_rfl
      refine hf.calm hcalm hsound hquiet hmodels (hf.keyed.of_same rfl rfl rfl)
        (hf.observations.insert (x := handle) (hf.observations.fresh _ le_rfl) (Nat.lt_succ_self _)
          (Nat.le_succ _) (hf.keyed.made hk) hunused) hf.futures.later (fun id x hx => ?_)
        (fun _ _ hm => ⟨hm, rfl⟩) (fun _ _ o _ hk => ⟨o, hk⟩) (fun _ _ hx => .inl hx) rfl le_rfl
      rcases eq_or_of_insert hx with ⟨rfl, -⟩ | ⟨-, hold⟩
      · exact hnew
      · exact hf.apart id x hold
    · have hle := made_exec l (.observe key)
      rwa [hledger] at hle

/-! ## Handles -/

/-- The model counts no other handle exactly when the ledger has none. -/
theorem slotRefs_eq_zero_iff (hf : c.Follows l gen) {id : Nat} {x : ObsHandle}
    (hx : c.harness.observations id = some x) :
    ({ c with harness := c.harness.removeObservation id } : Campaign).slotRefs x.key x.epoch = 0 ↔
      l.Sole x.observation (gen x.key x.epoch) := by
  have hm := hf.observations.made id x hx
  -- the handle that is consumed has left the table already
  have hobs := (hf.observations.remove hx).countP_eq_zero_iff hf.keyed.injective hm
  have hfuts := hf.futures.countP_eq_zero_iff hf.keyed.injective hm
  have hsubject : (if (c.model.live x.key).any (fun p => p.1 = x.epoch) then 2 else 0) = 0 ↔
      l.key (gen x.key x.epoch) = none := by
    rw [hf.keyed.key_eq_none_iff hm]
    cases hk : c.model.keys x.key with
    | none => simp [ModelState.live_eq_none hk]
    | some s =>
      obtain ⟨e, r⟩ := s
      simp [ModelState.live_eq hk]
  have hothers : (∀ o, Function.update l.obs x.observation none o ≠ some (gen x.key x.epoch)) ↔
      ∀ o < l.nextObs, l.obs o = some (gen x.key x.epoch) → o = x.observation := by
    constructor
    · intro hnone o _ ho
      by_contra hne
      exact hnone o ((Function.update_of_ne hne ..).trans ho)
    · intro honly o ho
      have hne : o ≠ x.observation := by
        intro heq
        rw [heq, Function.update_self] at ho
        cases ho
      rw [Function.update_of_ne hne] at ho
      refine hne (honly o ?_ ho)
      by_contra hge
      rw [hf.models.obs, hf.sound.inv.unused.obs o (hf.models.nextObs ▸ not_lt.mp hge)] at ho
      cases ho
  have hnofut : (∀ f, l.futs f ≠ some (gen x.key x.epoch)) ↔
      ∀ f < l.nextFut, l.futs f ≠ some (gen x.key x.epoch) := by
    refine ⟨fun hnone f _ => hnone f, fun hnone f hrec => ?_⟩
    refine hnone f ?_ hrec
    by_contra hge
    rw [hf.models.futs, hf.sound.inv.unused.fut f (hf.models.nextFut ▸ not_lt.mp hge)] at hrec
    cases hrec
  unfold Campaign.slotRefs Ledger.Sole
  rw [← hsubject, ← hothers, ← hnofut, ← hobs, ← hfuts, Nat.add_eq_zero_iff, Nat.add_eq_zero_iff,
    and_assoc]
  rfl

/-- An observation is consumed by a call that leaves everything else in the ledger as it is. -/
theorem consume (hf : c.Follows l gen) (hsmall : made l + 1 < 2 ^ 64) {id : Nat} {x : ObsHandle}
    (hx : c.harness.observations id = some x) {op : Observe.Op UInt8 Nat Nat}
    (hop : op.registers = false)
    (hledger : (l.exec op).1 = { l with obs := Function.update l.obs x.observation none }) :
    let c₁ : Campaign := { c with harness := c.harness.removeObservation id }
    Goes l (.ok (c₁.exec op).1) := by
  intro c₁
  obtain ⟨hsound, hquiet, hmodels, -⟩ := hf.exec hsmall op
  have hle := made_exec l op
  refine ⟨(c₁.exec op).1, (l.exec op).1, gen, rfl, ?_, hle⟩
  rw [hledger] at hmodels ⊢
  refine hf.calm (hf.sound.inv.calm hf.sound.history hop) hsound hquiet hmodels
    (hf.keyed.of_same rfl rfl rfl) (hf.observations.remove hx) hf.futures (fun id' y hy => ?_)
    (fun _ _ hm => ⟨hm, rfl⟩) (fun _ _ o _ hk => ⟨o, hk⟩) (fun _ _ hx => .inl hx) rfl le_rfl
  have hold : Function.update c.harness.observations id none id' = some y := hy
  exact hf.apart id' y (of_remove hold).2

theorem dropObs (hf : c.Follows l gen) (hsmall : made l + 1 < 2 ^ 64) (id : Nat) :
    Goes l (c.dropObs id) := by
  unfold Campaign.dropObs
  cases hx : c.harness.observations id with
  | none => exact ⟨c, l, gen, rfl, hf, Nat.le_succ _⟩
  | some x =>
    obtain ⟨hrec, -⟩ := hf.obs_record hx
    exact hf.consume hsmall hx rfl (by simp [Ledger.exec, hrec])

/-- The outcome is moved out of the last handle, and refused to any other. -/
theorem intoOutcome (hf : c.Follows l gen) (hsmall : made l + 1 < 2 ^ 64) (id : Nat) :
    Goes l (c.intoOutcome id) := by
  unfold Campaign.intoOutcome
  cases hx : c.harness.observations id with
  | none => exact ⟨c, l, gen, rfl, hf, Nat.le_succ _⟩
  | some x =>
    obtain ⟨hrec, hexpected⟩ := hf.obs_record hx
    have hexclusive := hf.slotRefs_eq_zero_iff hx
    have hledger : l.exec (.intoOutcome x.observation : Observe.Op UInt8 Nat Nat) =
        ({ l with obs := Function.update l.obs x.observation none },
          .outcome (if l.Sole x.observation (gen x.key x.epoch) then
            l.outcome (gen x.key x.epoch) else none)) := by simp [Ledger.exec, hrec]
    have hgoes := hf.consume hsmall hx rfl (congrArg Prod.fst hledger)
    have hresult : (({ c with harness := c.harness.removeObservation id } : Campaign).exec
        (.intoOutcome x.observation)).2 = .outcome (if l.Sole x.observation (gen x.key x.epoch) then
          l.outcome (gen x.key x.epoch) else none) := by
      show (c.harness.space.exec _).2 = _
      rw [(hf.exec hsmall _).2.2.2, hledger]
    have hvalue := hf.keyed.value x.key x.epoch
    dsimp only at hgoes ⊢
    rw [hexpected, hresult]
    cases hout : l.outcome (gen x.key x.epoch) with
    | none =>
      rw [if_neg (by simp), ite_self, ensure_ok rfl]
      exact hgoes
    | some v =>
      rw [← hvalue v (hf.observations.made id x hx) hout]
      by_cases hsole : l.Sole x.observation (gen x.key x.epoch)
      · rw [if_pos ⟨rfl, hexclusive.mpr hsole⟩, if_pos hsole, ensure_ok rfl]
        exact hgoes
      · have hshared : ¬ ((some v).isSome = true ∧ ({ c with
            harness := c.harness.removeObservation id } : Campaign).slotRefs x.key x.epoch = 0) := by
          intro h
          exact hsole (hexclusive.mp h.2)
        rw [if_neg hshared, if_neg hsole, ensure_ok rfl]
        exact hgoes

/-- An observation becomes a future that has registered nothing. -/
theorem newFuture (hf : c.Follows l gen) (hsmall : made l + 1 < 2 ^ 64) (id : Nat) :
    Goes l (c.newFuture id) := by
  unfold Campaign.newFuture
  cases hx : c.harness.observations id with
  | none => exact ⟨c, l, gen, rfl, hf, Nat.le_succ _⟩
  | some x =>
    obtain ⟨hrec, -⟩ := hf.obs_record hx
    obtain ⟨i, hlive⟩ := hf.models.obs_eq_some hf.quiet hrec
    have hledger : l.exec (.intoFuture x.observation : Observe.Op UInt8 Nat Nat) =
        ({ l with
          obs := Function.update l.obs x.observation none
          futs := Function.update l.futs l.nextFut (some (gen x.key x.epoch))
          nextFut := l.nextFut + 1 }, .done) := by simp [Ledger.exec, hrec]
    obtain ⟨hsound, hquiet, hmodels, -⟩ := hf.exec hsmall (.intoFuture x.observation)
    rw [hledger] at hmodels
    have hunused : l.futs l.nextFut = none := by
      rw [hf.models.futs, hf.models.nextFut, hf.sound.inv.unused.fut _ le_rfl]
      rfl
    have hlt : id < c.harness.nextHandle := by
      by_contra hge
      rw [hf.observations.fresh id (not_lt.mp hge)] at hx
      cases hx
    let handle : FutureHandle := ⟨l.nextFut, x.key, x.epoch, []⟩
    let c₁ : Campaign := { c with harness := c.harness.removeObservation id }
    let c₂ := (c₁.exec (.intoFuture x.observation)).1
    have hnew : c₂.harness.space.wakersOf l.nextFut = [] := by
      have hexec : c₂.harness.space =
          c.harness.space.intoFuture x.observation i (gen x.key x.epoch) := by
        show (c.harness.space.exec (.intoFuture x.observation)).1 = _
        simp [World.exec, hlive]
      rw [hexec, hf.models.nextFut]
      exact World.wakersOf_intoFuture ..
    refine ⟨{ c₂ with
      harness := { c₂.harness with
        futures := Function.update c.harness.futures id (some handle) } },
      { l with
        obs := Function.update l.obs x.observation none
        futs := Function.update l.futs l.nextFut (some (gen x.key x.epoch))
        nextFut := l.nextFut + 1 }, gen, ?_, ?_, ?_⟩
    · have hnext : c.harness.space.nextFut = l.nextFut := hf.models.nextFut.symm
      simp only [Harness.removeObservation, hnext]
      rfl
    · refine hf.calm (hf.sound.inv.calm hf.sound.history rfl) hsound hquiet hmodels
        (hf.keyed.of_same rfl rfl rfl) (hf.observations.remove hx)
        (hf.futures.insert (x := handle) (hf.apart id x hx) hlt le_rfl
          (hf.observations.made id x hx) hunused) (fun id' y hy => ?_)
        (fun _ _ hm => ⟨hm, rfl⟩) (fun _ _ o _ hk => ⟨o, hk⟩) (fun id' y hy => ?_) rfl le_rfl
      · have hy' : Function.update c.harness.observations id none id' = some y := hy
        obtain ⟨hid, hold⟩ := of_remove hy'
        exact (Function.update_of_ne hid ..).trans (hf.apart id' y hold)
      · have hy' : Function.update c.harness.futures id (some handle) id' = some y := hy
        rcases eq_or_of_insert hy' with ⟨-, rfl⟩ | ⟨-, hold⟩
        · exact .inr ⟨rfl, hnew⟩
        · exact .inl hold
    · have hle := made_exec l (.intoFuture x.observation)
      rwa [hledger] at hle

theorem cancelFuture (hf : c.Follows l gen) (hsmall : made l + 1 < 2 ^ 64) (id : Nat) :
    Goes l (c.cancelFuture id) := by
  unfold Campaign.cancelFuture
  cases hx : c.harness.futures id with
  | none => exact ⟨c, l, gen, rfl, hf, Nat.le_succ _⟩
  | some x =>
    obtain ⟨hrec, -⟩ := hf.fut_record hx
    have hledger : l.exec (.dropFuture x.future : Observe.Op UInt8 Nat Nat) =
        ({ l with futs := Function.update l.futs x.future none }, .done) := by
      simp [Ledger.exec, hrec]
    obtain ⟨hsound, hquiet, hmodels, -⟩ := hf.exec hsmall (.dropFuture x.future)
    rw [hledger] at hmodels
    have hle := made_exec l (.dropFuture x.future)
    rw [hledger] at hle
    refine ⟨_, _, gen, rfl, ?_, hle⟩
    refine hf.calm (hf.sound.inv.calm hf.sound.history rfl) hsound hquiet hmodels
      (hf.keyed.of_same rfl rfl rfl) hf.observations (hf.futures.remove hx)
      (fun id' y hy => ?_) (fun _ _ hm => ⟨hm, rfl⟩) (fun _ _ o _ hk => ⟨o, hk⟩)
      (fun _ _ hy => .inl (of_remove hy).2) rfl le_rfl
    show Function.update c.harness.futures id none id' = none
    by_cases hid : id' = id
    · rw [hid, Function.update_self]
    · rw [Function.update_of_ne hid]
      exact hf.apart id' y hy

/-! ## Wakers -/

/-- A waker is made. -/
theorem countWake (hf : c.Follows l gen) : c.countWake.1.Follows l gen :=
  hf.calm (.refl _) hf.sound hf.quiet hf.models hf.keyed hf.observations hf.futures hf.apart
    (fun _ _ hm => ⟨hm, rfl⟩) (fun _ _ o _ hk => ⟨o, hk⟩) (fun _ _ hx => .inl hx) rfl
    (Nat.le_succ _)

/-- The slot of a generation is completed exactly when the ledger has its outcome. -/
theorem completed_eq (hf : c.Follows l gen) {x : Owner} {i : SlotId} {g : Gen}
    (hp : c.harness.space.pin x = some (i, g)) :
    (c.harness.space.slots i).slot.state.completed = (l.outcome g).isSome := by
  have hshows := hf.models.shows hf.sound.inv hp
  cases hout : l.outcome g with
  | none =>
    rw [hout] at hshows
    exact hshows
  | some v =>
    rw [hout] at hshows
    exact hshows.1

/-- A registration on a pending generation. -/
theorem enlist (hf : c.Follows l gen) (hsmall : made l + 1 < 2 ^ 64) {id : Nat} {x : ObsHandle}
    (hx : c.harness.observations id = some x) (hout : l.outcome (gen x.key x.epoch) = none) :
    let c₁ := (c.countWake.1.exec (.registerWaker x.observation c.nextWaker)).1
    { c₁ with registrations := c.registrations ++ [(x.key, x.epoch, c.nextWaker)] }.Follows l gen := by
  intro c₁
  have he := hf.enrolled
  obtain ⟨hrec, -⟩ := hf.obs_record hx
  obtain ⟨i, hlive⟩ := hf.models.obs_eq_some hf.quiet hrec
  have hpending := hf.completed_eq (World.pin_obs hlive)
  rw [hout] at hpending
  obtain ⟨hstores, hwakers, hdirect⟩ := World.registerWaker_wakers hlive hpending c.nextWaker
  have hledger : (l.exec (.registerWaker x.observation c.nextWaker)).1 = l := by
    simp [Ledger.exec, hrec]
  obtain ⟨hsound, hquiet, hmodels, -⟩ := hf.exec hsmall (.registerWaker x.observation c.nextWaker)
  rw [hledger] at hmodels
  refine ⟨hsound, hquiet, hmodels, hf.keyed, hf.observations, hf.futures, hf.apart,
    he.stores hstores (fun id' y hy => ?_) (fun id' y hy wk hwk => ?_) fun r hr => ?_⟩
  · exact (hwakers y.future).trans (he.recorded id' y hy)
  · exact (hstores.stored _ _).mpr (.inl (he.owned id' y hy wk hwk))
  · rcases List.mem_append.mp hr with hold | hnew
    · exact .inl hold
    · rw [List.mem_singleton.mp hnew]
      refine .inr ⟨hf.observations.made id x hx, rfl, rfl, fun o hk => ?_⟩
      obtain ⟨n, j, b, ha⟩ := hf.models.key_eq_some (hf.keyed.live x.key x.epoch o hk).2.2.1
      -- the subject and the observation of one generation are on one slot
      have hj : j = i := by
        have hsub : c.harness.space.pin (.subject (gen x.key x.epoch)) =
            some (j, gen x.key x.epoch) := by simp [World.pin, ha, Authority.current?]
        exact hf.models.oneSlot _ _ j i _ hsub (World.pin_obs hlive)
      subst hj
      exact hdirect x.key n b ha

/-- The first poll of a pending generation with a new task. -/
theorem enroll (hf : c.Follows l gen) (hsmall : made l + 1 < 2 ^ 64) {id : Nat} {x : FutureHandle}
    (hx : c.harness.futures id = some x) (hout : l.outcome (gen x.key x.epoch) = none) :
    let c₁ := (c.countWake.1.exec (.poll x.future c.nextWaker)).1
    let handle := { x with wakers := x.wakers ++ [c.nextWaker] }
    { c₁ with harness := { c₁.harness with
      futures := Function.update c.harness.futures id (some handle) } }.Follows l gen := by
  intro c₁ handle
  have he := hf.enrolled
  obtain ⟨hrec, -⟩ := hf.fut_record hx
  obtain ⟨i, hlive⟩ := hf.models.futs_eq_some hrec
  have hp := World.pin_fut hlive
  have hpending := hf.completed_eq hp
  rw [hout] at hpending
  have hgen : ((c.harness.space.slots i).fut x.future).gen = gen x.key x.epoch := by
    have hmem := hf.sound.inv.borrowed.mem i x.future _ hlive
    rw [(hf.sound.inv.safe_of_pin hp).records.gen x.future hmem]
    exact hf.sound.inv.pinned _ _ _ hp
  -- the waker is new, so the future registers it, and the count of its owners has room
  have hunknown := he.unknown hx
  have hmade := made_exec l (.poll x.future c.nextWaker)
  have hroom : (c.harness.space.slots i).slot.registry.registerFutureWaker c.nextWaker
      ((c.harness.space.slots i).fut x.future).gen ≠ none :=
    hf.models.registerFutureWaker_ne_none hf.sound.inv hf.quiet (fits_of_made (by omega)) hlive
      hpending (by simpa [World.wakersOf, hlive] using hunknown) _
  obtain ⟨hstores, hself, hother⟩ := World.poll_wakers hlive hgen hpending hunknown hroom
  have hledger : (l.exec (.poll x.future c.nextWaker)).1 = l := by
    simp [Ledger.exec, hrec]
  obtain ⟨hsound, hquiet, hmodels, -⟩ := hf.exec hsmall (.poll x.future c.nextWaker)
  rw [hledger] at hmodels
  have hcases {id' : Nat} {y : FutureHandle}
      (hy : Function.update c.harness.futures id (some handle) id' = some y) :
      id' = id ∧ y = handle ∨ c.harness.futures id' = some y ∧ y.future ≠ x.future := by
    rcases eq_or_of_insert hy with hsame | ⟨hid, hold⟩
    · exact .inl hsame
    · exact .inr ⟨hold, fun hname => hid (hf.futures.unique id' id y x hold hx hname)⟩
  refine ⟨hsound, hquiet, hmodels, hf.keyed, hf.observations, hf.futures.replace hx rfl rfl rfl,
    fun id' y hy => ?_, he.stores hstores (fun id' y hy => ?_) (fun id' y hy wk hwk => ?_)
      fun r hr => .inl hr⟩
  · have hid : id' ≠ id := by
      intro hid
      have hnone := hf.apart id' y hy
      rw [hid, hx] at hnone
      cases hnone
    exact (Function.update_of_ne hid ..).trans (hf.apart id' y hy)
  · rcases hcases hy with ⟨-, rfl⟩ | ⟨hold, hne⟩
    · exact hself.trans (congrArg (· ++ [c.nextWaker]) (he.recorded id x hx))
    · exact (hother y.future hne).trans (he.recorded id' y hold)
  · rcases hcases hy with ⟨-, rfl⟩ | ⟨hold, -⟩
    · rcases List.mem_append.mp hwk with hmem | hmem
      · exact (hstores.stored _ _).mpr (.inl (he.owned id x hx wk hmem))
      · exact (hstores.stored _ _).mpr (.inr ⟨rfl, List.mem_singleton.mp hmem⟩)
    · exact (hstores.stored _ _).mpr (.inl (he.owned id' y hold wk hwk))

theorem registerWaker (hf : c.Follows l gen) (hsmall : made l + 1 < 2 ^ 64) (id : Nat) :
    Goes l (c.registerWaker id) := by
  unfold Campaign.registerWaker
  cases hx : c.harness.observations id with
  | none => exact ⟨c, l, gen, rfl, hf, Nat.le_succ _⟩
  | some x =>
    obtain ⟨hrec, hexpected⟩ := hf.obs_record hx
    have hledger : l.exec (.registerWaker x.observation c.nextWaker) =
        (l, .registered (l.outcome (gen x.key x.epoch)).isSome) := by simp [Ledger.exec, hrec]
    have hresult : (c.countWake.1.exec (.registerWaker x.observation c.nextWaker)).2 =
        .registered (l.outcome (gen x.key x.epoch)).isSome := by
      rw [hf.countWake.exec_eq hsmall, hledger]
    have hmodel : c.countWake.1.model.outcomeOf x.key x.epoch =
        l.outcome (gen x.key x.epoch) := hexpected
    show Goes l (do
      ensure ((c.countWake.1.exec (.registerWaker x.observation c.nextWaker)).2 =
        .registered (c.countWake.1.model.outcomeOf x.key x.epoch).isSome) .registerWakerDiverged
      if (c.countWake.1.model.outcomeOf x.key x.epoch).isSome then
        return (c.countWake.1.exec (.registerWaker x.observation c.nextWaker)).1
      else
        return { (c.countWake.1.exec (.registerWaker x.observation c.nextWaker)).1 with
          registrations := c.registrations ++ [(x.key, x.epoch, c.nextWaker)] })
    rw [hmodel, hresult, ensure_ok rfl]
    cases hout : l.outcome (gen x.key x.epoch) with
    | none => exact ⟨_, l, gen, rfl, hf.enlist hsmall hx hout, Nat.le_succ _⟩
    | some v =>
      obtain ⟨i, hlive⟩ := hf.models.obs_eq_some hf.quiet hrec
      have hcompleted := hf.completed_eq (World.pin_obs hlive)
      rw [hout] at hcompleted
      exact ⟨_, l, gen, rfl, hf.countWake.idle hsmall (by rw [hledger])
        (World.calm_registerWaker hlive hcompleted _), Nat.le_succ _⟩

/-- A poll that registers nothing. -/
theorem poll_idle (hf : c.Follows l gen) (hsmall : made l + 1 < 2 ^ 64) {id : Nat}
    {x : FutureHandle} (hx : c.harness.futures id = some x) {wk : Nat}
    (h : (l.outcome (gen x.key x.epoch)).isSome = true ∨ wk ∈ x.wakers) :
    (c.exec (.poll x.future wk)).1.Follows l gen := by
  obtain ⟨hrec, -⟩ := hf.fut_record hx
  obtain ⟨i, hlive⟩ := hf.models.futs_eq_some hrec
  have hcompleted := hf.completed_eq (World.pin_fut hlive)
  refine hf.idle hsmall (by simp [Ledger.exec, hrec]) (World.calm_poll hlive ?_)
  rw [hcompleted, hf.enrolled.recorded id x hx]
  exact h.imp_right SlotSys.Safe.known_of_mem

theorem poll_eq (hf : c.Follows l gen) (hsmall : made l + 1 < 2 ^ 64) {id : Nat}
    {x : FutureHandle} (hx : c.harness.futures id = some x) (wk : Nat) :
    c.exec (.poll x.future wk) = ((c.exec (.poll x.future wk)).1,
      .polled ((l.outcome (gen x.key x.epoch)).elim .pending .ready)) := by
  obtain ⟨hrec, -⟩ := hf.fut_record hx
  rw [hf.exec_eq hsmall]
  simp [Ledger.exec, hrec]

/-- A poll with a waker of its own. -/
theorem pollFuture_new (hf : c.Follows l gen) (hsmall : made l + 1 < 2 ^ 64) {id : Nat}
    {x : FutureHandle} (hx : c.harness.futures id = some x) : Goes l (c.pollFuture id true) := by
  obtain ⟨-, hexpected⟩ := hf.fut_record hx
  have hpoll := hf.countWake.poll_eq hsmall hx c.countWake.2
  unfold Campaign.pollFuture
  rw [hx]
  dsimp only
  rw [hpoll, hexpected]
  cases hout : l.outcome (gen x.key x.epoch) with
  | none => exact ⟨_, l, gen, rfl, hf.enroll hsmall hx hout, Nat.le_succ _⟩
  | some v =>
    have hidle : (c.countWake.1.exec (.poll x.future c.countWake.2)).1.Follows l gen :=
      hf.countWake.poll_idle hsmall hx (.inl (by rw [hout]; rfl))
    refine ⟨_, l, gen, ?_, hidle, Nat.le_succ _⟩
    dsimp only [Option.elim_some]
    rw [ensure_ok rfl]
    rfl

/-- The first poll of a future has a waker of its own too. -/
theorem pollFuture_first {id : Nat} {x : FutureHandle} (hx : c.harness.futures id = some x)
    (hw : x.wakers = []) : c.pollFuture id false = c.pollFuture id true := by
  unfold Campaign.pollFuture
  rw [hx]
  dsimp only
  rw [hw]
  rfl

/-- A poll with the first waker of the future again. -/
theorem pollFuture_again (hf : c.Follows l gen) (hsmall : made l + 1 < 2 ^ 64) {id : Nat}
    {x : FutureHandle} (hx : c.harness.futures id = some x) {wk : Nat} {wks : List Nat}
    (hw : x.wakers = wk :: wks) : Goes l (c.pollFuture id false) := by
  obtain ⟨-, hexpected⟩ := hf.fut_record hx
  have hpoll := hf.poll_eq hsmall hx wk
  have hknown : wk ∈ x.wakers := by
    rw [hw]
    exact List.mem_cons_self
  refine ⟨_, l, gen, ?_, hf.poll_idle hsmall hx (.inr hknown), Nat.le_succ _⟩
  unfold Campaign.pollFuture
  rw [hx]
  dsimp only
  rw [hw]
  dsimp only
  rw [hpoll, hexpected]
  cases hout : l.outcome (gen x.key x.epoch) with
  | none => rfl
  | some v =>
    dsimp only [Option.elim_some]
    rw [ensure_ok rfl]
    rfl

theorem pollFuture (hf : c.Follows l gen) (hsmall : made l + 1 < 2 ^ 64) (id : Nat)
    (migrate : Bool) : Goes l (c.pollFuture id migrate) := by
  cases hx : c.harness.futures id with
  | none =>
    unfold Campaign.pollFuture
    rw [hx]
    exact ⟨c, l, gen, rfl, hf, Nat.le_succ _⟩
  | some x =>
    cases migrate with
    | true => exact hf.pollFuture_new hsmall hx
    | false =>
      cases hw : x.wakers with
      | nil =>
        rw [pollFuture_first hx hw]
        exact hf.pollFuture_new hsmall hx
      | cons wk wks => exact hf.pollFuture_again hsmall hx hw

end Observe.Reference.Campaign.Follows
