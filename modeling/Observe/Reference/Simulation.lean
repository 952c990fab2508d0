import Observe.Reference.Relation

/-!
# What the campaign and the ledger have in common

The campaign follows a ledger by keys and epochs, handles and wakers.  Each operation of the campaign
is one call of the ledger at most, and leads from campaigns that follow one to such campaigns.
-/

namespace Observe.Reference

/-- The wakers that the campaign remembers are registered, each for one generation. -/
structure Enrolled (w : World UInt8 Nat Nat 64) (m : ModelState)
    (futures : Nat → Option FutureHandle) (registrations : List (UInt8 × Nat × Nat))
    (nextWaker : Nat) (gen : UInt8 → Nat → Gen) : Prop where
  recorded : ∀ id x, futures id = some x → w.wakersOf x.future = x.wakers
  owned : ∀ id x, futures id = some x → ∀ wk ∈ x.wakers, w.StoredBy (gen x.key x.epoch) wk
  made : ∀ r ∈ registrations, m.Made r.1 r.2.1
  direct : ∀ r ∈ registrations, ∀ o, m.keys r.1 = some (.live r.2.1 o) →
    r.2.2 ∈ w.directOf (gen r.1 r.2.1)
  enrolled : ∀ r ∈ registrations, w.StoredBy (gen r.1 r.2.1) r.2.2
  fresh : ∀ g wk, w.StoredBy g wk → wk < nextWaker
  single : ∀ g g' wk, w.StoredBy g wk → w.StoredBy g' wk → g = g'

theorem willWake_iff {a b : Nat} : willWake a b = true ↔ a = b := beq_iff_eq

namespace Enrolled

variable {w w' : World UInt8 Nat Nat 64} {m : ModelState} {futures futures' : Nat → Option FutureHandle}
  {registrations registrations' : List (UInt8 × Nat × Nat)} {nextWaker : Nat}
  {gen : UInt8 → Nat → Gen}

/-- A waker that is not made yet is none of a future. -/
theorem unknown (h : Enrolled w m futures registrations nextWaker gen) {id : Nat} {x : FutureHandle}
    (hx : futures id = some x) : known (w.wakersOf x.future) nextWaker = false := by
  rw [h.recorded id x hx, ← Bool.not_eq_true]
  intro hknown
  obtain ⟨a, ha, hwake⟩ := List.any_eq_true.mp hknown
  have hlt := h.fresh _ a (h.owned id x hx a ha)
  rw [willWake_iff.mp hwake] at hlt
  exact Nat.lt_irrefl _ hlt

/-- A new waker is registered, for one generation. -/
theorem stores (h : Enrolled w m futures registrations nextWaker gen) {g : Gen}
    (hst : w.Stores w' g nextWaker)
    (hrec : ∀ id x, futures' id = some x → w'.wakersOf x.future = x.wakers)
    (hown : ∀ id x, futures' id = some x → ∀ wk ∈ x.wakers, w'.StoredBy (gen x.key x.epoch) wk)
    (hreg : ∀ r ∈ registrations', r ∈ registrations ∨
      m.Made r.1 r.2.1 ∧ gen r.1 r.2.1 = g ∧ r.2.2 = nextWaker ∧
        ∀ o, m.keys r.1 = some (.live r.2.1 o) → nextWaker ∈ w'.directOf g) :
    Enrolled w' m futures' registrations' (nextWaker + 1) gen where
  recorded := hrec
  owned := hown
  made r hr := by
    rcases hreg r hr with hold | ⟨hm, -⟩
    · exact h.made r hold
    · exact hm
  direct r hr o hlive := by
    rcases hreg r hr with hold | ⟨-, hg, hwk, hdirect⟩
    · exact hst.direct _ _ (h.direct r hold o hlive)
    · rw [hg, hwk]
      exact hdirect o hlive
  enrolled r hr := by
    rcases hreg r hr with hold | ⟨-, hg, hwk, -⟩
    · exact (hst.stored _ _).mpr (.inl (h.enrolled r hold))
    · exact (hst.stored _ _).mpr (.inr ⟨hg, hwk⟩)
  fresh g' wk hs := by
    rcases (hst.stored g' wk).mp hs with hold | ⟨-, rfl⟩
    · exact Nat.lt_succ_of_lt (h.fresh g' wk hold)
    · exact Nat.lt_succ_self _
  single g₁ g₂ wk hs₁ hs₂ := by
    rcases (hst.stored g₁ wk).mp hs₁ with hold₁ | ⟨hg₁, hwk₁⟩
    · rcases (hst.stored g₂ wk).mp hs₂ with hold₂ | ⟨-, hwk₂⟩
      · exact h.single g₁ g₂ wk hold₁ hold₂
      · exact absurd hwk₂ (h.fresh g₁ wk hold₁).ne
    · rcases (hst.stored g₂ wk).mp hs₂ with hold₂ | ⟨hg₂, -⟩
      · exact absurd hwk₁ (h.fresh g₂ wk hold₂).ne
      · rw [hg₁, hg₂]

end Enrolled

/-- The campaign, its ledger, and the generations of the epochs. -/
structure Campaign.Follows (c : Campaign) (l : Ledger UInt8 Nat) (gen : UInt8 → Nat → Gen) :
    Prop where
  sound : c.harness.space.Sound
  quiet : c.harness.space.Quiet
  models : c.harness.space.Models l
  keyed : Keyed c.model c.harness.subjects l gen
  observations : Tracks ObsHandle.observation ObsHandle.key ObsHandle.epoch c.model gen
    c.harness.nextHandle c.harness.observations l.obs
  futures : Tracks FutureHandle.future FutureHandle.key FutureHandle.epoch c.model gen
    c.harness.nextHandle c.harness.futures l.futs
  /-- An observation that has become a future is none any more. -/
  apart : ∀ id x, c.harness.observations id = some x → c.harness.futures id = none
  enrolled : Enrolled c.harness.space c.model c.harness.futures c.registrations c.nextWaker gen

def made (l : Ledger UInt8 Nat) : Nat := l.nextGen + l.nextFut

/-- A ledger that has not made much can be counted. -/
theorem fits_of_made {l : Ledger UInt8 Nat} (h : made l < 2 ^ 64) : l.Fits 64 where
  generations := Nat.lt_of_le_of_lt (Nat.le_add_right _ _) h
  futures g _ := by
    have hcard : (l.futures g).card ≤ l.nextFut := by
      have hle := Finset.card_filter_le (Finset.range l.nextFut) fun f => l.futs f = some g
      rwa [Finset.card_range] at hle
    unfold made at h
    unfold usizeMax
    omega

theorem made_exec (l : Ledger UInt8 Nat) (op : Observe.Op UInt8 Nat Nat) :
    made (l.exec op).1 ≤ made l + 1 := by
  unfold made
  cases op <;> unfold Ledger.exec <;> dsimp only <;> split <;>
    simp [Ledger.register, Ledger.capture, Ledger.retire] <;> omega

namespace Campaign

/-- An operation that has not failed: the campaign still follows a ledger, which has made one generation
or future more at most. -/
def Goes (l : Ledger UInt8 Nat) (r : Except Failure Campaign) : Prop :=
  ∃ c' l' gen', r = .ok c' ∧ c'.Follows l' gen' ∧ made l' ≤ made l + 1

namespace Follows

variable {c c' : Campaign} {l l' : Ledger UInt8 Nat} {gen gen' : UInt8 → Nat → Gen}

/-- A call on the space returns what the ledger says. -/
theorem exec (hf : c.Follows l gen) (hsmall : made l + 1 < 2 ^ 64)
    (op : Observe.Op UInt8 Nat Nat) :
    (c.harness.space.exec op).1.Sound ∧ (c.harness.space.exec op).1.Quiet ∧
      (c.harness.space.exec op).1.Models (l.exec op).1 ∧
      (c.harness.space.exec op).2 = (l.exec op).2 := by
  have hmade := made_exec l op
  have hagree := hf.models.agree hf.sound hf.quiet op (fits_of_made (by omega))
    (fits_of_made (by omega))
  exact ⟨(hf.quiet.runs_exec hf.sound.inv op).sound hf.sound, hf.quiet.exec hf.sound.inv op,
    hagree.models, hagree.result⟩

/-- The future of a handle exists. -/
theorem future_live (hf : c.Follows l gen) {id : Nat} {x : FutureHandle}
    (hx : c.harness.futures id = some x) :
    (∃ i, c.harness.space.futs x.future = .live i (gen x.key x.epoch)) ∧
      x.future < c.harness.space.nextFut := by
  obtain ⟨i, hlive⟩ := hf.models.futs_eq_some (hf.futures.record id x hx)
  refine ⟨⟨i, hlive⟩, ?_⟩
  by_contra hge
  rw [hf.sound.inv.unused.fut x.future (not_lt.mp hge)] at hlive
  cases hlive

/-- The campaign goes on by a call that registers no waker. -/
theorem calm (hf : c.Follows l gen) (hcalm : c.harness.space.Calm c'.harness.space)
    (hsound : c'.harness.space.Sound) (hquiet : c'.harness.space.Quiet)
    (hmodels : c'.harness.space.Models l')
    (hkeyed : Keyed c'.model c'.harness.subjects l' gen')
    (hobs : Tracks ObsHandle.observation ObsHandle.key ObsHandle.epoch c'.model gen'
      c'.harness.nextHandle c'.harness.observations l'.obs)
    (hfuts : Tracks FutureHandle.future FutureHandle.key FutureHandle.epoch c'.model gen'
      c'.harness.nextHandle c'.harness.futures l'.futs)
    (hapart : ∀ id x, c'.harness.observations id = some x → c'.harness.futures id = none)
    (hmade : ∀ k e, c.model.Made k e → c'.model.Made k e ∧ gen' k e = gen k e)
    (hkeys : ∀ k e o, c.model.Made k e → c'.model.keys k = some (.live e o) →
      ∃ o', c.model.keys k = some (.live e o'))
    (hfutures : ∀ id x, c'.harness.futures id = some x → c.harness.futures id = some x ∨
      x.wakers = [] ∧ c'.harness.space.wakersOf x.future = [])
    (hreg : c'.registrations = c.registrations) (hnext : c.nextWaker ≤ c'.nextWaker) :
    c'.Follows l' gen' := by
  have he := hf.enrolled
  refine ⟨hsound, hquiet, hmodels, hkeyed, hobs, hfuts, hapart, fun id x hx => ?recorded,
    fun id x hx wk hwk => ?owned, fun r hr => ?made, fun r hr o hlive => ?direct,
    fun r hr => ?enrolled, fun g wk hst => ?fresh, fun g g' wk hst hst' => ?single⟩
  case recorded =>
    rcases hfutures id x hx with hold | ⟨hnil, hnew⟩
    · obtain ⟨-, hlt⟩ := hf.future_live hold
      obtain ⟨i, hlive⟩ := hmodels.futs_eq_some (hfuts.record id x hx)
      rw [hcalm.wakers x.future i _ hlt hlive]
      exact he.recorded id x hold
    · rw [hnil, hnew]
  case owned =>
    rcases hfutures id x hx with hold | ⟨hnil, -⟩
    · rw [hcalm.stored, (hmade _ _ (hf.futures.made id x hold)).2]
      exact he.owned id x hold wk hwk
    · rw [hnil] at hwk
      cases hwk
  case made =>
    rw [hreg] at hr
    exact (hmade _ _ (he.made r hr)).1
  case direct =>
    rw [hreg] at hr
    have hm := he.made r hr
    obtain ⟨o', hold⟩ := hkeys r.1 r.2.1 o hm hlive
    obtain ⟨n, i, b, ha⟩ := hmodels.key_eq_some (hkeyed.live r.1 r.2.1 o hlive).2.2.1
    have hlt : gen r.1 r.2.1 < c.harness.space.nextGen := by
      rw [← hf.models.nextGen]
      exact hf.keyed.made_lt r.1 r.2.1 hm
    rw [(hmade _ _ hm).2] at ha ⊢
    rw [hcalm.direct _ r.1 n i b hlt ha]
    exact he.direct r hr o' hold
  case enrolled =>
    rw [hreg] at hr
    rw [hcalm.stored, (hmade _ _ (he.made r hr)).2]
    exact he.enrolled r hr
  case fresh =>
    exact (he.fresh g wk ((hcalm.stored g wk).mp hst)).trans_le hnext
  case single =>
    exact he.single g g' wk ((hcalm.stored g wk).mp hst) ((hcalm.stored g' wk).mp hst')

/-! ## Calls through handles -/

/-- The result of a call through an observation, by the outcome that the model has. -/
theorem obs_record (hf : c.Follows l gen) {id : Nat} {x : ObsHandle}
    (hx : c.harness.observations id = some x) :
    l.obs x.observation = some (gen x.key x.epoch) ∧
      c.model.outcomeOf x.key x.epoch = l.outcome (gen x.key x.epoch) :=
  ⟨hf.observations.record id x hx, hf.keyed.outcomeOf (hf.observations.made id x hx)⟩

theorem fut_record (hf : c.Follows l gen) {id : Nat} {x : FutureHandle}
    (hx : c.harness.futures id = some x) :
    l.futs x.future = some (gen x.key x.epoch) ∧
      c.model.outcomeOf x.key x.epoch = l.outcome (gen x.key x.epoch) :=
  ⟨hf.futures.record id x hx, hf.keyed.outcomeOf (hf.futures.made id x hx)⟩

/-- A call that leaves the ledger as it is and registers nothing. -/
theorem idle (hf : c.Follows l gen) (hsmall : made l + 1 < 2 ^ 64)
    {op : Observe.Op UInt8 Nat Nat} (hledger : (l.exec op).1 = l)
    (hcalm : c.harness.space.Calm (c.harness.space.exec op).1) :
    (c.exec op).1.Follows l gen := by
  obtain ⟨hsound, hquiet, hmodels, -⟩ := hf.exec hsmall op
  rw [hledger] at hmodels
  exact hf.calm hcalm hsound hquiet hmodels hf.keyed hf.observations hf.futures hf.apart
    (fun _ _ hm => ⟨hm, rfl⟩) (fun _ _ o _ hk => ⟨o, hk⟩) (fun _ _ hx => .inl hx) rfl le_rfl

/-- A call returns what the ledger says. -/
theorem exec_eq (hf : c.Follows l gen) (hsmall : made l + 1 < 2 ^ 64)
    (op : Observe.Op UInt8 Nat Nat) : c.exec op = ((c.exec op).1, (l.exec op).2) :=
  Prod.ext rfl (hf.exec hsmall op).2.2.2

end Follows

end Campaign

end Observe.Reference
