import Observe.Reference.Campaign
import Observe.Sequential.Refinement

/-!
# Epochs, generations and handles

The generation of an epoch is whatever the ledger has made for it.  The relation says that the model
has the live generations and the outcomes of the ledger under their keys and epochs, that the harness
has exactly the ledger's handles, and that the wakers which the campaign remembers are those that the
program has registered, each for one generation alone.
-/

namespace Observe.Reference

def ModelState.Made (m : ModelState) (key : UInt8) (epoch : Nat) : Prop :=
  ∃ last, m.epochs key = some last ∧ epoch ≤ last

/-! ## Assertions -/

theorem ensure_ok {p : Prop} [Decidable p] (h : p) (failure : Failure) :
    ensure p failure = .ok () := if_pos h

/-- A loop of checks that all pass. -/
theorem forM_ok {α : Type} {f : α → Except Failure Unit} {l : List α}
    (h : ∀ x ∈ l, f x = .ok ()) : l.forM f = .ok () := by
  induction l with
  | nil => rfl
  | cons x l ih =>
    have hx := h x List.mem_cons_self
    have hl := ih fun y hy => h y (List.mem_cons_of_mem x hy)
    show (f x >>= fun _ => l.forM f) = .ok ()
    rw [hx]
    exact hl

/-! ## Tables -/

section Tables

variable {α β : Type} [DecidableEq α] {table : α → Option β} {a a' : α} {x y : β}

/-- An entry after an insertion is the new one, or an old one of another key. -/
theorem eq_or_of_insert (h : Function.update table a (some x) a' = some y) :
    a' = a ∧ y = x ∨ a' ≠ a ∧ table a' = some y := by
  by_cases ha : a' = a
  · rw [ha, Function.update_self] at h
    cases h
    exact .inl ⟨ha, rfl⟩
  · rw [Function.update_of_ne ha] at h
    exact .inr ⟨ha, h⟩

/-- An entry after a removal is an old one of another key. -/
theorem of_remove (h : Function.update table a none a' = some y) : a' ≠ a ∧ table a' = some y := by
  by_cases ha : a' = a
  · rw [ha, Function.update_self] at h
    cases h
  · rw [Function.update_of_ne ha] at h
    exact ⟨ha, h⟩

end Tables

/-! ## Keys -/

/-- The model has what the ledger has, by keys and epochs. -/
structure Keyed (m : ModelState) (subjects : UInt8 → Option Gen) (l : Ledger UInt8 Nat)
    (gen : UInt8 → Nat → Gen) : Prop where
  made_lt : ∀ k e, m.Made k e → gen k e < l.nextGen
  injective : ∀ k e k' e', m.Made k e → m.Made k' e' → gen k e = gen k' e' → k = k' ∧ e = e'
  live : ∀ k e r, m.keys k = some (.live e r) → m.epochs k = some e ∧
    subjects k = some (gen k e) ∧ l.key (gen k e) = some k ∧ l.outcome (gen k e) = r
  vacant : ∀ k, m.keys k = none → l.live k = none
  retired : ∀ k e, m.Made k e → (∀ r, m.keys k ≠ some (.live e r)) →
    m.retired (k, e) = some (l.outcome (gen k e)) ∧ l.key (gen k e) = none
  value : ∀ k e v, m.Made k e → l.outcome (gen k e) = some v → v = ModelState.outcomeValue k e

namespace ModelState

variable {m : ModelState} {key : UInt8}

theorem live_eq {e : Nat} {r : Option Nat} (h : m.keys key = some (.live e r)) :
    m.live key = some (e, r) := by
  simp [live, h]

theorem live_eq_none (h : m.keys key = none) : m.live key = none := by
  simp [live, h]

end ModelState

namespace Keyed

variable {m : ModelState} {subjects : UInt8 → Option Gen} {l l' : Ledger UInt8 Nat}
  {gen : UInt8 → Nat → Gen} {key : UInt8} {epoch : Nat} {r : Option Nat}

theorem made (h : Keyed m subjects l gen) (hk : m.keys key = some (.live epoch r)) :
    m.Made key epoch := ⟨epoch, (h.live key epoch r hk).1, le_rfl⟩

theorem liveGen (h : Keyed m subjects l gen) (hk : m.keys key = some (.live epoch r)) :
    l.live key = some (gen key epoch) :=
  (l.live_eq_some_iff key _).mpr ⟨key, (h.live key epoch r hk).2.2.1, beq_self_eq_true key⟩

/-- What the model says about an epoch is what the ledger has for its generation. -/
theorem outcomeOf (h : Keyed m subjects l gen) (hm : m.Made key epoch) :
    m.outcomeOf key epoch = l.outcome (gen key epoch) := by
  have hretired (hne : ∀ r, m.keys key ≠ some (.live epoch r)) :
      (m.retired (key, epoch)).join = l.outcome (gen key epoch) := by
    rw [(h.retired key epoch hm hne).1]
    rfl
  unfold ModelState.outcomeOf
  cases hk : m.keys key with
  | none =>
    rw [ModelState.live_eq_none hk]
    exact hretired fun r => by rw [hk]; exact (Option.some_ne_none _).symm
  | some s =>
    obtain ⟨e, r⟩ := s
    rw [ModelState.live_eq hk]
    show (if e = epoch then r else _) = _
    by_cases he : e = epoch
    · rw [if_pos he, ← he]
      exact (h.live key e r hk).2.2.2.symm
    · rw [if_neg he]
      refine hretired fun r' hk' => he ?_
      rw [hk] at hk'
      cases hk'
      rfl

/-- The key of a generation is live exactly while the model has its epoch live. -/
theorem key_eq_none_iff (h : Keyed m subjects l gen) (hm : m.Made key epoch) :
    l.key (gen key epoch) = none ↔ ∀ r, m.keys key ≠ some (.live epoch r) := by
  constructor
  · intro hnone r hk
    rw [(h.live key epoch r hk).2.2.1] at hnone
    cases hnone
  · intro hne
    exact (h.retired key epoch hm hne).2

/-- The ledger changes its handles only. -/
theorem of_same (h : Keyed m subjects l gen) (hkey : l'.key = l.key) (hout : l'.outcome = l.outcome)
    (hnext : l'.nextGen = l.nextGen) : Keyed m subjects l' gen where
  made_lt k e hm := by
    rw [hnext]
    exact h.made_lt k e hm
  injective := h.injective
  live k e r hk := by
    rw [hkey, hout]
    exact h.live k e r hk
  vacant k hk := by
    rw [l'.live_eq_none_iff, hkey]
    exact (l.live_eq_none_iff k).mp (h.vacant k hk)
  retired k e hm hne := by
    rw [hkey, hout]
    exact h.retired k e hm hne
  value k e v hm hv := by
    rw [hout] at hv
    exact h.value k e v hm hv

def nextEpoch (m : ModelState) (key : UInt8) : Nat := (m.epochs key).elim 0 (· + 1)

def extend (gen : UInt8 → Nat → Gen) (key : UInt8) (epoch : Nat) (g : Gen) : UInt8 → Nat → Gen :=
  Function.update gen key (Function.update (gen key) epoch g)

theorem not_made_nextEpoch : ¬ m.Made key (nextEpoch m key) := by
  intro hm
  obtain ⟨last, hlast, hle⟩ := hm
  simp only [nextEpoch, hlast, Option.elim_some] at hle
  omega

theorem extend_self (g : Gen) : extend gen key epoch g key epoch = g := by simp [extend]

theorem extend_of_made (hm : m.Made key epoch) (k : UInt8) (g : Gen) :
    extend gen k (nextEpoch m k) g key epoch = gen key epoch := by
  unfold extend
  by_cases hk : key = k
  · subst hk
    have hne : epoch ≠ nextEpoch m key := by
      intro heq
      rw [heq] at hm
      exact not_made_nextEpoch hm
    rw [Function.update_self, Function.update_of_ne hne]
  · rw [Function.update_of_ne hk]

theorem register_eq (hk : m.keys key = none) :
    m.register key = ({ m with
      epochs := Function.update m.epochs key (some (nextEpoch m key))
      keys := Function.update m.keys key (some (.live (nextEpoch m key) none)) }, true) := by
  simp [ModelState.register, ModelState.live_eq_none hk, nextEpoch]

/-- An epoch has begun before the registration, or is the one that it begins. -/
theorem made_register_iff (hk : m.keys key = none) (k : UInt8) (e : Nat) :
    (m.register key).1.Made k e ↔ m.Made k e ∨ k = key ∧ e = nextEpoch m key := by
  rw [register_eq hk]
  unfold ModelState.Made
  by_cases hkk : k = key
  · subst hkk
    simp only [Function.update_self, Option.some.injEq, true_and]
    unfold nextEpoch
    cases m.epochs k with
    | none => simp
    | some last =>
      simp only [Option.some.injEq, exists_eq_left', Option.elim_some]
      omega
  · simp [hkk]

/-- A vacant key begins its next epoch, with a generation that has published nothing. -/
theorem register (h : Keyed m subjects l gen) (hk : m.keys key = none)
    (hpending : l.outcome l.nextGen = none) :
    Keyed (m.register key).1 (Function.update subjects key (some l.nextGen))
      (l.register key (h.vacant key hk)) (extend gen key (nextEpoch m key) l.nextGen) := by
  have hmade := made_register_iff (m := m) hk
  have hself : extend gen key (nextEpoch m key) l.nextGen key (nextEpoch m key) = l.nextGen :=
    extend_self l.nextGen
  have hold {k : UInt8} {e : Nat} (hm : m.Made k e) :
      extend gen key (nextEpoch m key) l.nextGen k e = gen k e := extend_of_made hm key l.nextGen
  have hne {k : UInt8} {e : Nat} (hm : m.Made k e) : gen k e ≠ l.nextGen := (h.made_lt k e hm).ne
  have hkeyNew : (l.register key (h.vacant key hk)).key l.nextGen = some key :=
    Function.update_self ..
  have hkeyOld {g : Gen} (hg : g ≠ l.nextGen) :
      (l.register key (h.vacant key hk)).key g = l.key g := Function.update_of_ne hg ..
  have hkeysOld {k : UInt8} (hkk : k ≠ key) : (m.register key).1.keys k = m.keys k := by
    rw [register_eq hk]
    exact Function.update_of_ne hkk ..
  have hkeysNew : (m.register key).1.keys key = some (.live (nextEpoch m key) none) := by
    rw [register_eq hk]
    exact Function.update_self ..
  refine ⟨fun k e hm => ?made_lt, fun k e k' e' hm hm' heq => ?injective, fun k e r hk' => ?live,
    fun k hk' => ?vacant, fun k e hm hnot => ?retired, fun k e v hm hv => ?value⟩
  case made_lt =>
    show _ < l.nextGen + 1
    rcases (hmade k e).mp hm with hm | ⟨rfl, rfl⟩
    · rw [hold hm]
      exact Nat.lt_succ_of_lt (h.made_lt k e hm)
    · rw [hself]
      exact Nat.lt_succ_self _
  case injective =>
    rcases (hmade k e).mp hm with hk₁ | ⟨rfl, rfl⟩
    · rw [hold hk₁] at heq
      rcases (hmade k' e').mp hm' with hk₂ | ⟨rfl, rfl⟩
      · rw [hold hk₂] at heq
        exact h.injective k e k' e' hk₁ hk₂ heq
      · rw [hself] at heq
        exact absurd heq (hne hk₁)
    · rw [hself] at heq
      rcases (hmade k' e').mp hm' with hk₂ | ⟨rfl, rfl⟩
      · rw [hold hk₂] at heq
        exact absurd heq.symm (hne hk₂)
      · exact ⟨rfl, rfl⟩
  case live =>
    by_cases hkk : k = key
    · subst hkk
      rw [hkeysNew] at hk'
      cases hk'
      rw [hself]
      refine ⟨?_, Function.update_self .., hkeyNew, hpending⟩
      rw [register_eq hk]
      exact Function.update_self ..
    · rw [hkeysOld hkk] at hk'
      have hm := h.made hk'
      obtain ⟨hepoch, hsub, hkey, hout⟩ := h.live k e r hk'
      rw [hold hm]
      refine ⟨?_, ?_, ?_, hout⟩
      · rw [register_eq hk]
        exact (Function.update_of_ne hkk ..).trans hepoch
      · rw [Function.update_of_ne hkk, hsub]
      · rw [hkeyOld (hne hm), hkey]
  case vacant =>
    have hkk : k ≠ key := by
      intro hkk
      rw [hkk, hkeysNew] at hk'
      cases hk'
    rw [hkeysOld hkk] at hk'
    rw [Ledger.live_eq_none_iff]
    intro g k' hg
    by_cases hgg : g = l.nextGen
    · rw [hgg, hkeyNew] at hg
      cases hg
      exact beq_eq_false_iff_ne.mpr (Ne.symm hkk)
    · rw [hkeyOld hgg] at hg
      exact (l.live_eq_none_iff k).mp (h.vacant k hk') g k' hg
  case retired =>
    rcases (hmade k e).mp hm with hm | ⟨rfl, rfl⟩
    · have hnot' (r : Option Nat) : m.keys k ≠ some (.live e r) := by
        intro hlive
        have hkk : k ≠ key := by
          intro hkk
          rw [hkk, hk] at hlive
          cases hlive
        exact hnot r ((hkeysOld hkk).trans hlive)
      obtain ⟨hret, hkey⟩ := h.retired k e hm hnot'
      rw [hold hm, hkeyOld (hne hm), register_eq hk]
      exact ⟨hret, hkey⟩
    · exact absurd hkeysNew (hnot none)
  case value =>
    rcases (hmade k e).mp hm with hm | ⟨rfl, rfl⟩
    · rw [hold hm] at hv
      exact h.value k e v hm hv
    · rw [hself] at hv
      have hnone : l.outcome l.nextGen = some v := hv
      rw [hpending] at hnone
      cases hnone

/-- A live epoch completes with the model's value. -/
theorem complete (h : Keyed m subjects l gen) (hk : m.keys key = some (.live epoch r)) :
    let value := ModelState.outcomeValue key epoch
    Keyed { m with keys := Function.update m.keys key (some (.live epoch (some value))) } subjects
      { l with outcome := Function.update l.outcome (gen key epoch) (some value) } gen := by
  intro value
  have hmk := h.made hk
  have hinj {k : UInt8} {e : Nat} (hm : m.Made k e) (hg : gen k e = gen key epoch) :
      k = key ∧ e = epoch := h.injective k e key epoch hm hmk hg
  -- the outcome of one generation changes, and it is the generation of this epoch alone
  refine ⟨h.made_lt, h.injective, fun k e r' hk' => ?live, fun k hk' => ?vacant,
    fun k e hm hnot => ?retired, fun k e v hm hv => ?value⟩
  case live =>
    rcases eq_or_of_insert hk' with ⟨rfl, hnew⟩ | ⟨hkk, hold⟩
    · cases hnew
      obtain ⟨hepoch, hsub, hkey, -⟩ := h.live k epoch r hk
      exact ⟨hepoch, hsub, hkey, Function.update_self ..⟩
    · obtain ⟨hepoch, hsub, hkey, hout⟩ := h.live k e r' hold
      refine ⟨hepoch, hsub, hkey, ?_⟩
      have hg : gen k e ≠ gen key epoch := fun hg => hkk (hinj (h.made hold) hg).1
      exact (Function.update_of_ne hg ..).trans hout
  case vacant =>
    have hkk : k ≠ key := by
      intro hkk
      simp [hkk] at hk'
    exact h.vacant k (by simpa [hkk] using hk')
  case retired =>
    have hg : gen k e ≠ gen key epoch := by
      intro hg
      obtain ⟨rfl, rfl⟩ := hinj hm hg
      exact hnot (some value) (Function.update_self ..)
    have hnot' (r' : Option Nat) : m.keys k ≠ some (.live e r') := by
      intro hlive
      by_cases hkk : k = key
      · subst hkk
        rw [hk] at hlive
        cases hlive
        exact hg rfl
      · exact hnot r' ((Function.update_of_ne hkk ..).trans hlive)
    obtain ⟨hret, hkey⟩ := h.retired k e hm hnot'
    refine ⟨?_, hkey⟩
    show m.retired (k, e) = some (Function.update l.outcome (gen key epoch) (some value) (gen k e))
    rw [Function.update_of_ne hg, hret]
  case value =>
    have hv' : Function.update l.outcome (gen key epoch) (some value) (gen k e) = some v := hv
    by_cases hg : gen k e = gen key epoch
    · obtain ⟨rfl, rfl⟩ := hinj hm hg
      rw [Function.update_self] at hv'
      exact (Option.some.inj hv').symm
    · rw [Function.update_of_ne hg] at hv'
      exact h.value k e v hm hv'

/-- A live epoch retires, with the outcome that it has. -/
theorem retire (h : Keyed m subjects l gen) (hk : m.keys key = some (.live epoch r)) :
    Keyed (m.retire key) (Function.update subjects key none) (l.retire (gen key epoch)) gen := by
  have hmk := h.made hk
  have hretire : m.retire key = { m with
      keys := Function.update m.keys key none
      retired := Function.update m.retired (key, epoch) (some r) } := by
    simp [ModelState.retire, hk]
  have hkeyOld {g : Gen} (hg : g ≠ gen key epoch) :
      (l.retire (gen key epoch)).key g = l.key g := Function.update_of_ne hg ..
  have hinj {k : UInt8} {e : Nat} (hm : m.Made k e) (hg : gen k e = gen key epoch) :
      k = key ∧ e = epoch := h.injective k e key epoch hm hmk hg
  rw [hretire]
  refine ⟨h.made_lt, h.injective, fun k e r' hk' => ?live, fun k hk' => ?vacant,
    fun k e hm hnot => ?retired, h.value⟩
  case live =>
    obtain ⟨hkk, hold⟩ := of_remove hk'
    obtain ⟨hepoch, hsub, hkey, hout⟩ := h.live k e r' hold
    refine ⟨hepoch, ?_, ?_, hout⟩
    · rw [Function.update_of_ne hkk, hsub]
    · rw [hkeyOld fun hg => hkk (hinj (h.made hold) hg).1, hkey]
  case vacant =>
    rw [Ledger.live_eq_none_iff]
    intro g k' hg
    have hgne : g ≠ gen key epoch := by
      intro hgg
      have hnone : (l.retire (gen key epoch)).key (gen key epoch) = none :=
        Function.update_self ..
      rw [hgg, hnone] at hg
      cases hg
    rw [hkeyOld hgne] at hg
    by_cases hkk : k = key
    · -- no other generation has the key
      by_contra hbeq
      have hlive : l.live k = some g :=
        (l.live_eq_some_iff k g).mpr ⟨k', hg, by simpa using hbeq⟩
      rw [hkk, h.liveGen hk] at hlive
      exact hgne (Option.some.inj hlive).symm
    · exact (l.live_eq_none_iff k).mp (h.vacant k (by simpa [hkk] using hk')) g k' hg
  case retired =>
    -- the epoch that retires now, or one that had retired before
    by_cases hg : gen k e = gen key epoch
    · obtain ⟨rfl, rfl⟩ := hinj hm hg
      refine ⟨?_, Function.update_self ..⟩
      show Function.update m.retired (k, e) (some r) (k, e) = some (l.outcome (gen k e))
      rw [Function.update_self, (h.live k e r hk).2.2.2]
    · have hnot' (r' : Option Nat) : m.keys k ≠ some (.live e r') := by
        intro hlive
        by_cases hkk : k = key
        · subst hkk
          rw [hk] at hlive
          cases hlive
          exact hg rfl
        · exact hnot r' ((Function.update_of_ne hkk ..).trans hlive)
      obtain ⟨hret, hkey⟩ := h.retired k e hm hnot'
      have hpair : (k, e) ≠ (key, epoch) := by
        intro heq
        cases heq
        exact hg rfl
      rw [hkeyOld hg]
      exact ⟨(Function.update_of_ne hpair ..).trans hret, hkey⟩

end Keyed

/-! ## Handles -/

/-- A table of the harness has exactly the ledger's records. -/
structure Tracks {α : Type} (name : α → Nat) (key : α → UInt8) (epoch : α → Nat) (m : ModelState)
    (gen : UInt8 → Nat → Gen) (next : Nat) (table : Nat → Option α) (records : Nat → Option Gen) :
    Prop where
  fresh : ∀ id, next ≤ id → table id = none
  made : ∀ id x, table id = some x → m.Made (key x) (epoch x)
  record : ∀ id x, table id = some x → records (name x) = some (gen (key x) (epoch x))
  unique : ∀ id id' x y, table id = some x → table id' = some y → name x = name y → id = id'
  all : ∀ o g, records o = some g → ∃ id x, table id = some x ∧ name x = o

namespace Tracks

variable {α : Type} {name : α → Nat} {key : α → UInt8} {epoch : α → Nat} {m m' : ModelState}
  {gen gen' : UInt8 → Nat → Gen} {next : Nat} {table : Nat → Option α} {records : Nat → Option Gen}
  {id : Nat} {x : α}

/-- Epochs keep their generations. -/
theorem mono (h : Tracks name key epoch m gen next table records)
    (hmade : ∀ k e, m.Made k e → m'.Made k e ∧ gen' k e = gen k e) :
    Tracks name key epoch m' gen' next table records where
  fresh := h.fresh
  made id x hx := (hmade _ _ (h.made id x hx)).1
  record id x hx := by
    rw [(hmade _ _ (h.made id x hx)).2]
    exact h.record id x hx
  unique := h.unique
  all := h.all

theorem later (h : Tracks name key epoch m gen next table records) :
    Tracks name key epoch m gen (next + 1) table records :=
  ⟨fun id hid => h.fresh id (Nat.le_of_succ_le hid), h.made, h.record, h.unique, h.all⟩

theorem insert (h : Tracks name key epoch m gen next table records) {next' : Nat}
    (hid : table id = none) (hlt : id < next') (hnext : next ≤ next')
    (hmade : m.Made (key x) (epoch x)) (hnew : records (name x) = none) :
    Tracks name key epoch m gen next' (Function.update table id (some x))
      (Function.update records (name x) (some (gen (key x) (epoch x)))) := by
  have hcases {id' : Nat} {y : α} (hy : Function.update table id (some x) id' = some y) :
      id' = id ∧ y = x ∨ id' ≠ id ∧ table id' = some y ∧ name y ≠ name x := by
    rcases eq_or_of_insert hy with hsame | ⟨hii, hold⟩
    · exact .inl hsame
    · refine .inr ⟨hii, hold, fun hname => ?_⟩
      have hrec := h.record id' y hold
      rw [hname, hnew] at hrec
      cases hrec
  refine ⟨fun id' hge => ?_, fun id' y hy => ?_, fun id' y hy => ?_,
    fun id₁ id₂ y z hy hz hname => ?_, fun o g ho => ?_⟩
  · rw [Function.update_of_ne (by omega)]
    exact h.fresh id' (by omega)
  · rcases hcases hy with ⟨-, rfl⟩ | ⟨-, hold, -⟩
    · exact hmade
    · exact h.made id' y hold
  · rcases hcases hy with ⟨-, rfl⟩ | ⟨-, hold, hname⟩
    · exact Function.update_self ..
    · rw [Function.update_of_ne hname]
      exact h.record id' y hold
  · rcases hcases hy with ⟨rfl, rfl⟩ | ⟨-, hy', hny⟩
    · rcases hcases hz with ⟨rfl, -⟩ | ⟨-, -, hnz⟩
      · rfl
      · exact absurd hname.symm hnz
    · rcases hcases hz with ⟨-, rfl⟩ | ⟨-, hz', -⟩
      · exact absurd hname hny
      · exact h.unique id₁ id₂ y z hy' hz' hname
  · by_cases hox : o = name x
    · exact ⟨id, x, Function.update_self .., hox.symm⟩
    · rw [Function.update_of_ne hox] at ho
      obtain ⟨id', y, hy, hname⟩ := h.all o g ho
      have hii : id' ≠ id := by
        intro hii
        rw [hii, hid] at hy
        cases hy
      exact ⟨id', y, by rwa [Function.update_of_ne hii], hname⟩

theorem remove (h : Tracks name key epoch m gen next table records) (hx : table id = some x) :
    Tracks name key epoch m gen next (Function.update table id none)
      (Function.update records (name x) none) := by
  have hcases {id' : Nat} {y : α} (hy : Function.update table id none id' = some y) :
      id' ≠ id ∧ table id' = some y ∧ name y ≠ name x := by
    obtain ⟨hii, hold⟩ := of_remove hy
    exact ⟨hii, hold, fun hname => hii (h.unique id' id y x hold hx hname)⟩
  refine ⟨fun id' hge => ?_, fun id' y hy => ?_, fun id' y hy => ?_,
    fun id₁ id₂ y z hy hz hname => ?_, fun o g ho => ?_⟩
  · by_cases hii : id' = id
    · rw [hii, Function.update_self]
    · rw [Function.update_of_ne hii]
      exact h.fresh id' hge
  · exact h.made id' y (hcases hy).2.1
  · rw [Function.update_of_ne (hcases hy).2.2]
    exact h.record id' y (hcases hy).2.1
  · exact h.unique id₁ id₂ y z (hcases hy).2.1 (hcases hz).2.1 hname
  · obtain ⟨hox, hold⟩ := of_remove ho
    obtain ⟨id', y, hy, hname⟩ := h.all o g hold
    have hii : id' ≠ id := by
      intro hii
      rw [hii, hx] at hy
      cases hy
      exact hox hname.symm
    exact ⟨id', y, by rwa [Function.update_of_ne hii], hname⟩

/-- An entry is replaced by one for the same record. -/
theorem replace (h : Tracks name key epoch m gen next table records) (hx : table id = some x)
    {y : α} (hname : name y = name x) (hkey : key y = key x) (hepoch : epoch y = epoch x) :
    Tracks name key epoch m gen next (Function.update table id (some y)) records := by
  have hlt : id < next := by
    by_contra hge
    rw [h.fresh id (not_lt.mp hge)] at hx
    cases hx
  have hrec := h.record id x hx
  have hfree : Function.update table id none id = none := Function.update_self ..
  have hins := (h.remove hx).insert (x := y) hfree hlt le_rfl
    (by rw [hkey, hepoch]; exact h.made id x hx) (by rw [hname]; exact Function.update_self ..)
  rw [hname, hkey, hepoch, Function.update_idem, Function.update_idem, ← hrec,
    Function.update_eq_self] at hins
  exact hins

/-- The values of the table. -/
theorem mem_values_iff (h : Tracks name key epoch m gen next table records) :
    x ∈ (List.range next).filterMap table ↔ ∃ id, table id = some x := by
  rw [List.mem_filterMap]
  constructor
  · intro hmem
    obtain ⟨id, -, hid⟩ := hmem
    exact ⟨id, hid⟩
  · intro hid
    obtain ⟨id, hid⟩ := hid
    refine ⟨id, List.mem_range.mpr ?_, hid⟩
    by_contra hge
    rw [h.fresh id (not_lt.mp hge)] at hid
    cases hid

/-- The table has no handle of an epoch exactly when the ledger has none of its generation. -/
theorem countP_eq_zero_iff (h : Tracks name key epoch m gen next table records)
    (hinj : ∀ k e k' e', m.Made k e → m.Made k' e' → gen k e = gen k' e' → k = k' ∧ e = e')
    {k : UInt8} {e : Nat} (hm : m.Made k e) :
    ((List.range next).filterMap table).countP (fun y => key y = k ∧ epoch y = e) = 0 ↔
      ∀ o, records o ≠ some (gen k e) := by
  rw [List.countP_eq_zero]
  constructor
  · intro hnone o ho
    obtain ⟨id, y, hy, hname⟩ := h.all o (gen k e) ho
    have hrec := h.record id y hy
    rw [hname, ho] at hrec
    have hsame := hinj k e (key y) (epoch y) hm (h.made id y hy) (Option.some.inj hrec)
    refine hnone y (h.mem_values_iff.mpr ⟨id, hy⟩) ?_
    simp [hsame.1, hsame.2]
  · intro hnone y hmem hsame
    obtain ⟨id, hy⟩ := h.mem_values_iff.mp hmem
    have hrec := h.record id y hy
    obtain ⟨hk, he⟩ : key y = k ∧ epoch y = e := by simpa using hsame
    rw [hk, he] at hrec
    exact hnone (name y) hrec

end Tracks

end Observe.Reference
