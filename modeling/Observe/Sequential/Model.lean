import Observe.Sequential.Exec

/-!
# What a space is for

The program without slots, pool, table and counts: each key has at most one live generation, each
generation has an outcome or none, and each observation and each future remembers the generation
that it has captured.
-/

namespace Observe

variable {K O W : Type} [Key K]

structure Ledger (K O : Type) [Key K] where
  /-- The key of a generation while its `Subject` exists. -/
  key : Gen → Option K
  outcome : Gen → Option O
  obs : ObsId → Option Gen
  futs : FutId → Option Gen
  nextGen : Gen
  nextObs : ObsId
  nextFut : FutId
  oneLive : ∀ g g' k k', key g = some k → key g' = some k' → (k == k') = true → g = g'
  unmade : ∀ g, nextGen ≤ g → key g = none

namespace Ledger

def new : Ledger K O where
  key _ := none
  outcome _ := none
  obs _ := none
  futs _ := none
  nextGen := 1
  nextObs := 0
  nextFut := 0
  oneLive := nofun
  unmade _ _ := rfl

def live (l : Ledger K O) (k : K) : Option Gen :=
  (List.range l.nextGen).find? fun g => (l.key g).any (· == k)

theorem live_eq_some_iff (l : Ledger K O) (k : K) (g : Gen) :
    l.live k = some g ↔ ∃ k', l.key g = some k' ∧ (k' == k) = true := by
  constructor
  · intro hlive
    have hfound := List.find?_some hlive
    simpa [Option.any_eq_true] using hfound
  · rintro ⟨k', hg, hk⟩
    have hmem : g ∈ List.range l.nextGen := by
      rw [List.mem_range]
      by_contra hge
      rw [l.unmade g (not_lt.mp hge)] at hg
      cases hg
    cases hlive : l.live k with
    | none =>
      have hnone := List.find?_eq_none.mp hlive g hmem
      simp [hg, hk] at hnone
    | some g' =>
      have hfound := List.find?_some hlive
      obtain ⟨k₀, hg', hk₀⟩ := (Option.any_eq_true _ _).mp hfound
      rw [l.oneLive g g' k' k₀ hg hg' (BEq.trans hk (BEq.symm hk₀))]

theorem live_eq_none_iff (l : Ledger K O) (k : K) :
    l.live k = none ↔ ∀ g k', l.key g = some k' → (k' == k) = false := by
  constructor
  · intro hnone g k' hg
    by_contra hk
    have hlive := (l.live_eq_some_iff k g).mpr ⟨k', hg, by simpa using hk⟩
    rw [hnone] at hlive
    cases hlive
  · intro hall
    by_contra hsome
    obtain ⟨g, hlive⟩ := Option.ne_none_iff_exists'.mp hsome
    obtain ⟨k', hg, hk⟩ := (l.live_eq_some_iff k g).mp hlive
    rw [hall g k' hg] at hk
    cases hk

/-! ## The calls -/

def register (l : Ledger K O) (k : K) (hv : l.live k = none) : Ledger K O where
  key := Function.update l.key l.nextGen (some k)
  outcome := l.outcome
  obs := l.obs
  futs := l.futs
  nextGen := l.nextGen + 1
  nextObs := l.nextObs
  nextFut := l.nextFut
  oneLive g g' k₁ k₂ h₁ h₂ hk := by
    have hvacant := (l.live_eq_none_iff k).mp hv
    by_cases hg : g = l.nextGen
    · by_cases hg' : g' = l.nextGen
      · rw [hg, hg']
      · rw [hg, Function.update_self] at h₁
        rw [Function.update_of_ne hg'] at h₂
        cases h₁
        have hk' := BEq.symm hk
        rw [hvacant g' k₂ h₂] at hk'
        cases hk'
    · rw [Function.update_of_ne hg] at h₁
      by_cases hg' : g' = l.nextGen
      · rw [hg', Function.update_self] at h₂
        cases h₂
        rw [hvacant g k₁ h₁] at hk
        cases hk
      · rw [Function.update_of_ne hg'] at h₂
        exact l.oneLive g g' k₁ k₂ h₁ h₂ hk
  unmade g hg := by
    have hlt : l.nextGen < g := hg
    rw [Function.update_of_ne hlt.ne']
    exact l.unmade g hlt.le

def retire (l : Ledger K O) (g : Gen) : Ledger K O where
  key := Function.update l.key g none
  outcome := l.outcome
  obs := l.obs
  futs := l.futs
  nextGen := l.nextGen
  nextObs := l.nextObs
  nextFut := l.nextFut
  oneLive g₁ g₂ k₁ k₂ h₁ h₂ hk := by
    have hold (g' : Gen) (k : K) (h : Function.update l.key g none g' = some k) :
        l.key g' = some k := by
      by_cases hg : g' = g
      · simp [hg] at h
      · rwa [Function.update_of_ne hg] at h
    exact l.oneLive g₁ g₂ k₁ k₂ (hold g₁ k₁ h₁) (hold g₂ k₂ h₂) hk
  unmade g' hg := by
    by_cases hgg : g' = g
    · simp [hgg]
    · rw [Function.update_of_ne hgg]
      exact l.unmade g' hg

def capture (l : Ledger K O) (g : Gen) : Ledger K O :=
  { l with obs := Function.update l.obs l.nextObs (some g), nextObs := l.nextObs + 1 }

/-- `o` is all that is left of generation `g`: its subject is gone, and no other observation and no
future of it exists. -/
def Sole (l : Ledger K O) (o : ObsId) (g : Gen) : Prop :=
  l.key g = none ∧ (∀ o' < l.nextObs, l.obs o' = some g → o' = o) ∧
    ∀ f < l.nextFut, l.futs f ≠ some g

instance decidableSole (l : Ledger K O) (o : ObsId) (g : Gen) : Decidable (l.Sole o g) :=
  inferInstanceAs (Decidable (_ ∧ _ ∧ _))

def exec (l : Ledger K O) : Op K O W → Ledger K O × Res K O
  | .subject k =>
    if hv : l.live k = none then (l.register k hv, .subject (.ok l.nextGen))
    else (l, .subject (.subjectExists k))
  | .complete g v =>
    match l.key g, l.outcome g with
    | some _, none => ({ l with outcome := Function.update l.outcome g (some v) }, .done)
    | _, _ => (l, .noHandle)
  | .observe k =>
    match l.live k with
    | some g => (l.capture g, .observe (some l.nextObs))
    | none => (l, .observe none)
  | .cloneObs o =>
    match l.obs o with
    | some g => (l.capture g, .done)
    | none => (l, .noHandle)
  | .tryGet o =>
    match l.obs o with
    | some g => (l, .outcome (l.outcome g))
    | none => (l, .noHandle)
  | .registerWaker o _ =>
    match l.obs o with
    | some g => (l, .registered (l.outcome g).isSome)
    | none => (l, .noHandle)
  | .intoFuture o =>
    match l.obs o with
    | some g =>
      ({ l with
        obs := Function.update l.obs o none
        futs := Function.update l.futs l.nextFut (some g)
        nextFut := l.nextFut + 1 }, .done)
    | none => (l, .noHandle)
  | .poll f _ =>
    match l.futs f with
    | some g => (l, .polled ((l.outcome g).elim .pending .ready))
    | none => (l, .noHandle)
  | .intoOutcome o =>
    match l.obs o with
    | some g =>
      ({ l with obs := Function.update l.obs o none },
        .outcome (if l.Sole o g then l.outcome g else none))
    | none => (l, .noHandle)
  | .dropObs o =>
    match l.obs o with
    | some _ => ({ l with obs := Function.update l.obs o none }, .done)
    | none => (l, .noHandle)
  | .dropFuture f =>
    match l.futs f with
    | some _ => ({ l with futs := Function.update l.futs f none }, .done)
    | none => (l, .noHandle)
  | .dropSubject g =>
    match l.key g with
    | some _ => (l.retire g, .done)
    | none => (l, .noHandle)

def run (l : Ledger K O) : List (Op K O W) → Ledger K O × List (Res K O)
  | [] => (l, [])
  | op :: ops => (((l.exec op).1.run ops).1, (l.exec op).2 :: ((l.exec op).1.run ops).2)

/-! ## What can be counted -/

def futures (l : Ledger K O) (g : Gen) : Finset FutId :=
  (Finset.range l.nextFut).filter fun f => l.futs f = some g

/-- What the program can count.  The counter of `bits` bits is not exhausted; and the futures of one
generation hold handles of one slot, which `Arc` counts in a `usize`. -/
structure Fits (l : Ledger K O) (bits : Nat) : Prop where
  generations : l.nextGen < 2 ^ bits
  futures : ∀ g < l.nextGen, (l.futures g).card ≤ usizeMax

/-- The program stays countable all along a sequence of calls. -/
def Bounded (l : Ledger K O) (bits : Nat) : List (Op K O W) → Prop
  | [] => l.Fits bits
  | op :: ops => l.Fits bits ∧ (l.exec op).1.Bounded bits ops

instance decidableFits (l : Ledger K O) (bits : Nat) : Decidable (l.Fits bits) :=
  decidable_of_iff (l.nextGen < 2 ^ bits ∧ ∀ g < l.nextGen, (l.futures g).card ≤ usizeMax)
    ⟨fun h => ⟨h.1, h.2⟩, fun h => ⟨h.generations, h.futures⟩⟩

instance decidableBounded (l : Ledger K O) (bits : Nat) :
    (ops : List (Op K O W)) → Decidable (l.Bounded bits ops)
  | [] => decidableFits l bits
  | op :: ops =>
    haveI : Decidable ((l.exec op).1.Bounded bits ops) := decidableBounded (l.exec op).1 bits ops
    inferInstanceAs (Decidable (_ ∧ _))

end Ledger

end Observe
