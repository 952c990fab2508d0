import Mathlib.Logic.Relation
import Mathlib.Tactic.ByContra

/-!
# Transition systems

Safety over all interleavings is an invariant argument: a property holds initially and every step
keeps it.  The runs below also carry the exact-condition rule: when a property fails only right
after a step of one bad kind, it holds along a run exactly when the run takes no such step.  What a
property says about the past is recorded in a history variable, which no step reads.
-/

namespace Observe.Lib

/-- Initial states and atomic steps. -/
structure System (σ : Type*) where
  init : σ → Prop
  step : σ → σ → Prop

namespace System

variable {σ : Type*} {S : System σ}

inductive Reachable (S : System σ) : σ → Prop
  | init {s : σ} : S.init s → Reachable S s
  | step {s s' : σ} : Reachable S s → S.step s s' → Reachable S s'

structure Inductive (S : System σ) (I : σ → Prop) : Prop where
  init : ∀ s, S.init s → I s
  step : ∀ s s', I s → S.step s s' → I s'

theorem Inductive.reachable {I : σ → Prop} (h : S.Inductive I) {s : σ} (hs : S.Reachable s) :
    I s := by
  induction hs with
  | init hi => exact h.init _ hi
  | step _ hst ih => exact h.step _ _ ih hst

theorem Reachable.trans {s s' : σ} (hs : S.Reachable s) (h : Relation.ReflTransGen S.step s s') :
    S.Reachable s' := by
  induction h with
  | refl => exact hs
  | tail _ hst ih => exact ih.step hst

/-! ## Runs -/

/-- A finite run, newest state first. -/
inductive Run (S : System σ) : List σ → Prop
  | init {s : σ} : S.init s → Run S [s]
  | step {s s' : σ} {l : List σ} : Run S (s :: l) → S.step s s' → Run S (s' :: s :: l)

def Steps (P : σ → σ → Prop) : List σ → Prop
  | s' :: s :: l => P s s' ∧ Steps P (s :: l)
  | _ => True

theorem Run.reachable {l : List σ} (hr : S.Run l) : ∀ s ∈ l, S.Reachable s := by
  induction hr with
  | init hi => simpa using Reachable.init hi
  | step _ hst ih =>
    intro x hx
    rcases List.mem_cons.mp hx with rfl | hx
    · exact (ih _ List.mem_cons_self).step hst
    · exact ih x hx

/-- The last state of a run whose steps all satisfy `P` meets an invariant of those steps. -/
theorem Run.invariant {I : σ → Prop} {P : σ → σ → Prop} (h0 : ∀ s, S.init s → I s)
    (h1 : ∀ s s', I s → S.step s s' → P s s' → I s') {l : List σ} (hr : S.Run l)
    (hP : Steps P l) : ∀ s ∈ l, I s := by
  induction hr with
  | init hi => simpa using h0 _ hi
  | step _ hst ih =>
    intro x hx
    rcases List.mem_cons.mp hx with rfl | hx
    · exact h1 _ _ (ih hP.2 _ List.mem_cons_self) hst hP.1
    · exact ih hP.2 x hx

/-- **Exact condition.** `I` is kept by the steps that satisfy `P` and implies `Q`, and a step from
`I` that breaks `P` leaves a state without `Q`: then `Q` holds all along a run exactly when every
step of the run satisfies `P`. -/
theorem Run.forall_iff_steps {I Q : σ → Prop} {P : σ → σ → Prop} (h0 : ∀ s, S.init s → I s)
    (h1 : ∀ s s', I s → S.step s s' → P s s' → I s') (hQ : ∀ s, I s → Q s)
    (hbad : ∀ s s', I s → S.step s s' → ¬ P s s' → ¬ Q s') {l : List σ} (hr : S.Run l) :
    (∀ s ∈ l, Q s) ↔ Steps P l := by
  constructor
  · intro hall
    induction hr with
    | init => trivial
    | @step s s' l hrun hst ih =>
      have hsteps : Steps P (s :: l) := ih fun x hx => hall x (List.mem_cons_of_mem _ hx)
      refine ⟨?_, hsteps⟩
      by_contra hnP
      have hI : I s := hrun.invariant h0 h1 hsteps s List.mem_cons_self
      exact hbad s s' hI hst hnP (hall s' List.mem_cons_self)
  · intro hsteps s hs
    exact hQ s (hr.invariant h0 h1 hsteps s hs)

/-! ## Ranks -/

/-- Along some steps by `r`, `n` are of the kind `own`. -/
inductive Count (r own : σ → σ → Prop) : Nat → σ → σ → Prop
  | refl (a : σ) : Count r own 0 a a
  | own {n : Nat} {a b c : σ} : Count r own n a b → r b c → own b c → Count r own (n + 1) a c
  | other {n : Nat} {a b c : σ} : Count r own n a b → r b c → ¬ own b c → Count r own n a c

/-- **Rank rule.** A rank that every step of one kind lowers, and no other step raises, bounds how
many steps of that kind there are. -/
theorem Count.add_rank_le {r own : σ → σ → Prop} {I : σ → Prop} {ρ : σ → Nat}
    (hI : ∀ a b, I a → r a b → I b) (hown : ∀ a b, I a → r a b → own a b → ρ b < ρ a)
    (hother : ∀ a b, I a → r a b → ¬ own a b → ρ b ≤ ρ a) {n : Nat} {a b : σ}
    (h : Count r own n a b) (ha : I a) : I b ∧ n + ρ b ≤ ρ a := by
  induction h with
  | refl => exact ⟨ha, by omega⟩
  | own _ hr ho ih =>
    obtain ⟨hb, hle⟩ := ih ha
    have hlt := hown _ _ hb hr ho
    exact ⟨hI _ _ hb hr, by omega⟩
  | other _ hr ho ih =>
    obtain ⟨hb, hle⟩ := ih ha
    have hle' := hother _ _ hb hr ho
    exact ⟨hI _ _ hb hr, by omega⟩

/-! ## Simulation -/

/-- Along `R`, `A` does what `S` does: one step of `S` is one step of `A`, or none. -/
structure Simulates {α : Type*} (A : System α) (S : System σ) (R : σ → α → Prop) : Prop where
  init : ∀ s, S.init s → ∃ a, A.init a ∧ R s a
  step : ∀ s s' a, S.Reachable s → R s a → S.step s s' → R s' a ∨ ∃ a', A.step a a' ∧ R s' a'

namespace Simulates

variable {α : Type*} {A : System α} {R : σ → α → Prop}

/-- Every state of `S` is shown by one of `A`. -/
theorem reachable (h : A.Simulates S R) {s : σ} (hs : S.Reachable s) :
    ∃ a, A.Reachable a ∧ R s a := by
  induction hs with
  | init hi =>
    obtain ⟨a, ha, hR⟩ := h.init _ hi
    exact ⟨a, .init ha, hR⟩
  | step hs hst ih =>
    obtain ⟨a, ha, hR⟩ := ih
    rcases h.step _ _ a hs hR hst with hR' | ⟨a', hst', hR'⟩
    · exact ⟨a, ha, hR'⟩
    · exact ⟨a', ha.step hst', hR'⟩

/-- A run that goes on in `S` goes on in `A`. -/
theorem run (h : A.Simulates S R) {s s' : σ} {a : α} (hs : S.Reachable s) (hR : R s a)
    (hrun : Relation.ReflTransGen S.step s s') :
    ∃ a', Relation.ReflTransGen A.step a a' ∧ R s' a' := by
  induction hrun with
  | refl => exact ⟨a, .refl, hR⟩
  | tail hrun hst ih =>
    obtain ⟨a', ha', hR'⟩ := ih
    rcases h.step _ _ a' (hs.trans hrun) hR' hst with hR'' | ⟨a'', hst', hR''⟩
    · exact ⟨a', ha', hR''⟩
    · exact ⟨a'', ha'.tail hst', hR''⟩

end Simulates

/-! ## History variables -/

section Recording

variable {α : Type*} {a₀ : α} {note : σ → σ → α → α}

/-- The system with a record of its past, which starts as `a₀` and which every step continues by
`note`. -/
def recording (S : System σ) (a₀ : α) (note : σ → σ → α → α) : System (σ × α) where
  init x := S.init x.1 ∧ x.2 = a₀
  step x x' := S.step x.1 x'.1 ∧ x'.2 = note x.1 x'.1 x.2

/-- Forgetting the record of a run leaves a run. -/
theorem Reachable.forget {x : σ × α} (h : (S.recording a₀ note).Reachable x) :
    S.Reachable x.1 := by
  induction h with
  | init hi => exact .init hi.1
  | step _ hs ih => exact ih.step hs.1

theorem Reachable.start {s : σ} (h : S.init s) : (S.recording a₀ note).Reachable (s, a₀) :=
  .init ⟨h, rfl⟩

theorem Reachable.record {s s' : σ} {a : α} (h : (S.recording a₀ note).Reachable (s, a))
    (hs : S.step s s') : (S.recording a₀ note).Reachable (s', note s s' a) :=
  h.step ⟨hs, rfl⟩

theorem Run.record {s s' : σ} {a : α} {l : List (σ × α)}
    (h : (S.recording a₀ note).Run ((s, a) :: l)) (hs : S.step s s') :
    (S.recording a₀ note).Run ((s', note s s' a) :: (s, a) :: l) :=
  h.step ⟨hs, rfl⟩

/-- An invariant of states and records, where the states are known to be reachable. -/
theorem Reachable.recorded_invariant {I : σ → α → Prop} (h₀ : ∀ s, S.init s → I s a₀)
    (h₁ : ∀ s s' a, S.Reachable s → I s a → S.step s s' → I s' (note s s' a)) {x : σ × α}
    (h : (S.recording a₀ note).Reachable x) : I x.1 x.2 := by
  induction h with
  | @init x hi =>
    rw [hi.2]
    exact h₀ x.1 hi.1
  | @step x x' hx hs ih =>
    rw [hs.2]
    exact h₁ _ _ _ hx.forget ih hs.1

end Recording

end System

end Observe.Lib
