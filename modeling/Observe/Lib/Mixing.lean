import Mathlib.Logic.Function.Basic
import Mathlib.Logic.ExistsUnique

/-!
# Mixing steps

A hash that takes its input word by word.  When a step loses neither the state nor the word, a
difference in one word is still seen at the end, and any other beginning is made up for by exactly
one word.
-/

namespace Observe.Lib

variable {σ α : Type*} {f : σ → α → σ}

/-- A step that loses nothing of the state, and makes every state of any other by one word. -/
structure Mixing (f : σ → α → σ) : Prop where
  state : ∀ a, Function.Injective fun s => f s a
  word : ∀ s, Function.Bijective (f s)

namespace Mixing

/-- A run of mixing steps loses nothing of the state. -/
theorem foldl_injective (h : Mixing f) (l : List α) : Function.Injective (l.foldl f) := by
  induction l with
  | nil => exact fun _ _ heq => heq
  | cons a l ih =>
    intro s s' heq
    exact h.state a (ih heq)

/-- One changed word changes the hash. -/
theorem foldl_ne (h : Mixing f) (s : σ) (l r : List α) {a b : α} (hab : a ≠ b) :
    (l ++ a :: r).foldl f s ≠ (l ++ b :: r).foldl f s := by
  intro heq
  rw [List.foldl_append, List.foldl_append] at heq
  exact hab ((h.word _).injective (h.foldl_injective r heq))

/-- Behind any beginning exactly one word leads to a given hash. -/
theorem existsUnique_foldl (h : Mixing f) (s s' : σ) (l r : List α) :
    ∃! b, (l ++ b :: r).foldl f s' = r.foldl f s := by
  obtain ⟨b, hb⟩ := (h.word (l.foldl f s')).surjective s
  refine ⟨b, ?_, fun c hc => ?_⟩
  · show (l ++ b :: r).foldl f s' = r.foldl f s
    rw [List.foldl_append, List.foldl_cons, hb]
  · have hc' : (l ++ c :: r).foldl f s' = r.foldl f s := hc
    rw [List.foldl_append, List.foldl_cons] at hc'
    apply (h.word (l.foldl f s')).injective
    rw [hb]
    exact h.foldl_injective r hc'

end Mixing

end Observe.Lib
