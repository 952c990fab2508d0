import Mathlib.Data.Finset.Card
import Mathlib.Logic.Function.Basic

/-!
# Exact reference counts

Objects shared by counted handles: each holder has a handle to at most one object, and the count of
an object is the number of its holders.  The structure carries that proof, so a count never drifts
from the handles that exist.
-/

namespace Observe.Lib

/-- Which object each holder has a handle to, with the holders of every object. -/
structure Handles (X I : Type*) where
  of : X → Option I
  holders : I → Finset X
  mem_holders : ∀ x i, x ∈ holders i ↔ of x = some i

namespace Handles

variable {X I : Type*}

def empty : Handles X I where
  of _ := none
  holders _ := ∅
  mem_holders x i := by simp

def count (h : Handles X I) (i : I) : Nat := (h.holders i).card

def Held (h : Handles X I) (i : I) : Prop := ∃ x, h.of x = some i

/-- Nobody but these has a handle to `i`, and somebody has. -/
def HeldWithin (h : Handles X I) (xs : List X) (i : I) : Prop :=
  h.Held i ∧ ∀ x, h.of x = some i → x ∈ xs

/-- Nobody has a handle exactly when the count is zero. -/
theorem count_eq_zero_iff (h : Handles X I) (i : I) : h.count i = 0 ↔ ∀ x, h.of x ≠ some i := by
  unfold count
  rw [Finset.card_eq_zero, Finset.eq_empty_iff_forall_notMem]
  exact forall_congr' fun x => not_congr (h.mem_holders x i)

/-- A count of one means that the holder asking is the only one. -/
theorem count_eq_one_iff (h : Handles X I) {x : X} {i : I} (hx : h.of x = some i) :
    h.count i = 1 ↔ ∀ y, h.of y = some i → y = x := by
  have hmem : x ∈ h.holders i := (h.mem_holders x i).mpr hx
  constructor
  · intro hone y hy
    obtain ⟨z, hz⟩ := Finset.card_eq_one.mp hone
    have hyz : y ∈ h.holders i := (h.mem_holders y i).mpr hy
    rw [hz, Finset.mem_singleton] at hmem hyz
    rw [hmem, hyz]
  · intro hall
    refine Finset.card_eq_one.mpr ⟨x, Finset.eq_singleton_iff_unique_mem.mpr ⟨hmem, fun y hy => ?_⟩⟩
    exact hall y ((h.mem_holders y i).mp hy)

/-- Two holders make a count of two. -/
theorem two_le_count (h : Handles X I) {x y : X} {i : I} (hx : h.of x = some i)
    (hy : h.of y = some i) (hxy : x ≠ y) : 2 ≤ h.count i :=
  Finset.one_lt_card.mpr ⟨x, (h.mem_holders x i).mpr hx, y, (h.mem_holders y i).mpr hy, hxy⟩

variable [DecidableEq X] [DecidableEq I]

def grab (h : Handles X I) (x : X) (i : I) : Handles X I where
  of := Function.update h.of x (some i)
  holders j := if j = i then insert x (h.holders j) else (h.holders j).erase x
  mem_holders y j := by
    by_cases hy : y = x
    · subst hy
      by_cases hj : j = i
      · simp [hj]
      · simp [hj, Ne.symm hj]
    · by_cases hj : j = i <;> simp [hj, hy, h.mem_holders]

omit [DecidableEq I] in
def release (h : Handles X I) (x : X) : Handles X I where
  of := Function.update h.of x none
  holders j := (h.holders j).erase x
  mem_holders y j := by
    by_cases hy : y = x
    · simp [hy]
    · simp [hy, h.mem_holders]

@[simp] theorem of_grab_self (h : Handles X I) (x : X) (i : I) : (h.grab x i).of x = some i := by
  simp [grab]

theorem of_grab_of_ne (h : Handles X I) {x y : X} (hy : y ≠ x) (i : I) :
    (h.grab x i).of y = h.of y := by
  simp [grab, hy]

omit [DecidableEq I] in
@[simp] theorem of_release_self (h : Handles X I) (x : X) : (h.release x).of x = none := by
  simp [release]

omit [DecidableEq I] in
theorem of_release_of_ne (h : Handles X I) {x y : X} (hy : y ≠ x) :
    (h.release x).of y = h.of y := by
  simp [release, hy]

/-- Whoever holds something behind a grab has grabbed it, or held it before. -/
theorem of_grab_eq_some {h : Handles X I} {x y : X} {i j : I} (hy : (h.grab x i).of y = some j) :
    y = x ∧ j = i ∨ y ≠ x ∧ h.of y = some j := by
  by_cases hyx : y = x
  · rw [hyx, of_grab_self] at hy
    exact .inl ⟨hyx, (Option.some.inj hy).symm⟩
  · rw [of_grab_of_ne _ hyx] at hy
    exact .inr ⟨hyx, hy⟩

omit [DecidableEq I] in
/-- Whoever holds something behind a release is somebody else. -/
theorem of_release_eq_some_iff {h : Handles X I} {x y : X} {i : I} :
    (h.release x).of y = some i ↔ y ≠ x ∧ h.of y = some i := by
  by_cases hyx : y = x
  · rw [hyx, of_release_self]
    exact iff_of_false (by simp) fun hne => hne.1 rfl
  · rw [h.of_release_of_ne hyx]
    exact (and_iff_right hyx).symm

theorem count_grab (h : Handles X I) {x : X} (hx : h.of x = none) (i j : I) :
    (h.grab x i).count j = if j = i then h.count i + 1 else h.count j := by
  have hnot (k : I) : x ∉ h.holders k := by
    rw [h.mem_holders, hx]
    intro heq
    cases heq
  by_cases hj : j = i
  · subst hj
    simp [count, grab, hnot]
  · simp [count, grab, hj, hnot]

omit [DecidableEq I] in
theorem count_release_add_one (h : Handles X I) {x : X} {i : I} (hx : h.of x = some i) :
    (h.release x).count i + 1 = h.count i :=
  Finset.card_erase_add_one ((h.mem_holders x i).mpr hx)

omit [DecidableEq I] in
/-- The last handle is the only one. -/
theorem count_release_eq_zero_iff (h : Handles X I) {x : X} {i : I} (hx : h.of x = some i) :
    (h.release x).count i = 0 ↔ ∀ y, h.of y = some i → y = x := by
  rw [← h.count_eq_one_iff hx, ← h.count_release_add_one hx]
  omega

omit [DecidableEq I] in
theorem count_release_of_ne (h : Handles X I) {x : X} {i j : I} (hx : h.of x = some i)
    (hj : j ≠ i) : (h.release x).count j = h.count j := by
  have hnot : x ∉ h.holders j := by
    rw [h.mem_holders, hx]
    intro heq
    exact hj (Option.some.inj heq).symm
  exact congrArg Finset.card (Finset.erase_eq_of_notMem hnot)

/-- A new handle adds its object to those held. -/
theorem held_grab (h : Handles X I) {x : X} (hx : h.of x = none) (i j : I) :
    (h.grab x i).Held j ↔ j = i ∨ h.Held j := by
  constructor
  · rintro ⟨y, hy⟩
    rcases of_grab_eq_some hy with ⟨-, hji⟩ | ⟨-, hold⟩
    · exact .inl hji
    · exact .inr ⟨y, hold⟩
  · rintro (rfl | ⟨y, hy⟩)
    · exact ⟨x, h.of_grab_self x j⟩
    · refine ⟨y, ?_⟩
      rw [h.of_grab_of_ne, hy]
      rintro rfl
      rw [hx] at hy
      cases hy

omit [DecidableEq I] in
theorem held_release (h : Handles X I) (x : X) (j : I) :
    (h.release x).Held j ↔ ∃ y, y ≠ x ∧ h.of y = some j :=
  exists_congr fun _ => of_release_eq_some_iff

omit [DecidableEq I] in
/-- Giving a handle back leaves the other objects held as they were. -/
theorem held_release_of_ne (h : Handles X I) {x : X} {i j : I} (hx : h.of x = some i) (hj : j ≠ i) :
    (h.release x).Held j ↔ h.Held j := by
  rw [held_release]
  constructor
  · rintro ⟨y, -, hy⟩
    exact ⟨y, hy⟩
  · rintro ⟨y, hy⟩
    refine ⟨y, ?_, hy⟩
    rintro rfl
    rw [hx] at hy
    exact hj (Option.some.inj hy).symm

/-! ### The holders of one object -/

omit [DecidableEq X] [DecidableEq I] in
/-- The one handle that there is. -/
theorem heldWithin_singleton {h : Handles X I} {x : X} {i : I} :
    h.HeldWithin [x] i ↔ h.of x = some i ∧ ∀ y, h.of y = some i → y = x := by
  unfold HeldWithin
  simp only [List.mem_singleton]
  constructor
  · rintro ⟨⟨y, hy⟩, hall⟩
    exact ⟨hall y hy ▸ hy, hall⟩
  · rintro ⟨hx, hall⟩
    exact ⟨⟨x, hx⟩, hall⟩

omit [DecidableEq I] in
/-- The first of the holders is the last one, or one of the others is. -/
theorem heldWithin_cons_iff (h : Handles X I) (x : X) (xs : List X) (i : I) :
    h.HeldWithin (x :: xs) i ↔ h.HeldWithin [x] i ∨ (h.release x).HeldWithin xs i := by
  constructor
  · rintro ⟨⟨y, hy⟩, hall⟩
    by_cases hother : ∃ z, z ≠ x ∧ h.of z = some i
    · refine .inr ⟨(h.held_release x i).mpr hother, fun z hz => ?_⟩
      obtain ⟨hzx, hz⟩ := of_release_eq_some_iff.mp hz
      exact (List.mem_cons.mp (hall z hz)).resolve_left hzx
    · have hsole (z : X) (hz : h.of z = some i) : z = x := by
        by_contra hzx
        exact hother ⟨z, hzx, hz⟩
      exact .inl (heldWithin_singleton.mpr ⟨hsole y hy ▸ hy, hsole⟩)
  · rintro (hx | ⟨hheld, hall⟩)
    · obtain ⟨hx, hsole⟩ := heldWithin_singleton.mp hx
      exact ⟨⟨x, hx⟩, fun y hy => hsole y hy ▸ List.mem_cons_self⟩
    · obtain ⟨y, -, hy⟩ := (h.held_release x i).mp hheld
      refine ⟨⟨y, hy⟩, fun z hz => ?_⟩
      by_cases hzx : z = x
      · exact hzx ▸ List.mem_cons_self
      · exact List.mem_cons_of_mem _ (hall z (by rw [h.of_release_of_ne hzx, hz]))

omit [DecidableEq I] in
/-- What others still hold was not held by the one alone. -/
theorem HeldWithin.not_of_release {h : Handles X I} {x : X} {xs : List X} {i : I}
    (hi : (h.release x).HeldWithin xs i) : ¬ h.HeldWithin [x] i := by
  intro hx
  obtain ⟨y, hyx, hy⟩ := (h.held_release x i).mp hi.1
  exact hyx ((heldWithin_singleton.mp hx).2 y hy)

/-- A handle that moves from one holder to another leaves the same objects held. -/
theorem held_move (h : Handles X I) {x y : X} {i : I} (hx : h.of x = some i) (hy : h.of y = none)
    (j : I) : ((h.release x).grab y i).Held j ↔ h.Held j := by
  have hyx : y ≠ x := by
    rintro rfl
    rw [hx] at hy
    cases hy
  rw [held_grab _ (by rw [h.of_release_of_ne hyx, hy]), held_release]
  constructor
  · rintro (rfl | ⟨z, -, hz⟩)
    · exact ⟨x, hx⟩
    · exact ⟨z, hz⟩
  · rintro ⟨z, hz⟩
    by_cases hzx : z = x
    · rw [hzx, hx] at hz
      exact .inl (Option.some.inj hz).symm
    · exact .inr ⟨z, hzx, hz⟩

end Handles

end Observe.Lib
