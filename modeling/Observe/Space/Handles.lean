import Observe.Space
import Observe.Protocol.Safety

/-!
# The handles of the program

Which handle each record of the program stands for, what the primitive operations on handles change,
and the ways a call of `subject` can go.
-/

namespace Observe

def Authority.slot? {K : Type} {bits : Nat} : Authority K bits → Option SlotId
  | .subject _ _ i _ | .retired i | .publisher i | .publishing i | .releasing i => some i
  | .absent | .gone => none

def Authority.current? {K : Type} {bits : Nat} : Authority K bits → Option SlotId
  | .subject _ _ i _ | .publisher i | .publishing i => some i
  | _ => none

/-- `completed = true`, or the move of the publisher into `complete`. -/
inductive Authority.Completes {K : Type} {bits : Nat} : Authority K bits → Authority K bits → Prop
  where
  | subject {k n i} : Completes (.subject k n i false) (.subject k n i true)
  | publisher {i} : Completes (.publisher i) (.publishing i)

namespace Authority.Completes

variable {K : Type} {bits : Nat} {a b : Authority K bits}

theorem slot (h : a.Completes b) : b.slot? = a.slot? := by cases h <;> rfl

theorem table (h : a.Completes b) : b.table? = a.table? := by cases h <;> rfl

theorem current (h : a.Completes b) : b.current? = a.current? := by cases h <;> rfl

/-- A subject that completes stays a subject of the same slot. -/
theorem of_subject {k : K} {n : BitVec bits} {i : SlotId} {c : Bool} (h : a.Completes b)
    (ha : a = .subject k n i c) : b = .subject k n i true := by
  cases h <;> cases ha
  rfl

/-- A completed subject was a subject that could complete. -/
theorem to_subject {k : K} {n : BitVec bits} {i : SlotId} {c : Bool} (h : a.Completes b)
    (hb : b = .subject k n i c) : a = .subject k n i false := by
  cases h <;> cases hb
  rfl

end Authority.Completes

/-- What can be left of a subject when its entry goes: the handles that are still to be dropped, or
an authority without a key. -/
inductive Authority.Detached {K O W : Type} {bits : Nat} (s : SlotId → SlotSys O W) :
    Authority K bits → Authority K bits → Prop where
  | retired {k n i c} (hrest : (s i).comp.resting = true) : Detached s (.subject k n i c) (.retired i)
  | releasing {k n i c} (hrest : (s i).comp.resting = true) :
    Detached s (.subject k n i c) (.releasing i)
  | publisher {k n i} : Detached s (.subject k n i false) (.publisher i)
  | publishing {k n i} : Detached s (.subject k n i true) (.publishing i)

namespace Authority.Detached

variable {K O W : Type} {bits : Nat} {s : SlotId → SlotSys O W} {a b : Authority K bits}

theorem slot (h : Detached s a b) : b.slot? = a.slot? := by cases h <;> rfl

theorem table (h : Detached s a b) : b.table? = none := by cases h <;> rfl

theorem current (h : Detached s a b) {i : SlotId} (hb : b.current? = some i) :
    a.current? = some i := by
  cases h <;> first | exact hb | cases hb

end Authority.Detached

def ObsState.at? {O : Type} : ObsState O → Option (SlotId × Gen)
  | .live i g | .refused i g => some (i, g)
  | _ => none

def FutState.at? : FutState → Option (SlotId × Gen)
  | .live i g => some (i, g)
  | _ => none

namespace World

variable {K O W : Type} [Key K] {bits : Nat} {w w' : World K O W bits}

def handle (w : World K O W bits) : Owner → Option SlotId
  | .table g => (w.auth g).table?
  | .pool i => if i ∈ w.pool then some i else none
  | .subject g => (w.auth g).slot?
  | .obs o => (w.obs o).at?.map Prod.fst
  | .fut f => (w.futs f).at?.map Prod.fst

/-- A property of every slot is shown of the one that changes. -/
theorem forall_setSlot {P : SlotId → SlotSys O W → Prop} {i : SlotId} {s : SlotSys O W}
    (hi : P i s) (hother : ∀ j, P j (w.slots j)) (j : SlotId) : P j ((w.setSlot i s).slots j) :=
  (Function.forall_update_iff w.slots P).mpr ⟨hi, fun k _ => hother k⟩ j

/-! ## `release` -/

section Release

variable (w) (x : Owner) (l : Bool)

@[simp] theorem release_map : (w.release x l).map = w.map := rfl
@[simp] theorem release_pool : (w.release x l).pool = w.pool := rfl
@[simp] theorem release_auth : (w.release x l).auth = w.auth := rfl
@[simp] theorem release_obs : (w.release x l).obs = w.obs := rfl
@[simp] theorem release_futs : (w.release x l).futs = w.futs := rfl
@[simp] theorem release_env : (w.release x l).env = w.env := rfl
@[simp] theorem release_nextSlot : (w.release x l).nextSlot = w.nextSlot := rfl
@[simp] theorem release_nextGen : (w.release x l).nextGen = w.nextGen := rfl
@[simp] theorem release_nextObs : (w.release x l).nextObs = w.nextObs := rfl
@[simp] theorem release_nextFut : (w.release x l).nextFut = w.nextFut := rfl
@[simp] theorem release_arcs : (w.release x l).arcs = w.arcs.release x := rfl

/-- The last handle of a slot is the only one. -/
theorem lastHandle_eq_some {i : SlotId} (h : w.lastHandle x = some i) :
    w.arcs.of x = some i ∧ ∀ y, (w.arcs.release x).of y ≠ some i := by
  unfold lastHandle at h
  obtain ⟨hx, hzero⟩ := Option.filter_eq_some_iff.mp h
  exact ⟨hx, (Lib.Handles.count_eq_zero_iff _ _).mp (by simpa using hzero)⟩

/-- A slot stays as it is while another handle of it is left. -/
theorem release_slots (j : SlotId) :
    (w.release x l).slots j = w.slots j ∨
      (w.arcs.of x = some j ∧ (∀ y, (w.arcs.release x).of y ≠ some j) ∧
        (w.release x l).slots j = (w.slots j).finalDrop) := by
  cases hl : w.lastHandle x with
  | none => exact .inl (by simp only [release, hl])
  | some i =>
    obtain ⟨hx, hlast⟩ := w.lastHandle_eq_some x hl
    by_cases hj : j = i
    · subst hj
      exact .inr ⟨hx, hlast, by simp only [release, hl, Function.update_self]⟩
    · exact .inl (by simp only [release, hl, Function.update_of_ne hj])

end Release

/-! ## `dropPopped` -/

section DropPopped

variable (w) (l : Bool)

theorem dropPopped_auth : (w.dropPopped l).auth = w.auth := by
  unfold World.dropPopped
  split <;> rfl

theorem dropPopped_map : (w.dropPopped l).map = w.map := by
  unfold World.dropPopped
  split <;> rfl

theorem dropPopped_spaces : (w.dropPopped l).spaces = w.spaces := by
  unfold World.dropPopped
  split <;> rfl

theorem dropPopped_nextGeneration : (w.dropPopped l).nextGeneration = w.nextGeneration := by
  unfold World.dropPopped
  split <;> rfl

theorem dropPopped_nextGen : (w.dropPopped l).nextGen = w.nextGen := by
  unfold World.dropPopped
  split <;> rfl

theorem dropPopped_nextSlot : (w.dropPopped l).nextSlot = w.nextSlot := by
  unfold World.dropPopped
  split <;> rfl

theorem dropPopped_pool : (w.dropPopped l).pool ⊆ w.pool := by
  unfold World.dropPopped
  split
  · exact fun _ => id
  · rename_i i rest hp
    rw [hp]
    exact List.subset_cons_self _ _

end DropPopped

/-! ## `subject` -/

def drawNumber (w : World K O W bits) : World K O W bits :=
  { w with nextGeneration := w.nextGeneration + 1 }

inductive SubjectCases (w : World K O W bits) (key : K) :
    World K O W bits × SubjectResult K → Prop where
  | conflict (hkey : w.map.isVacant key = false) : SubjectCases w key (w, .subjectExists key)
  | exhausted (hkey : w.map.isVacant key = true) (hmax : w.nextGeneration = BitVec.allOnes bits) :
      SubjectCases w key (w.drawNumber.dropPopped true, .exhausted)
  | recycled {i : SlotId} {rest : List SlotId} (hkey : w.map.isVacant key = true)
      (hmax : w.nextGeneration ≠ BitVec.allOnes bits) (hpool : w.pool = i :: rest) :
      SubjectCases w key
        ((w.drawNumber.recycleSlot i rest).enter key w.nextGeneration i, .ok w.nextGen)
  | fresh (hkey : w.map.isVacant key = true) (hmax : w.nextGeneration ≠ BitVec.allOnes bits)
      (hpool : w.pool = []) :
      SubjectCases w key
        (w.drawNumber.newSlot.enter key w.nextGeneration w.nextSlot, .ok w.nextGen)

/-- A call of `subject` meets a conflict, the end of the numbers, a pooled slot, or an empty pool.
-/
theorem subject_cases (w : World K O W bits) (key : K) : w.SubjectCases key (w.subject key) := by
  cases hkey : w.map.isVacant key with
  | false =>
    have heq : w.subject key = (w, .subjectExists key) := by simp [World.subject, hkey]
    rw [heq]
    exact .conflict hkey
  | true =>
    by_cases hmax : w.nextGeneration = BitVec.allOnes bits
    · have heq : w.subject key = (w.drawNumber.dropPopped true, .exhausted) := by
        simp only [World.subject, hkey, hmax, if_true, drawNumber]
      rw [heq]
      exact .exhausted hkey hmax
    · cases hpool : w.pool with
      | nil =>
        have heq : w.subject key =
            (w.drawNumber.newSlot.enter key w.nextGeneration w.nextSlot, .ok w.nextGen) := by
          simp only [World.subject, hkey, hmax, hpool, if_true, if_false, drawNumber]
        rw [heq]
        exact .fresh hkey hmax hpool
      | cons i rest =>
        have heq : w.subject key =
            ((w.drawNumber.recycleSlot i rest).enter key w.nextGeneration i, .ok w.nextGen) := by
          simp only [World.subject, hkey, hmax, hpool, if_true, if_false, drawNumber]
        rw [heq]
        exact .recycled hkey hmax hpool

end World

end Observe
