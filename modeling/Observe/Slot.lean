import Observe.Waiter

/-!
# One slot

The memory of `Slot<O>`: the state word, the untagged outcome cell and the lazily created registry.
The cell is `some` exactly while it holds a live value, tagged with the generation that wrote it;
the code keeps no such tag and tells a live cell from a dead one by `OUTCOME_VALID` alone.
-/

namespace Observe

structure StateWord where
  completed : Bool
  hasWaiter : Bool
  outcomeValid : Bool
deriving DecidableEq, Repr

namespace StateWord

def zero : StateWord := ⟨false, false, false⟩
def COMPLETED : StateWord := ⟨true, false, false⟩
def HAS_WAITER : StateWord := ⟨false, true, false⟩
def OUTCOME_VALID : StateWord := ⟨false, false, true⟩

def fetchOr (s mask : StateWord) : StateWord :=
  ⟨s.completed || mask.completed, s.hasWaiter || mask.hasWaiter,
    s.outcomeValid || mask.outcomeValid⟩

def announce (s : StateWord) : StateWord := s.fetchOr HAS_WAITER

def publish (s : StateWord) : StateWord := s.fetchOr (COMPLETED.fetchOr OUTCOME_VALID)

@[simp] theorem announce_completed (s : StateWord) : s.announce.completed = s.completed := by
  simp [announce, fetchOr, HAS_WAITER]

@[simp] theorem announce_hasWaiter (s : StateWord) : s.announce.hasWaiter = true := by
  simp [announce, fetchOr, HAS_WAITER]

@[simp] theorem announce_outcomeValid (s : StateWord) :
    s.announce.outcomeValid = s.outcomeValid := by
  simp [announce, fetchOr, HAS_WAITER]

@[simp] theorem publish_completed (s : StateWord) : s.publish.completed = true := by
  simp [publish, fetchOr, COMPLETED]

@[simp] theorem publish_hasWaiter (s : StateWord) : s.publish.hasWaiter = s.hasWaiter := by
  simp [publish, fetchOr, COMPLETED, OUTCOME_VALID]

@[simp] theorem publish_outcomeValid (s : StateWord) : s.publish.outcomeValid = true := by
  simp [publish, fetchOr, OUTCOME_VALID]

end StateWord

structure Slot (O W : Type) where
  state : StateWord
  /-- `UnsafeCell<MaybeUninit<O>>`. -/
  outcome : Option (Gen × O)
  /-- `AtomicPtr<Mutex<Vec<Waiter>>>`; `none` is the null pointer. -/
  waiters : Option (Registry W)

namespace Slot

variable {O W : Type}

def new : Slot O W := ⟨.zero, none, none⟩

def registry (s : Slot O W) : Registry W := s.waiters.getD []

def setOutcome (s : Slot O W) (g : Gen) (v : O) : Slot O W := { s with outcome := some (g, v) }

def dropOutcome (s : Slot O W) : Slot O W := { s with outcome := none }

def reset (s : Slot O W) : Slot O W :=
  -- the validity bit decides about the cell, and `HAS_WAITER` about the registry
  let s₁ := if s.state.outcomeValid then s.dropOutcome else s
  let s₂ := if s.state.hasWaiter then { s₁ with waiters := s₁.waiters.map fun _ => [] } else s₁
  -- the one store, behind both destructions
  { s₂ with state := .zero }

/-- The generations whose values `reset` or the final drop destroys. -/
def destroys (s : Slot O W) : List Gen :=
  -- a cell that was moved out of is `none` as well, so it is not counted twice
  if s.state.outcomeValid then (s.outcome.map Prod.fst).toList else []

@[simp] theorem reset_state (s : Slot O W) : s.reset.state = .zero := rfl

/-- `reset` empties the cell when the validity bit tells the truth about it. -/
theorem reset_outcome {s : Slot O W} (h : s.state.outcomeValid = s.outcome.isSome) :
    s.reset.outcome = none := by
  unfold reset
  cases ho : s.outcome <;> rw [ho] at h <;> cases hw : s.state.hasWaiter <;>
    simp_all [dropOutcome]

/-- `reset` empties the registry when every registration has set `HAS_WAITER`. -/
theorem reset_registry {s : Slot O W} (h : s.registry ≠ [] → s.state.hasWaiter = true) :
    s.reset.registry = [] := by
  cases hw : s.state.hasWaiter with
  | false =>
    -- nobody has announced a waiter, so the registry is empty and `reset` leaves it alone
    have hnil : s.registry = [] := by
      by_contra hne
      rw [h hne] at hw
      cases hw
    unfold reset registry
    cases hv : s.state.outcomeValid <;> simpa [hw, hv, dropOutcome, registry] using hnil
  | true =>
    have hclear : (s.waiters.map fun _ => ([] : Registry W)).getD [] = [] := by
      cases s.waiters <;> rfl
    unfold reset registry
    cases hv : s.state.outcomeValid <;> simpa [hw, hv, dropOutcome] using hclear

end Slot
end Observe
