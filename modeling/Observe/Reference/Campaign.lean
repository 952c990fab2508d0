import Observe.Sequential.Wakes

/-!
# The reference model and its campaign

The model that the repository's tests compare the crate with, by keys and epochs, and the campaign
that makes one call after another.  A call's result, and at each completion the wake counts of all
registered wakers, have to be what the model says; a failed assertion or a panic is a `Failure`.

A `HashMap` is the partial function of its keys; where its values are handles, no `insert` of the
campaign meets an old entry.  A `u64` is a number: epochs and values stay small as long as the
campaign is not longer than `2 ^ 54` operations.
-/

namespace Observe

instance instKeyUInt8 : Key UInt8 where
  toBEq := instBEqOfDecidableEq
  toHashable := inferInstance
  equivBEq := instEquivBEqOfLawfulBEq
  lawfulHashable := instLawfulHashableOfLawfulBEq
  clone := id
  clone_beq k := beq_self_eq_true (id k)

deriving instance DecidableEq for Polled
deriving instance DecidableEq for SubjectResult
deriving instance DecidableEq for Res

namespace Reference

inductive Op where
  | register (key : UInt8)
  | complete (key : UInt8)
  | observe (key : UInt8)
  | tryGet (id : Nat)
  | registerWaker (id : Nat)
  | intoOutcome (id : Nat)
  | retire (key : UInt8)
  | dropObs (id : Nat)
  | newFuture (id : Nat)
  | pollFuture (id : Nat)
  | migrateFuture (id : Nat)
  | cancelFuture (id : Nat)

/-! ## The model -/

inductive KeyState where
  | live (epoch : Nat) (outcome : Option Nat)

structure ModelState where
  keys : UInt8 → Option KeyState
  epochs : UInt8 → Option Nat
  retired : UInt8 × Nat → Option (Option Nat)

namespace ModelState

def default : ModelState := ⟨fun _ => none, fun _ => none, fun _ => none⟩

def live (m : ModelState) (key : UInt8) : Option (Nat × Option Nat) :=
  match m.keys key with
  | some (.live epoch outcome) => some (epoch, outcome)
  | none => none

/-- The outcome visible to an observation of `(key, epoch)`, live or retired. -/
def outcomeOf (m : ModelState) (key : UInt8) (epoch : Nat) : Option Nat :=
  match m.live key with
  | some (liveEpoch, outcome) => if liveEpoch = epoch then outcome else (m.retired (key, epoch)).join
  | none => (m.retired (key, epoch)).join

def register (m : ModelState) (key : UInt8) : ModelState × Bool :=
  if (m.live key).isSome then (m, false)
  else
    let epoch := (m.epochs key).elim 0 (· + 1)
    ({ m with
      epochs := Function.update m.epochs key (some epoch)
      keys := Function.update m.keys key (some (.live epoch none)) }, true)

def retire (m : ModelState) (key : UInt8) : ModelState :=
  match m.keys key with
  | some (.live epoch outcome) =>
    { m with
      keys := Function.update m.keys key none
      retired := Function.update m.retired (key, epoch) (some outcome) }
  | none => m

def outcomeValue (key : UInt8) (epoch : Nat) : Nat := epoch * 1000 + key.toNat

end ModelState

/-! ## The campaign -/

structure ObsHandle where
  observation : ObsId
  key : UInt8
  epoch : Nat

structure FutureHandle where
  future : FutId
  key : UInt8
  epoch : Nat
  /-- The distinct wakers of its polls, each expected to fire once at completion. -/
  wakers : List Nat

structure Harness where
  space : World UInt8 Nat Nat 64
  subjects : UInt8 → Option Gen
  observations : Nat → Option ObsHandle
  futures : Nat → Option FutureHandle
  nextHandle : Nat

structure Campaign where
  model : ModelState
  harness : Harness
  /-- The pending direct registrations, by key and epoch: they outlive their observation. -/
  registrations : List (UInt8 × Nat × Nat)
  /-- Wakers are told apart by their allocation. -/
  nextWaker : Nat

inductive Failure where
  | registerFailed
  | registerSucceeded (key : UInt8)
  | noSubjectHandle
  | observeFailed
  | observeSucceeded (key : UInt8)
  | tryGetDiverged (key : UInt8) (epoch : Nat)
  | registerWakerDiverged
  | notMoved
  | notRefused (key : UInt8) (epoch : Nat)
  | wrongOutcome (key : UInt8) (epoch : Nat)
  | pendingAlthoughCompleted (key : UInt8) (epoch : Nat)
  | futureWaker (i : Nat) (key : UInt8) (epoch : Nat)
  | registration (i : Nat) (key : UInt8) (epoch : Nat)
  | completedTryGet
  /-- A call has panicked. -/
  | panicked
deriving DecidableEq

def ensure (p : Prop) [Decidable p] (failure : Failure) : Except Failure Unit :=
  if p then .ok () else .error failure

namespace Harness

def observationHandles (h : Harness) : List ObsHandle :=
  (List.range h.nextHandle).filterMap h.observations

def futureHandles (h : Harness) : List FutureHandle :=
  (List.range h.nextHandle).filterMap h.futures

def removeObservation (h : Harness) (id : Nat) : Harness :=
  { h with observations := Function.update h.observations id none }

end Harness

namespace Campaign

def new (e : Env) : Campaign where
  model := .default
  harness := ⟨.new e, fun _ => none, fun _ => none, fun _ => none, 0⟩
  registrations := []
  nextWaker := 0

def exec (c : Campaign) (op : Observe.Op UInt8 Nat Nat) : Campaign × Res UInt8 Nat :=
  let r := c.harness.space.exec op
  ({ c with harness := { c.harness with space := r.1 } }, r.2)

def countWake (c : Campaign) : Campaign × Nat := ({ c with nextWaker := c.nextWaker + 1 }, c.nextWaker)

/-- The strong handles that the model believes to pin the slot of `(key, epoch)`. -/
def slotRefs (c : Campaign) (key : UInt8) (epoch : Nat) : Nat :=
  let subjectSide := if (c.model.live key).any (fun l => l.1 = epoch) then 2 else 0
  let obsRefs := c.harness.observationHandles.countP fun o => o.key = key ∧ o.epoch = epoch
  let futureRefs := c.harness.futureHandles.countP fun f => f.key = key ∧ f.epoch = epoch
  subjectSide + obsRefs + futureRefs

def assertTryGet (value : Nat) (c : Campaign) (handle : ObsHandle) : Except Failure Campaign := do
  let (c, result) := c.exec (.tryGet handle.observation)
  ensure (result = .outcome (some value)) .completedTryGet
  return c

def assertCompletionNotifications (c : Campaign) (key : UInt8) (epoch value : Nat) :
    Except Failure Campaign := do
  let futures := c.harness.futureHandles.filter fun f => f.key = key ∧ f.epoch = epoch
  futures.forM fun handle => handle.wakers.zipIdx.forM fun probe =>
    ensure (c.harness.space.wakeCount probe.1 = 1) (.futureWaker probe.2 key epoch)
  c.registrations.zipIdx.forM fun registration =>
    if registration.1.1 = key ∧ registration.1.2.1 = epoch then
      ensure (c.harness.space.wakeCount registration.1.2.2 = 1)
        (.registration registration.2 key epoch)
    else return ()
  let observations := c.harness.observationHandles.filter fun o => o.key = key ∧ o.epoch = epoch
  observations.foldlM (assertTryGet value) c

def pollFuture (c : Campaign) (id : Nat) (migrate : Bool) : Except Failure Campaign := do
  let some handle := c.harness.futures id | return c
  let expected := c.model.outcomeOf handle.key handle.epoch
  let (c, waker) := match migrate, handle.wakers with
    | false, waker :: _ => (c, waker)
    | _, _ => c.countWake
  let (c, result) := c.exec (.poll handle.future waker)
  match result with
  | .polled (.ready value) =>
    ensure (some value = expected) (.wrongOutcome handle.key handle.epoch)
    return c
  | .polled .pending =>
    ensure (expected = none) (.pendingAlthoughCompleted handle.key handle.epoch)
    if migrate || handle.wakers.isEmpty then
      let handle := { handle with wakers := handle.wakers ++ [waker] }
      return { c with
        harness := { c.harness with
          futures := Function.update c.harness.futures id (some handle) } }
    else return c
  | _ => throw .panicked

/-! ## `apply` -/

def register (c : Campaign) (key : UInt8) : Except Failure Campaign := do
  let (c, result) := c.exec (.subject key)
  let (model, vacant) := c.model.register key
  let c := { c with model := model }
  match vacant, result with
  | true, .subject (.ok subject) =>
    return { c with
      harness := { c.harness with
        subjects := Function.update c.harness.subjects key (some subject) } }
  | true, _ => throw .registerFailed
  | false, .subject (.subjectExists _) => return c
  | false, _ => throw (.registerSucceeded key)

def complete (c : Campaign) (key : UInt8) : Except Failure Campaign := do
  let some (epoch, outcome) := c.model.live key | return c
  if outcome.isSome then return c
  let value := ModelState.outcomeValue key epoch
  let some subject := c.harness.subjects key | throw .noSubjectHandle
  let (c, result) := c.exec (.complete subject value)
  -- the subject's own assertion
  ensure (result = .done) .panicked
  let keys := Function.update c.model.keys key (some (.live epoch (some value)))
  { c with model := { c.model with keys := keys } }.assertCompletionNotifications key epoch value

def observe (c : Campaign) (key : UInt8) : Except Failure Campaign := do
  let (c, result) := c.exec (.observe key)
  match c.model.live key, result with
  | some (epoch, _), .observe (some observation) =>
    let id := c.harness.nextHandle
    let handle := ⟨observation, key, epoch⟩
    return { c with
      harness := { c.harness with
        observations := Function.update c.harness.observations id (some handle)
        nextHandle := id + 1 } }
  | some _, _ => throw .observeFailed
  | none, .observe none => return c
  | none, _ => throw (.observeSucceeded key)

def tryGet (c : Campaign) (id : Nat) : Except Failure Campaign := do
  let some handle := c.harness.observations id | return c
  let expected := c.model.outcomeOf handle.key handle.epoch
  let (c, result) := c.exec (.tryGet handle.observation)
  ensure (result = .outcome expected) (.tryGetDiverged handle.key handle.epoch)
  return c

def registerWaker (c : Campaign) (id : Nat) : Except Failure Campaign := do
  let some handle := c.harness.observations id | return c
  let (c, waker) := c.countWake
  let completed := (c.model.outcomeOf handle.key handle.epoch).isSome
  let (c, result) := c.exec (.registerWaker handle.observation waker)
  ensure (result = .registered completed) .registerWakerDiverged
  if completed then return c
  else
    return { c with registrations := c.registrations ++ [(handle.key, handle.epoch, waker)] }

def intoOutcome (c : Campaign) (id : Nat) : Except Failure Campaign := do
  let some handle := c.harness.observations id | return c
  let c := { c with harness := c.harness.removeObservation id }
  let completed := (c.model.outcomeOf handle.key handle.epoch).isSome
  -- the handle that is consumed is not in the harness any more
  let exclusive := c.slotRefs handle.key handle.epoch = 0
  let (c, result) := c.exec (.intoOutcome handle.observation)
  if completed ∧ exclusive then
    ensure (result = .outcome (some (ModelState.outcomeValue handle.key handle.epoch))) .notMoved
  else
    ensure (result = .outcome none) (.notRefused handle.key handle.epoch)
  return c

def retire (c : Campaign) (key : UInt8) : Except Failure Campaign := do
  if (c.model.live key).isNone then return c
  let some subject := c.harness.subjects key | throw .noSubjectHandle
  let (c, _) := c.exec (.dropSubject subject)
  return { c with
    model := c.model.retire key
    harness := { c.harness with subjects := Function.update c.harness.subjects key none } }

def dropObs (c : Campaign) (id : Nat) : Except Failure Campaign := do
  let some handle := c.harness.observations id | return c
  let c := { c with harness := c.harness.removeObservation id }
  return (c.exec (.dropObs handle.observation)).1

def newFuture (c : Campaign) (id : Nat) : Except Failure Campaign := do
  let some handle := c.harness.observations id | return c
  let c := { c with harness := c.harness.removeObservation id }
  let future := c.harness.space.nextFut
  let (c, _) := c.exec (.intoFuture handle.observation)
  let handle := ⟨future, handle.key, handle.epoch, []⟩
  return { c with
    harness := { c.harness with futures := Function.update c.harness.futures id (some handle) } }

def cancelFuture (c : Campaign) (id : Nat) : Except Failure Campaign := do
  let some handle := c.harness.futures id | return c
  let c := { c with
    harness := { c.harness with futures := Function.update c.harness.futures id none } }
  return (c.exec (.dropFuture handle.future)).1

def apply (c : Campaign) : Op → Except Failure Campaign
  | .register key => c.register key
  | .complete key => c.complete key
  | .observe key => c.observe key
  | .tryGet id => c.tryGet id
  | .registerWaker id => c.registerWaker id
  | .intoOutcome id => c.intoOutcome id
  | .retire key => c.retire key
  | .dropObs id => c.dropObs id
  | .newFuture id => c.newFuture id
  | .pollFuture id => c.pollFuture id false
  | .migrateFuture id => c.pollFuture id true
  | .cancelFuture id => c.cancelFuture id

end Campaign

def runCase (e : Env) (ops : List Op) : Except Failure Campaign := ops.foldlM Campaign.apply (.new e)

end Reference

end Observe
