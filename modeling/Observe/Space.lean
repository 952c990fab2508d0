import Observe.Protocol
import Observe.SmallMap
import Observe.Lib.Handles

/-!
# The whole program

One `ObservationSpace` and any number of pairs, with every subject, publisher, observation and
future made from them, and every slot.  A section under the entries lock is one step, and so is each
step of a call on a slot, each release of a slot handle and each release of the space.  What a
destructor of `Subject` does after its section (its fields are dropped in order: the space, then the
slot) is two further steps.
-/

namespace Observe

def slotPoolCap : Nat := 128

inductive Owner where
  | table (g : Gen)
  | pool (i : SlotId)
  /-- The `Subject` or the `Publisher` of a generation. -/
  | subject (g : Gen)
  | obs (o : ObsId)
  | fut (f : FutId)
deriving DecidableEq

/-- The `Subject` or the `Publisher` of a generation. -/
inductive Authority (K : Type) (bits : Nat) where
  | absent
  | subject (key : K) (generation : BitVec bits) (slot : SlotId) (completed : Bool)
  /-- The body of `Subject::drop` is over; both fields are still to be dropped. -/
  | retired (slot : SlotId)
  | publisher (slot : SlotId)
  /-- `Publisher::complete` has consumed the publisher. -/
  | publishing (slot : SlotId)
  /-- Only the slot's handle is left to drop. -/
  | releasing (slot : SlotId)
  | gone

def Authority.table? {K : Type} {bits : Nat} : Authority K bits → Option SlotId
  | .subject _ _ i _ => some i
  | _ => none

inductive ObsState (O : Type) where
  | absent
  | live (slot : SlotId) (gen : Gen)
  /-- `into_outcome` has found the slot shared; the handle is still to be dropped. -/
  | refused (slot : SlotId) (gen : Gen)
  /-- Dropped, or consumed by an `into_outcome` that returned `answer`. -/
  | gone (gen : Gen) (answer : Option (Option O))

inductive FutState where
  | absent
  | live (slot : SlotId) (gen : Gen)
  | gone

/-- A value of the user that the crate has destroyed. -/
inductive Dropped (W : Type) where
  | outcome (g : Gen)
  | waker (w : W)

structure World (K O W : Type) [Key K] (bits : Nat) where
  env : Env
  /-- `Inner::next_generation`. -/
  nextGeneration : BitVec bits
  map : SmallMap K bits
  /-- The head is the end of the vector. -/
  pool : List SlotId
  slots : SlotId → SlotSys O W
  arcs : Lib.Handles Owner SlotId
  auth : Gen → Authority K bits
  obs : ObsId → ObsState O
  futs : FutId → FutState
  /-- The handles of the space. -/
  spaces : Nat
  nextSlot : SlotId
  nextGen : Gen
  nextObs : ObsId
  nextFut : FutId
  /-- Every run of a user's destructor by `reset` or by a slot's final drop, with whether the thread
  that ran it held the entries lock. -/
  drops : List (Dropped W × Bool)

/-- `subject` returns the new generation, the conflict, or panics. -/
inductive SubjectResult (K : Type) where
  | ok (g : Gen)
  | subjectExists (key : K)
  | exhausted

/-! ## What is destroyed with a slot -/

def Waiter.waker? {W : Type} : Waiter W → Option W
  | .thread .. => none
  | .waker e _ _ _ => some e

namespace Slot

variable {O W : Type}

def wakers (s : Slot O W) : List W := s.registry.filterMap Waiter.waker?

def resetDrops (s : Slot O W) : List (Dropped W) :=
  s.destroys.map .outcome ++ if s.state.hasWaiter then s.wakers.map .waker else []

def finalDrops (s : Slot O W) : List (Dropped W) :=
  s.destroys.map .outcome ++ s.wakers.map .waker

end Slot

namespace World

variable {K O W : Type} [Key K] {bits : Nat}

/-! ## Handles -/

def setSlot (w : World K O W bits) (i : SlotId) (s : SlotSys O W) : World K O W bits :=
  { w with slots := Function.update w.slots i s }

def lastHandle (w : World K O W bits) (x : Owner) : Option SlotId :=
  (w.arcs.of x).filter fun i => (w.arcs.release x).count i = 0

/-- `x` drops its handle, the last one with the slot. -/
def release (w : World K O W bits) (x : Owner) (locked : Bool) : World K O W bits :=
  { w with
    arcs := w.arcs.release x
    slots := match w.lastHandle x with
      | some i => Function.update w.slots i (w.slots i).finalDrop
      | none => w.slots
    drops := match w.lastHandle x with
      | some i => (w.slots i).slot.finalDrops.map (·, locked) ++ w.drops
      | none => w.drops }

/-! ## Sections under the entries lock -/

/-- The popped slot handle is dropped by the unwinding, before the guard of the lock. -/
def dropPopped (w : World K O W bits) (locked : Bool) : World K O W bits :=
  match w.pool with
  | [] => w
  | i :: rest => { w with pool := rest }.release (.pool i) locked

/-- The next generation gets its authority `a` on slot `i`; a subject's entry holds the slot too. -/
def claim (w : World K O W bits) (i : SlotId) (a : Authority K bits) (m : SmallMap K bits) :
    World K O W bits :=
  { w with
    map := m
    arcs := if a.table? = none then w.arcs.grab (.subject w.nextGen) i
      else (w.arcs.grab (.subject w.nextGen) i).grab (.table w.nextGen) i
    auth := Function.update w.auth w.nextGen a
    nextGen := w.nextGen + 1 }

/-- `insert_vacant`, and the `Subject` of the new generation on slot `i`. -/
def enter (w : World K O W bits) (key : K) (generation : BitVec bits) (i : SlotId) :
    World K O W bits :=
  w.claim i (.subject key generation i false)
    (w.map.insertVacant (Key.clone key) ⟨generation, i, w.nextGen⟩)

def newSlot (w : World K O W bits) : World K O W bits :=
  { w with
    slots := Function.update w.slots w.nextSlot (SlotSys.blank.fresh w.nextGen)
    nextSlot := w.nextSlot + 1 }

/-- The pooled slot `i` is popped, reset and taken for the next generation. -/
def recycleSlot (w : World K O W bits) (i : SlotId) (rest : List SlotId) : World K O W bits :=
  { w with
    pool := rest
    arcs := w.arcs.release (.pool i)
    slots := Function.update w.slots i ((w.slots i).recycle w.nextGen)
    drops := (w.slots i).slot.resetDrops.map (·, true) ++ w.drops }

def subject (w : World K O W bits) (key : K) : World K O W bits × SubjectResult K :=
  if w.map.isVacant key then
    -- `fetch_add` wraps, and the panic does not take it back
    let generation := w.nextGeneration
    let w := { w with nextGeneration := generation + 1 }
    if generation = BitVec.allOnes bits then (w.dropPopped true, .exhausted)
    else
      match w.pool with
      | i :: rest => ((w.recycleSlot i rest).enter key generation i, .ok w.nextGen)
      | [] => (w.newSlot.enter key generation w.nextSlot, .ok w.nextGen)
  -- a popped slot has been pushed back
  else (w, .subjectExists key)

def newObs (w : World K O W bits) (i : SlotId) (g : Gen) : World K O W bits :=
  { w with
    arcs := w.arcs.grab (.obs w.nextObs) i
    obs := Function.update w.obs w.nextObs (.live i g)
    nextObs := w.nextObs + 1 }

def observe (w : World K O W bits) (key : K) : World K O W bits × Option ObsId :=
  match w.map.get key with
  | some entry => (w.newObs entry.slot entry.gen, some w.nextObs)
  | none => (w, none)

/-- The body of `Subject::drop`. -/
def retire (w : World K O W bits) (g : Gen) (key : K) (generation : BitVec bits) (i : SlotId) :
    World K O W bits :=
  let w₁ := { w with auth := Function.update w.auth g (.retired i) }
  if (w₁.map.removeIf key generation).2 then
    let w₂ := { w₁ with map := (w₁.map.removeIf key generation).1 }
    let w₃ := match w₁.map.get key with
      | some entry => w₂.release (.table entry.gen) true
      | none => w₂
    -- the one handle is the field of the `Subject`, which is dropped only after the lock
    if w₃.arcs.count i = 1 ∧ w₃.pool.length < slotPoolCap then
      { w₃ with arcs := w₃.arcs.grab (.pool i) i, pool := i :: w₃.pool }
    else w₃
  else w₁

/-! ## The other calls -/

def pair (w : World K O W bits) : World K O W bits :=
  (w.newSlot.claim w.nextSlot (.publisher w.nextSlot) w.map).newObs w.nextSlot w.nextGen

def unwrapped (w : World K O W bits) (i : SlotId) : Option O :=
  if (w.slots i).slot.state.completed then (w.slots i).slot.outcome.map Prod.snd else none

/-- The slot that `try_unwrap` has handed over, behind the take.  The take clears `OUTCOME_VALID`,
so that the drop leaves the value that was moved out alone. -/
def takenSlot (w : World K O W bits) (i : SlotId) : SlotSys O W :=
  if (w.slots i).slot.state.completed then (w.slots i).takeOutcome else w.slots i

/-- `try_unwrap` has succeeded: the slot is this call's own, and is dropped at its end. -/
def unwrapSlot (w : World K O W bits) (o : ObsId) (i : SlotId) (g : Gen) : World K O W bits :=
  { w with
    arcs := w.arcs.release (.obs o)
    obs := Function.update w.obs o (.gone g (some (w.unwrapped i)))
    slots := Function.update w.slots i (w.takenSlot i).finalDrop
    drops := (w.takenSlot i).slot.finalDrops.map (·, false) ++ w.drops }

/-- `Observation::into_outcome` up to the answer; a refused call still has its handle to drop. -/
def intoOutcome (w : World K O W bits) (o : ObsId) (i : SlotId) (g : Gen) :
    World K O W bits × Option O :=
  if w.arcs.count i = 1 then (w.unwrapSlot o i g, w.unwrapped i)
  else ({ w with obs := Function.update w.obs o (.refused i g) }, none)

/-- `into_future`: the observation's handle moves into the future. -/
def intoFuture (w : World K O W bits) (o : ObsId) (i : SlotId) (g : Gen) : World K O W bits :=
  { w with
    arcs := (w.arcs.release (.obs o)).grab (.fut w.nextFut) i
    obs := Function.update w.obs o (.gone g none)
    futs := Function.update w.futs w.nextFut (.live i g)
    slots := Function.update w.slots i ((w.slots i).newFuture w.nextFut g)
    nextFut := w.nextFut + 1 }

def Unborrowed (w : World K O W bits) (o : ObsId) : Prop :=
  ∀ i t, ((w.slots i).thr t).active = true → ((w.slots i).via t).obs ≠ o

def Idle (w : World K O W bits) (t : Tid) : Prop := ∀ i, ((w.slots i).thr t).active = false

def InnerDropped (w : World K O W bits) : Prop :=
  w.spaces = 0 ∧ ∀ g, (∀ k n i c, w.auth g ≠ .subject k n i c) ∧ ∀ i, w.auth g ≠ .retired i

inductive Step [WillWake W] : World K O W bits → World K O W bits → Prop where
  | subject {w} (key : K) (hspace : 0 < w.spaces) : Step w (w.subject key).1
  /-- `K`'s `Eq` or `Hash` panics in `is_vacant`. -/
  | unwind {w} (hspace : 0 < w.spaces) : Step w (w.dropPopped true)
  | observe {w} (key : K) (hspace : 0 < w.spaces) : Step w (w.observe key).1
  | cloneSpace {w} (hspace : 0 < w.spaces) : Step w { w with spaces := w.spaces + 1 }
  | dropSpace {w} (hspace : 0 < w.spaces) : Step w { w with spaces := w.spaces - 1 }
  /-- The drop of `Inner` drops the pool, one slot after the other. -/
  | dropPooled {w} (hinner : w.InnerDropped) : Step w (w.dropPopped false)
  | complete {w g k n i} (v : O) (ha : w.auth g = .subject k n i false) :
      Step w { w with
        auth := Function.update w.auth g (.subject k n i true)
        slots := Function.update w.slots i ((w.slots i).startComplete g v) }
  | retire {w g k n i c} (ha : w.auth g = .subject k n i c)
      (hrest : (w.slots i).comp.resting = true) : Step w (w.retire g k n i)
  | releaseInner {w g i} (ha : w.auth g = .retired i) :
      Step w { w with auth := Function.update w.auth g (.releasing i) }
  | releaseSubject {w g i} (ha : w.auth g = .releasing i) :
      Step w ({ w with auth := Function.update w.auth g .gone }.release (.subject g) false)
  | pair {w} : Step w w.pair
  | publish {w g i} (v : O) (ha : w.auth g = .publisher i) :
      Step w { w with
        auth := Function.update w.auth g (.publishing i)
        slots := Function.update w.slots i ((w.slots i).startComplete g v) }
  | published {w g i} (ha : w.auth g = .publishing i)
      (hrest : (w.slots i).comp.resting = true) :
      Step w { w with auth := Function.update w.auth g (.releasing i) }
  | dropPublisher {w g i} (ha : w.auth g = .publisher i) :
      Step w { w with auth := Function.update w.auth g (.releasing i) }
  | cloneObs {w o i g} (ho : w.obs o = .live i g) : Step w (w.newObs i g)
  | call {w o i g} (t : Tid) (c : Call W) (ho : w.obs o = .live i g) (hidle : w.Idle t) :
      Step w (w.setSlot i ((w.slots i).startCall t ⟨o, g⟩ c))
  | callStep {w e'} (i : SlotId) {s'} (h : CallStep w.env (w.slots i) e' s') :
      Step w { w.setSlot i s' with env := e' }
  | intoFuture {w o i g} (ho : w.obs o = .live i g) (hb : w.Unborrowed o) :
      Step w (w.intoFuture o i g)
  | poll {w f i g} (wk : W) (hf : w.futs f = .live i g)
      (hrest : ((w.slots i).fpc f).resting = true) :
      Step w (w.setSlot i ((w.slots i).startPoll f wk))
  | cancel {w f i g} (hf : w.futs f = .live i g)
      (hrest : ((w.slots i).fpc f).resting = true) :
      Step w (w.setSlot i ((w.slots i).startCancel f))
  | releaseFuture {w f i g} (hf : w.futs f = .live i g) (hdead : (w.slots i).fpc f = .dead) :
      Step w ({ w with futs := Function.update w.futs f .gone }.release (.fut f) false)
  | dropObs {w o i g} (ho : w.obs o = .live i g) (hb : w.Unborrowed o) :
      Step w ({ w with obs := Function.update w.obs o (.gone g none) }.release (.obs o) false)
  | intoOutcome {w o i g} (ho : w.obs o = .live i g) (hb : w.Unborrowed o) :
      Step w (w.intoOutcome o i g).1
  | dropRefused {w o i g} (ho : w.obs o = .refused i g) :
      Step w ({ w with obs := Function.update w.obs o (.gone g (some none)) }.release (.obs o) false)
  | unpark {w} (t : Tid) :
      Step w { w with env := { w.env with token := Function.update w.env.token t true } }
  | park {w} (t : Tid) (hidle : w.Idle t) :
      Step w { w with env := { w.env with token := Function.update w.env.token t false } }
  | tick {w} (n : Nat) (hn : w.env.now ≤ n) : Step w { w with env := { w.env with now := n } }

/-- `ObservationSpace::new()`, in a program that has made nothing yet. -/
def new (e : Env) : World K O W bits where
  env := e
  nextGeneration := 1
  map := .empty
  pool := []
  slots _ := .blank
  arcs := .empty
  auth _ := .absent
  obs _ := .absent
  futs _ := .absent
  spaces := 1
  nextSlot := 0
  nextGen := 1
  nextObs := 0
  nextFut := 0
  drops := []

end World

def worldSystem (K O W : Type) [Key K] [WillWake W] (bits : Nat) :
    Lib.System (World K O W bits) where
  init w := ∃ e, w = World.new e
  step := World.Step

end Observe
