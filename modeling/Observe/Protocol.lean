import Observe.Slot
import Observe.Lib.System
import Mathlib.Data.Finset.Basic
import Mathlib.Logic.Function.Basic

/-!
# The calls on one slot, interleaved

The program counters of every call that touches one slot: `try_get`, `wait`, `wait_timeout` and
`register_waker` run by threads through an observation, `poll` and the drop of a future, and
`Slot::complete`.  A step is one access to `Slot.state`, one access to the registry pointer, one
acquisition or release of the registry's mutex, one access to the registry while holding it, one
access to the outcome cell, one `park` or one notification.  Steps of different calls interleave in
any order.
-/

namespace Observe

abbrev ObsId := Nat
abbrev FutId := Nat

/-- Parking tokens and the clock, shared by all slots. -/
structure Env where
  token : Tid → Bool
  now : Nat

structure Handle where
  obs : ObsId
  gen : Gen
deriving DecidableEq

/-! ## Program counters -/

/-- What a thread enters the registry for. -/
inductive Section (W : Type) where
  /-- `wait` (`none`) or `wait_timeout` with its deadline. -/
  | wait (deadline : Option Nat)
  | register (w : W)
  /-- `wait_timeout` after its deadline. -/
  | timeout

inductive Ret (O W : Type) where
  | value (v : O)
  | none
  | registered (w : W) (published : Bool)

/-- Where a thread goes on once it has dropped the guard of the mutex. -/
inductive ThreadNext (O W : Type) where
  | park
  | clock (deadline : Nat)
  | returned (r : Ret O W)
  | fault

inductive ThreadPc (O W : Type) where
  | idle
  | tryGet
  | check (c : Section W)
  | setBit (c : Section W)
  | loadReg (c : Section W)
  | casReg (c : Section W)
  | acquire (c : Section W)
  | push (deadline : Option Nat)
  | recheck (c : Section W)
  | store (w : W)
  | dereg
  | readLocked
  | unlock (next : ThreadNext O W)
  | clock (deadline : Nat)
  | park (deadline : Option Nat)
  | expire
  | read
  | returned (r : Ret O W)
  /-- The call read a cell that held no live value. -/
  | fault

inductive FutSection (W : Type) where
  | register (w : W)
  | cancel

inductive FutNext (W : Type) where
  | poll2 (w : W)
  | panicked
  | dead

inductive FutPc (O W : Type) where
  | idle
  | poll (w : W)
  | check (w : W)
  | setBit (w : W)
  | loadReg (c : FutSection W)
  | casReg (c : FutSection W)
  | acquire (c : FutSection W)
  | recheck (w : W)
  | store (w : W)
  | unlock (next : FutNext W)
  | poll2 (w : W) (known : Bool)
  | read
  | ready (v : O)
  | pending
  | panicked
  | remove
  /-- The body of `drop` is over; the observation's handle is still to be released. -/
  | dead
  | fault

inductive CompPc (O W : Type) where
  | idle
  | write (g : Gen) (v : O)
  | publish (g : Gen) (v : O)
  | loadReg (g : Gen)
  | casReg (g : Gen)
  | acquire (g : Gen)
  | take (g : Gen)
  | unlock (g : Gen) (rest : Registry W)
  | notify (g : Gen) (rest : Registry W) (panicked : Bool)
  | returned (g : Gen) (panicked : Bool)

inductive Proc where
  | thread (t : Tid)
  | future (f : FutId)
  | completer
deriving DecidableEq

/-- `ObservationFuture`: the wakers it recorded.  The rest is history: the wakers it ever stored in
the registry, the waker of its last poll if that returned `Pending`, whether its cancellation has
left the registry, and whether that was before the drain and before `COMPLETED`. -/
structure Fut (W : Type) where
  gen : Gen
  wakers : List W
  stored : List W
  last : Option W
  cancelled : Bool
  early : Bool
  prompt : Bool

@[simp] def Fut.leave {W : Type} (x : Fut W) (completed taken : Bool) : Fut W :=
  { x with cancelled := true, early := !taken, prompt := !completed }

def Ret.promised {O W : Type} : Ret O W → List W
  | .registered w false => [w]
  | _ => []

/-! ## The state of one slot -/

structure SlotSys (O W : Type) where
  slot : Slot O W
  /-- The holder of the registry's mutex. -/
  held : Option Proc
  thr : Tid → ThreadPc O W
  via : Tid → Handle
  fpc : FutId → FutPc O W
  fut : FutId → Fut W
  comp : CompPc O W
  /-- The generation the slot was last prepared for. -/
  gen : Gen
  /-- The futures made on this generation. -/
  futs : Finset FutId
  /-- The wakers that `register_waker` has stored for this generation. -/
  direct : List W
  /-- The wakers for which `register_waker` has returned `false` on this generation. -/
  answered : List W
  /-- Every `unpark` and `wake` so far, with the generation whose completion made it. -/
  notified : List (Gen × Waiter W)
  /-- Every waker stored so far, with the generation whose observation stored it. -/
  stored : List (Gen × W)
  published : Gen → Option O
  /-- The generations whose value an `into_outcome` has moved out. -/
  moved : List Gen
  /-- The generations whose value the crate has destroyed. -/
  destroyed : List Gen

/-- The completer has taken the registry, or has found that it need not. -/
def CompPc.taken {O W : Type} : CompPc O W → Bool
  | .unlock .. | .notify .. | .returned .. => true
  | _ => false

namespace SlotSys

variable {O W : Type}

@[simp] def goThr (s : SlotSys O W) (t : Tid) (k : ThreadPc O W) : SlotSys O W :=
  { s with thr := Function.update s.thr t k }

@[simp] def goFut (s : SlotSys O W) (f : FutId) (k : FutPc O W) : SlotSys O W :=
  { s with fpc := Function.update s.fpc f k }

@[simp] def goComp (s : SlotSys O W) (k : CompPc O W) : SlotSys O W := { s with comp := k }

@[simp] def setFut (s : SlotSys O W) (f : FutId) (x : Fut W) : SlotSys O W :=
  { s with fut := Function.update s.fut f x }

@[simp] def setState (s : SlotSys O W) (b : StateWord) : SlotSys O W :=
  { s with slot := { s.slot with state := b } }

/-- `waiters()` after its compare-exchange: the pointer is set, by this call or by the winner. -/
@[simp] def initRegistry (s : SlotSys O W) : SlotSys O W :=
  { s with slot := { s.slot with waiters := some s.slot.registry } }

@[simp] def setRegistry (s : SlotSys O W) (ws : Registry W) : SlotSys O W :=
  { s with slot := { s.slot with waiters := some ws } }

@[simp] def hold (s : SlotSys O W) (p : Proc) : SlotSys O W := { s with held := some p }

@[simp] def letGo (s : SlotSys O W) : SlotSys O W := { s with held := none }

@[simp] def noteDirect [WillWake W] (s : SlotSys O W) (g : Gen) (w : W) : SlotSys O W :=
  { s with direct := w :: s.direct, stored := (g, WillWake.clone w) :: s.stored }

@[simp] def noteStored [WillWake W] (s : SlotSys O W) (g : Gen) (w : W) : SlotSys O W :=
  { s with stored := (g, WillWake.clone w) :: s.stored }

@[simp] def noteAnswer (s : SlotSys O W) (r : Ret O W) : SlotSys O W :=
  { s with answered := r.promised ++ s.answered }

@[simp] def noteNotified (s : SlotSys O W) (g : Gen) (x : Waiter W) : SlotSys O W :=
  { s with notified := (g, x) :: s.notified }

@[simp] def publish (s : SlotSys O W) (g : Gen) (v : O) : SlotSys O W :=
  { s with
    slot := { s.slot with state := s.slot.state.publish }
    published := Function.update s.published g (some v) }

end SlotSys

/-! ## Steps -/

section Steps

variable {O W : Type} [WillWake W]

/-- Thread `t` takes one step in its call. -/
inductive ThreadStep (t : Tid) :
    Env → SlotSys O W → Env → SlotSys O W → Prop where
  -- `try_get`: one load decides whether the cell is read
  | tryGet_pending {e s} (hpc : s.thr t = .tryGet) (hc : s.slot.state.completed = false) :
      ThreadStep t e s e (s.goThr t (.returned .none))
  | tryGet_done {e s} (hpc : s.thr t = .tryGet) (hc : s.slot.state.completed = true) :
      ThreadStep t e s e (s.goThr t .read)
  -- the load at the top of the loop, or of `register_waker`
  | check_pending {e s c} (hpc : s.thr t = .check c) (hc : s.slot.state.completed = false) :
      ThreadStep t e s e (s.goThr t (.setBit c))
  | check_wait_done {e s d} (hpc : s.thr t = .check (.wait d))
      (hc : s.slot.state.completed = true) :
      ThreadStep t e s e (s.goThr t .read)
  | check_register_done {e s w} (hpc : s.thr t = .check (.register w))
      (hc : s.slot.state.completed = true) :
      ThreadStep t e s e (s.goThr t (.returned (.registered w true)))
  -- `fetch_or(HAS_WAITER)`, and then the registry, made on first use
  | setBit {e s c} (hpc : s.thr t = .setBit c) :
      ThreadStep t e s e ((s.setState s.slot.state.announce).goThr t (.loadReg c))
  | loadReg_null {e s c} (hpc : s.thr t = .loadReg c) (hn : s.slot.waiters = none) :
      ThreadStep t e s e (s.goThr t (.casReg c))
  | loadReg_some {e s c} (hpc : s.thr t = .loadReg c) (hn : s.slot.waiters ≠ none) :
      ThreadStep t e s e (s.goThr t (.acquire c))
  | casReg {e s c} (hpc : s.thr t = .casReg c) :
      ThreadStep t e s e (s.initRegistry.goThr t (.acquire c))
  -- `lock`: a wait pushes itself at once, a direct registration looks at the bit first
  | acquire_wait {e s d} (hpc : s.thr t = .acquire (.wait d)) (hfree : s.held = none) :
      ThreadStep t e s e ((s.hold (.thread t)).goThr t (.push d))
  | acquire_register {e s w} (hpc : s.thr t = .acquire (.register w)) (hfree : s.held = none) :
      ThreadStep t e s e ((s.hold (.thread t)).goThr t (.recheck (.register w)))
  | acquire_timeout {e s} (hpc : s.thr t = .acquire .timeout) (hfree : s.held = none) :
      ThreadStep t e s e ((s.hold (.thread t)).goThr t .expire)
  -- only the last entry is compared with the current thread
  | push {e s d} (hpc : s.thr t = .push d) :
      ThreadStep t e s e
        ((s.setRegistry (s.slot.registry.pushThread t (s.via t).gen)).goThr t (.recheck (.wait d)))
  -- the second load, under the mutex: a completion that sets the bit after it drains the entry
  | recheck_wait_pending {e s} (hpc : s.thr t = .recheck (.wait none))
      (hc : s.slot.state.completed = false) :
      ThreadStep t e s e (s.goThr t (.unlock .park))
  | recheck_timed_pending {e s d} (hpc : s.thr t = .recheck (.wait (some d)))
      (hc : s.slot.state.completed = false) :
      ThreadStep t e s e (s.goThr t (.unlock (.clock d)))
  | recheck_register_pending {e s w} (hpc : s.thr t = .recheck (.register w))
      (hc : s.slot.state.completed = false) :
      ThreadStep t e s e (s.goThr t (.store w))
  | recheck_wait_done {e s d} (hpc : s.thr t = .recheck (.wait d))
      (hc : s.slot.state.completed = true) :
      ThreadStep t e s e (s.goThr t .dereg)
  | recheck_register_done {e s w} (hpc : s.thr t = .recheck (.register w))
      (hc : s.slot.state.completed = true) :
      ThreadStep t e s e (s.goThr t (.unlock (.returned (.registered w true))))
  -- `register_waker` after its recheck: the stored waker has no owner but the drain
  | store {e s w} (hpc : s.thr t = .store w) :
      ThreadStep t e s e
        (((s.setRegistry (s.slot.registry.registerWaker w (s.via t).gen)).noteDirect
          (s.via t).gen w).goThr t (.unlock (.returned (.registered w false))))
  -- a wait that lost the race takes its own entries out and reads under the mutex
  | dereg {e s} (hpc : s.thr t = .dereg) :
      ThreadStep t e s e ((s.setRegistry (s.slot.registry.retainOthers t)).goThr t .readLocked)
  | readLocked {e s g v} (hpc : s.thr t = .readLocked) (hv : s.slot.outcome = some (g, v)) :
      ThreadStep t e s e (s.goThr t (.unlock (.returned (.value v))))
  | readLocked_dead {e s} (hpc : s.thr t = .readLocked) (hv : s.slot.outcome = none) :
      ThreadStep t e s e (s.goThr t (.unlock .fault))
  -- the guard goes, and the call with it or on to its park
  | unlock_park {e s} (hpc : s.thr t = .unlock .park) :
      ThreadStep t e s e (s.letGo.goThr t (.park none))
  | unlock_clock {e s d} (hpc : s.thr t = .unlock (.clock d)) :
      ThreadStep t e s e (s.letGo.goThr t (.clock d))
  | unlock_return {e s r} (hpc : s.thr t = .unlock (.returned r)) :
      ThreadStep t e s e ((s.letGo.noteAnswer r).goThr t (.returned r))
  | unlock_fault {e s} (hpc : s.thr t = .unlock .fault) :
      ThreadStep t e s e (s.letGo.goThr t .fault)
  -- `park_until` reads the clock before it parks
  | clock_running {e s d} (hpc : s.thr t = .clock d) (hnow : e.now < d) :
      ThreadStep t e s e (s.goThr t (.park (some d)))
  | clock_expired {e s d} (hpc : s.thr t = .clock d) (hnow : d ≤ e.now) :
      ThreadStep t e s e (s.goThr t (.loadReg .timeout))
  /-- `park` or `park_timeout` consumes the token. -/
  | park_token {e s d} (hpc : s.thr t = .park d) (htok : e.token t = true) :
      ThreadStep t e s { e with token := Function.update e.token t false }
        (s.goThr t (.check (.wait d)))
  /-- A spurious wake-up, or the end of `park_timeout`'s time. -/
  | park_spurious {e s d} (hpc : s.thr t = .park d) :
      ThreadStep t e s e (s.goThr t (.check (.wait d)))
  -- the timeout branch deregisters and returns `None`; it does not look at the state word
  | expire {e s} (hpc : s.thr t = .expire) :
      ThreadStep t e s e
        ((s.setRegistry (s.slot.registry.retainOthers t)).goThr t (.unlock (.returned .none)))
  | read {e s g v} (hpc : s.thr t = .read) (hv : s.slot.outcome = some (g, v)) :
      ThreadStep t e s e (s.goThr t (.returned (.value v)))
  | read_dead {e s} (hpc : s.thr t = .read) (hv : s.slot.outcome = none) :
      ThreadStep t e s e (s.goThr t .fault)

inductive FutStep (f : FutId) : SlotSys O W → SlotSys O W → Prop where
  -- the first `try_get` of a poll
  | poll_done {s w} (hpc : s.fpc f = .poll w) (hc : s.slot.state.completed = true) :
      FutStep f s (s.goFut f .read)
  -- a waker that the future has recorded is not registered again
  | poll_known {s w} (hpc : s.fpc f = .poll w) (hc : s.slot.state.completed = false)
      (hk : known (s.fut f).wakers w = true) :
      FutStep f s (s.goFut f (.poll2 w true))
  | poll_new {s w} (hpc : s.fpc f = .poll w) (hc : s.slot.state.completed = false)
      (hk : known (s.fut f).wakers w = false) :
      FutStep f s (s.goFut f (.check w))
  -- `register_future_waker`, with its own load before the bit
  | check_pending {s w} (hpc : s.fpc f = .check w) (hc : s.slot.state.completed = false) :
      FutStep f s (s.goFut f (.setBit w))
  | check_done {s w} (hpc : s.fpc f = .check w) (hc : s.slot.state.completed = true) :
      FutStep f s (s.goFut f (.poll2 w false))
  | setBit {s w} (hpc : s.fpc f = .setBit w) :
      FutStep f s ((s.setState s.slot.state.announce).goFut f (.loadReg (.register w)))
  | loadReg_null {s c} (hpc : s.fpc f = .loadReg c) (hn : s.slot.waiters = none) :
      FutStep f s (s.goFut f (.casReg c))
  | loadReg_some {s c} (hpc : s.fpc f = .loadReg c) (hn : s.slot.waiters ≠ none) :
      FutStep f s (s.goFut f (.acquire c))
  | casReg {s c} (hpc : s.fpc f = .casReg c) :
      FutStep f s (s.initRegistry.goFut f (.acquire c))
  | acquire_register {s w} (hpc : s.fpc f = .acquire (.register w)) (hfree : s.held = none) :
      FutStep f s ((s.hold (.future f)).goFut f (.recheck w))
  -- the drop of a future enters the registry without a look at the state word
  | acquire_cancel {s} (hpc : s.fpc f = .acquire .cancel) (hfree : s.held = none) :
      FutStep f s ((s.hold (.future f)).goFut f .remove)
  | recheck_pending {s w} (hpc : s.fpc f = .recheck w) (hc : s.slot.state.completed = false) :
      FutStep f s (s.goFut f (.store w))
  | recheck_done {s w} (hpc : s.fpc f = .recheck w) (hc : s.slot.state.completed = true) :
      FutStep f s (s.goFut f (.unlock (.poll2 w)))
  -- one more owner of the task's entry
  | store {s w ws} (hpc : s.fpc f = .store w)
      (hr : s.slot.registry.registerFutureWaker w (s.fut f).gen = some ws) :
      FutStep f s
        ((((s.setRegistry ws).noteStored (s.fut f).gen w).setFut f
          { s.fut f with stored := w :: (s.fut f).stored }).goFut f (.unlock (.poll2 w)))
  /-- `expect("waker registration count overflowed")`: the guard is dropped by the unwinding. -/
  | store_overflow {s w} (hpc : s.fpc f = .store w)
      (hr : s.slot.registry.registerFutureWaker w (s.fut f).gen = none) :
      FutStep f s
        ((s.setFut f { s.fut f with last := none }).goFut f (.unlock .panicked))
  | unlock_poll2 {s w} (hpc : s.fpc f = .unlock (.poll2 w)) :
      FutStep f s (s.letGo.goFut f (.poll2 w false))
  | unlock_panicked {s} (hpc : s.fpc f = .unlock .panicked) :
      FutStep f s (s.letGo.goFut f .panicked)
  | unlock_dead {s} (hpc : s.fpc f = .unlock .dead) :
      FutStep f s (s.letGo.goFut f .dead)
  -- the second `try_get`: on the way to `Ready` the waker stays unrecorded
  | poll2_done {s w b} (hpc : s.fpc f = .poll2 w b) (hc : s.slot.state.completed = true) :
      FutStep f s (s.goFut f .read)
  -- `Pending` records the waker, once for each task
  | poll2_pending {s w b} (hpc : s.fpc f = .poll2 w b) (hc : s.slot.state.completed = false) :
      FutStep f s
        ((s.setFut f { s.fut f with
          wakers := if b then (s.fut f).wakers else (s.fut f).wakers ++ [WillWake.clone w]
          last := some w }).goFut f .pending)
  | read {s g v} (hpc : s.fpc f = .read) (hv : s.slot.outcome = some (g, v)) :
      FutStep f s ((s.setFut f { s.fut f with last := none }).goFut f (.ready v))
  | read_dead {s} (hpc : s.fpc f = .read) (hv : s.slot.outcome = none) :
      FutStep f s (s.goFut f .fault)
  -- `retain_mut`: the owners that the future has recorded are given back
  | remove {s} (hpc : s.fpc f = .remove) :
      FutStep f s
        (((s.setRegistry (s.slot.registry.cancel (s.fut f).wakers)).setFut f
          ((s.fut f).leave s.slot.state.completed s.comp.taken)).goFut f (.unlock .dead))

inductive CompStep : Env → SlotSys O W → Env → SlotSys O W → Prop where
  -- the value is in the cell before either bit is set
  | write {e s g v} (hpc : s.comp = .write g v) :
      CompStep e s e ({ s with slot := s.slot.setOutcome g v }.goComp (.publish g v))
  /-- The `fetch_or` that publishes; nobody has announced a waiter. -/
  | publish_alone {e s g v} (hpc : s.comp = .publish g v)
      (hw : s.slot.state.hasWaiter = false) :
      CompStep e s e ((s.publish g v).goComp (.returned g false))
  -- the word before the `fetch_or` tells whether the registry has to be taken
  | publish_waiters {e s g v} (hpc : s.comp = .publish g v)
      (hw : s.slot.state.hasWaiter = true) :
      CompStep e s e ((s.publish g v).goComp (.loadReg g))
  | loadReg_null {e s g} (hpc : s.comp = .loadReg g) (hn : s.slot.waiters = none) :
      CompStep e s e (s.goComp (.casReg g))
  | loadReg_some {e s g} (hpc : s.comp = .loadReg g) (hn : s.slot.waiters ≠ none) :
      CompStep e s e (s.goComp (.acquire g))
  | casReg {e s g} (hpc : s.comp = .casReg g) :
      CompStep e s e (s.initRegistry.goComp (.acquire g))
  | acquire {e s g} (hpc : s.comp = .acquire g) (hfree : s.held = none) :
      CompStep e s e ((s.hold .completer).goComp (.take g))
  -- `mem::take` under the mutex; everything after it runs outside
  | take {e s g} (hpc : s.comp = .take g) :
      CompStep e s e ((s.setRegistry []).goComp (.unlock g s.slot.registry))
  | unlock {e s g ws} (hpc : s.comp = .unlock g ws) :
      CompStep e s e (s.letGo.goComp (.notify g ws false))
  | unpark {e s g t g' ws b} (hpc : s.comp = .notify g (.thread t g' :: ws) b) :
      CompStep e s { e with token := Function.update e.token t true }
        ((s.noteNotified g (.thread t g')).goComp (.notify g ws b))
  /-- `waker.wake()`, which may panic; the drain goes on. -/
  | wake {e s g w p n g' ws b} (panics : Bool)
      (hpc : s.comp = .notify g (.waker w p n g' :: ws) b) :
      CompStep e s e
        ((s.noteNotified g (.waker w p n g')).goComp (.notify g ws (b || panics)))
  | finish {e s g b} (hpc : s.comp = .notify g [] b) :
      CompStep e s e (s.goComp (.returned g b))

inductive CallStep (e : Env) (s : SlotSys O W) (e' : Env) (s' : SlotSys O W) : Prop where
  | thread (t : Tid) (h : ThreadStep t e s e' s')
  | future (f : FutId) (he : e' = e) (h : FutStep f s s')
  | complete (h : CompStep e s e' s')

end Steps

/-! ## Everything that can happen to one slot -/

inductive Call (W : Type) where
  | tryGet
  | wait (deadline : Option Nat)
  | registerWaker (w : W)

def Call.entry {O W : Type} : Call W → ThreadPc O W
  | .tryGet => .tryGet
  | .wait d => .check (.wait d)
  | .registerWaker w => .check (.register w)

def ThreadPc.active {O W : Type} : ThreadPc O W → Bool
  | .idle | .returned _ | .fault => false
  | _ => true

/-- The future is between polls. -/
def FutPc.resting {O W : Type} : FutPc O W → Bool
  | .idle | .ready _ | .pending | .panicked => true
  | _ => false

def FutPc.active {O W : Type} : FutPc O W → Bool
  | .idle | .ready _ | .pending | .panicked | .dead | .fault => false
  | _ => true

def CompPc.resting {O W : Type} : CompPc O W → Bool
  | .idle | .returned .. => true
  | _ => false

namespace SlotSys

variable {O W : Type}

def blank : SlotSys O W where
  slot := .new
  held := none
  thr _ := .idle
  via _ := ⟨0, 0⟩
  fpc _ := .idle
  fut _ := ⟨0, [], [], none, false, false, false⟩
  comp := .idle
  gen := 0
  futs := ∅
  direct := []
  answered := []
  notified := []
  stored := []
  published _ := none
  moved := []
  destroyed := []

def fresh (s : SlotSys O W) (g : Gen) : SlotSys O W :=
  { s with slot := .new, comp := .idle, gen := g, futs := ∅, direct := [], answered := [] }

/-- `slot.reset()` for generation `g`. -/
def recycle (s : SlotSys O W) (g : Gen) : SlotSys O W :=
  { s with
    slot := s.slot.reset, comp := .idle, gen := g, futs := ∅, direct := [], answered := []
    destroyed := s.slot.destroys ++ s.destroyed }

def finalDrop (s : SlotSys O W) : SlotSys O W :=
  { s with slot := .new, destroyed := s.slot.destroys ++ s.destroyed }

/-- The exclusive take of `into_outcome`: the value moves out and `OUTCOME_VALID` is cleared. -/
def takeOutcome (s : SlotSys O W) : SlotSys O W :=
  { s with
    slot := { s.slot with
      outcome := none
      state := { s.slot.state with outcomeValid := false } }
    moved := (s.slot.outcome.map Prod.fst).toList ++ s.moved }

def startCall (s : SlotSys O W) (t : Tid) (h : Handle) (c : Call W) : SlotSys O W :=
  { s with via := Function.update s.via t h, thr := Function.update s.thr t c.entry }

def newFuture (s : SlotSys O W) (f : FutId) (g : Gen) : SlotSys O W :=
  { s with
    futs := insert f s.futs
    fut := Function.update s.fut f ⟨g, [], [], none, false, false, false⟩
    fpc := Function.update s.fpc f .idle }

def startPoll (s : SlotSys O W) (f : FutId) (w : W) : SlotSys O W := s.goFut f (.poll w)

/-- `ObservationFuture::drop`, which leaves the registry alone when no waker is recorded. -/
def startCancel (s : SlotSys O W) (f : FutId) : SlotSys O W :=
  if (s.fut f).wakers.isEmpty then
    (s.setFut f ((s.fut f).leave s.slot.state.completed s.comp.taken)).goFut f .dead
  else s.goFut f (.loadReg .cancel)

def startComplete (s : SlotSys O W) (g : Gen) (v : O) : SlotSys O W := s.goComp (.write g v)

structure Quiescent (s : SlotSys O W) : Prop where
  thr : ∀ t, (s.thr t).active = false
  fut : ∀ f, (s.fpc f).active = false
  futs : ∀ f ∈ s.futs, s.fpc f = .dead
  comp : s.comp.resting = true

end SlotSys

/-- One slot with any number of threads and futures, over all its generations.  The environment is
every other slot and the rest of the program: it sets tokens at any time, takes the token of a
thread that is in no call here, and lets time pass. -/
inductive SlotMove {O W : Type} [WillWake W] : Env × SlotSys O W → Env × SlotSys O W → Prop where
  | step {e s e' s'} (h : CallStep e s e' s') : SlotMove (e, s) (e', s')
  | call {e s} (t : Tid) (h : Handle) (c : Call W) (hidle : (s.thr t).active = false)
      (hg : h.gen = s.gen) : SlotMove (e, s) (e, s.startCall t h c)
  | intoFuture {e s} (f : FutId) (hf : f ∉ s.futs) (hidle : (s.fpc f).active = false) :
      SlotMove (e, s) (e, s.newFuture f s.gen)
  | poll {e s} (f : FutId) (w : W) (hf : f ∈ s.futs) (hrest : (s.fpc f).resting = true) :
      SlotMove (e, s) (e, s.startPoll f w)
  | cancel {e s} (f : FutId) (hf : f ∈ s.futs) (hrest : (s.fpc f).resting = true) :
      SlotMove (e, s) (e, s.startCancel f)
  | complete {e s} (v : O) (hidle : s.comp = .idle) :
      SlotMove (e, s) (e, s.startComplete s.gen v)
  | recycle {e s} (g : Gen) (hq : s.Quiescent) (hg : s.gen < g) :
      SlotMove (e, s) (e, s.recycle g)
  | unparkElsewhere {e s} (t : Tid) :
      SlotMove (e, s) ({ e with token := Function.update e.token t true }, s)
  | parkElsewhere {e s} (t : Tid) (hidle : (s.thr t).active = false) :
      SlotMove (e, s) ({ e with token := Function.update e.token t false }, s)
  | tick {e s} (n : Nat) (hn : e.now ≤ n) : SlotMove (e, s) ({ e with now := n }, s)

def slotSystem (O W : Type) [WillWake W] : Lib.System (Env × SlotSys O W) where
  init x := ∃ g, x.2 = SlotSys.blank.fresh g
  step := SlotMove

end Observe
