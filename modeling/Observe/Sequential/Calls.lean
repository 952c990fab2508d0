import Observe.Protocol.Safety
import Mathlib.Logic.Relation

/-!
# The calls on one slot, one at a time

Each call as one function on the slot, for a caller that nobody interferes with, and the steps of
the interleaved model that it stands for.
-/

namespace Observe

variable {O W : Type}

inductive Polled (O : Type) where
  | ready (v : O)
  | pending
  | overflowed

namespace SlotSys

def callTryGet (s : SlotSys O W) (t : Tid) (h : Handle) : SlotSys O W × Option O :=
  let s := s.startCall t h .tryGet
  if s.slot.state.completed then
    match s.slot.outcome with
    | some (_, v) => (s.goThr t (.returned (.value v)), some v)
    | none => (s.goThr t .fault, none)
  else (s.goThr t (.returned .none), none)

variable [WillWake W]

def callRegisterWaker (s : SlotSys O W) (t : Tid) (h : Handle) (w : W) : SlotSys O W × Bool :=
  let s := s.startCall t h (.registerWaker w)
  if s.slot.state.completed then (s.goThr t (.returned (.registered w true)), true)
  else
    let s := s.setState s.slot.state.announce
    let s := (s.setRegistry (s.slot.registry.registerWaker w h.gen)).noteDirect h.gen w
    ((s.noteAnswer (.registered w false)).goThr t (.returned (.registered w false)), false)

def callPoll (s : SlotSys O W) (f : FutId) (w : W) : SlotSys O W × Polled O :=
  let x := s.fut f
  if s.slot.state.completed then
    match s.slot.outcome with
    | some (_, v) => ((s.setFut f { x with last := none }).goFut f (.ready v), .ready v)
    | none => (s.goFut f .fault, .pending)
  else if known x.wakers w then
    ((s.setFut f { x with last := some w }).goFut f .pending, .pending)
  else
    let s := (s.setState s.slot.state.announce).initRegistry
    match s.slot.registry.registerFutureWaker w x.gen with
    | none => ((s.setFut f { x with last := none }).goFut f .panicked, .overflowed)
    | some ws =>
      let x := { x with
        stored := w :: x.stored, wakers := x.wakers ++ [WillWake.clone w], last := some w }
      ((((s.setRegistry ws).noteStored x.gen w).setFut f x).goFut f .pending, .pending)

/-- `ObservationFuture::drop`, up to the release of its observation. -/
def callCancel (s : SlotSys O W) (f : FutId) : SlotSys O W :=
  let x := (s.fut f).leave s.slot.state.completed s.comp.taken
  if (s.fut f).wakers.isEmpty then (s.setFut f x).goFut f .dead
  else ((s.setRegistry (s.slot.registry.cancel (s.fut f).wakers)).setFut f x).goFut f .dead

omit [WillWake W] in
/-- The drain notifies everything that it has taken; no waker panics. -/
def notifyAll (e : Env) (s : SlotSys O W) (g : Gen) : Registry W → Env × SlotSys O W
  | [] => (e, s.goComp (.returned g false))
  | .thread t g' :: ws =>
    notifyAll { e with token := Function.update e.token t true }
      (s.noteNotified g (.thread t g')) g ws
  | .waker w p n g' :: ws => notifyAll e (s.noteNotified g (.waker w p n g')) g ws

omit [WillWake W] in
def callComplete (e : Env) (s : SlotSys O W) (g : Gen) (v : O) : Env × SlotSys O W :=
  let s := ({ s with slot := s.slot.setOutcome g v } : SlotSys O W).publish g v
  if s.slot.state.hasWaiter then notifyAll e (s.setRegistry []) g s.slot.registry
  else (e, s.goComp (.returned g false))

end SlotSys

/-! ## The steps of a call -/

def CallSteps [WillWake W] (x x' : Env × SlotSys O W) : Prop :=
  Relation.ReflTransGen (fun a b : Env × SlotSys O W => CallStep a.1 a.2 b.1 b.2) x x'

namespace CallSteps

variable [WillWake W] {e e' : Env} {s s' s'' : SlotSys O W}

theorem thread {x : Env × SlotSys O W} (h : CallSteps x (e, s)) (t : Tid)
    (hs : ThreadStep t e s e' s') : CallSteps x (e', s') :=
  Relation.ReflTransGen.tail h (CallStep.thread t hs)

theorem future {x : Env × SlotSys O W} (h : CallSteps x (e, s)) (f : FutId)
    (hs : FutStep f s s') : CallSteps x (e, s') :=
  Relation.ReflTransGen.tail h (CallStep.future f rfl hs)

theorem complete {x : Env × SlotSys O W} (h : CallSteps x (e, s)) (hs : CompStep e s e' s') :
    CallSteps x (e', s') :=
  Relation.ReflTransGen.tail h (CallStep.complete hs)

theorem refl (x : Env × SlotSys O W) : CallSteps x x := Relation.ReflTransGen.refl

theorem trans {x y z : Env × SlotSys O W} (h : CallSteps x y) (h' : CallSteps y z) :
    CallSteps x z :=
  Relation.ReflTransGen.trans h h'

end CallSteps

namespace SlotSys

variable [WillWake W] {e : Env} {s : SlotSys O W}

theorem callTryGet_steps (e : Env) (s : SlotSys O W) (t : Tid) (h : Handle) :
    CallSteps (e, s.startCall t h .tryGet) (e, (s.callTryGet t h).1) := by
  have h₀ := CallSteps.refl (e, s.startCall t h .tryGet)
  have hpc : (s.startCall t h .tryGet).thr t = .tryGet := by simp [startCall, Call.entry]
  unfold callTryGet
  cases hc : s.slot.state.completed with
  | false =>
    simpa [startCall, hc] using h₀.thread t (.tryGet_pending hpc hc)
  | true =>
    have h₁ := h₀.thread t (.tryGet_done hpc hc)
    cases ho : s.slot.outcome with
    | none => simpa [startCall, hc, ho] using h₁.thread t (.read_dead (by simp) ho)
    | some x => simpa [startCall, hc, ho] using h₁.thread t (.read (by simp) ho)

/-- `waiters()`. -/
theorem waiters_steps {t : Tid} {c : Section W} (hpc : s.thr t = .loadReg c) :
    CallSteps (e, s) (e, s.initRegistry.goThr t (.acquire c)) := by
  have h₀ := CallSteps.refl (e, s)
  cases hn : s.slot.waiters with
  | none =>
    have h₁ := h₀.thread t (.loadReg_null hpc hn)
    simpa [Slot.registry] using h₁.thread t (.casReg (c := c) (by simp))
  | some ws =>
    have hslot : (⟨s.slot.state, s.slot.outcome, some s.slot.registry⟩ : Slot O W) = s.slot := by
      have hreg : some s.slot.registry = s.slot.waiters := by simp [Slot.registry, hn]
      rw [hreg]
    simpa [hslot] using h₀.thread t (.loadReg_some hpc (by simp [hn]))

theorem callRegisterWaker_steps (hfree : s.held = none) (t : Tid) (h : Handle) (w : W) :
    CallSteps (e, s.startCall t h (.registerWaker w)) (e, (s.callRegisterWaker t h w).1) := by
  have h₀ := CallSteps.refl (e, s.startCall t h (.registerWaker w))
  have hpc : (s.startCall t h (.registerWaker w)).thr t = .check (.register w) := by
    simp [startCall, Call.entry]
  unfold callRegisterWaker
  cases hc : s.slot.state.completed with
  | true => simpa [startCall, hc] using h₀.thread t (.check_register_done hpc hc)
  | false =>
    have h₁ := h₀.thread t (.check_pending hpc hc)
    have h₂ := h₁.thread t (.setBit (c := .register w) (by simp))
    have h₃ := h₂.trans (waiters_steps (t := t) (c := .register w) (by simp))
    have h₄ := h₃.thread t (.acquire_register (w := w) (by simp) hfree)
    have h₅ := h₄.thread t (.recheck_register_pending (w := w) (by simp)
      (by simpa [startCall] using hc))
    have h₆ := h₅.thread t (.store (w := w) (by simp))
    have h₇ := h₆.thread t (.unlock_return (r := .registered w false) (by simp))
    simpa [startCall, hc, hfree, Slot.registry] using h₇

/-- `waiters()` of a future. -/
theorem waiters_futSteps {f : FutId} {c : FutSection W} (hpc : s.fpc f = .loadReg c) :
    CallSteps (e, s) (e, s.initRegistry.goFut f (.acquire c)) := by
  have h₀ := CallSteps.refl (e, s)
  cases hn : s.slot.waiters with
  | none =>
    have h₁ := h₀.future f (.loadReg_null hpc hn)
    simpa [Slot.registry] using h₁.future f (.casReg (c := c) (by simp))
  | some ws =>
    have hslot : (⟨s.slot.state, s.slot.outcome, some s.slot.registry⟩ : Slot O W) = s.slot := by
      have hreg : some s.slot.registry = s.slot.waiters := by simp [Slot.registry, hn]
      rw [hreg]
    simpa [hslot] using h₀.future f (.loadReg_some hpc (by simp [hn]))

theorem callPoll_steps (hfree : s.held = none) (f : FutId) (w : W) :
    CallSteps (e, s.startPoll f w) (e, (s.callPoll f w).1) := by
  have h₀ := CallSteps.refl (e, s.startPoll f w)
  have hpc : (s.startPoll f w).fpc f = .poll w := by simp [startPoll]
  unfold callPoll
  cases hc : s.slot.state.completed with
  | true =>
    have h₁ := h₀.future f (.poll_done hpc hc)
    cases ho : s.slot.outcome with
    | none => simpa [startPoll, hc, ho] using h₁.future f (.read_dead (by simp) ho)
    | some x => simpa [startPoll, hc, ho] using h₁.future f (.read (by simp) ho)
  | false =>
    cases hk : known (s.fut f).wakers w with
    | true =>
      have h₁ := h₀.future f (.poll_known hpc hc hk)
      simpa [startPoll, hc, hk] using
        h₁.future f (.poll2_pending (w := w) (b := true) (by simp) hc)
    | false =>
      have h₁ := h₀.future f (.poll_new hpc hc hk)
      have h₂ := h₁.future f (.check_pending (w := w) (by simp) hc)
      have h₃ := h₂.future f (.setBit (w := w) (by simp))
      have h₄ := h₃.trans (waiters_futSteps (f := f) (c := .register w) (by simp))
      have h₅ := h₄.future f (.acquire_register (w := w) (by simp) hfree)
      have h₆ := h₅.future f (.recheck_pending (w := w) (by simp)
        (by simpa [startPoll] using hc))
      cases hr : s.slot.registry.registerFutureWaker w (s.fut f).gen with
      | none =>
        have h₇ := h₆.future f (.store_overflow (w := w) (by simp)
          (by simpa [startPoll, Slot.registry] using hr))
        have h₈ := h₇.future f (.unlock_panicked (by simp))
        simp only [Slot.registry] at hr
        simpa [startPoll, hc, hk, hr, hfree, Slot.registry] using h₈
      | some ws =>
        have h₇ := h₆.future f (.store (w := w) (by simp)
          (by simpa [startPoll, Slot.registry] using hr))
        have h₈ := h₇.future f (.unlock_poll2 (w := w) (by simp))
        have h₉ := h₈.future f (.poll2_pending (w := w) (b := false) (by simp)
          (by simpa [startPoll] using hc))
        simp only [Slot.registry] at hr
        simpa [startPoll, hc, hk, hr, hfree, Slot.registry] using h₉

theorem callCancel_steps (hfree : s.held = none) (f : FutId) :
    CallSteps (e, s.startCancel f) (e, s.callCancel f) := by
  unfold startCancel callCancel
  cases hm : (s.fut f).wakers.isEmpty with
  | true => exact CallSteps.refl _
  | false =>
    have h₀ := CallSteps.refl (e, s.goFut f (.loadReg .cancel))
    have h₁ := h₀.trans (waiters_futSteps (f := f) (c := .cancel) (by simp))
    have h₂ := h₁.future f (.acquire_cancel (by simp) hfree)
    have h₃ := h₂.future f (.remove (by simp))
    have h₄ := h₃.future f (.unlock_dead (by simp))
    simpa [hfree, Slot.registry] using h₄

omit [WillWake W] in
theorem notifyAll_goComp (e : Env) (s : SlotSys O W) (g : Gen) (k : CompPc O W) (ws : Registry W) :
    notifyAll e (s.goComp k) g ws = notifyAll e s g ws := by
  induction ws generalizing e s with
  | nil => rfl
  | cons x ws ih =>
    cases x with
    | thread t g' => exact ih _ (s.noteNotified g (.thread t g'))
    | waker w p n g' => exact ih _ (s.noteNotified g (.waker w p n g'))

theorem notifyAll_steps (g : Gen) (ws : Registry W) (hcomp : s.comp = .notify g ws false) :
    CallSteps (e, s) (notifyAll e s g ws) := by
  induction ws generalizing e s with
  | nil => exact (CallSteps.refl (e, s)).complete (.finish hcomp)
  | cons x ws ih =>
    cases x with
    | thread t g' =>
      have h₁ := (CallSteps.refl (e, s)).complete (.unpark hcomp)
      have hrest := ih (e := { e with token := Function.update e.token t true })
        (s := (s.noteNotified g (.thread t g')).goComp (.notify g ws false)) rfl
      rw [notifyAll_goComp] at hrest
      exact h₁.trans hrest
    | waker w p n g' =>
      have h₁ := (CallSteps.refl (e, s)).complete (.wake false hcomp)
      have hrest := ih (e := e)
        (s := (s.noteNotified g (.waker w p n g')).goComp (.notify g ws false)) rfl
      rw [notifyAll_goComp] at hrest
      exact h₁.trans hrest

/-- `waiters()` of the completion. -/
theorem waiters_compSteps {g : Gen} (hpc : s.comp = .loadReg g) :
    CallSteps (e, s) (e, s.initRegistry.goComp (.acquire g)) := by
  have h₀ := CallSteps.refl (e, s)
  cases hn : s.slot.waiters with
  | none =>
    have h₁ := h₀.complete (.loadReg_null hpc hn)
    simpa [Slot.registry] using h₁.complete (.casReg (g := g) (by simp))
  | some ws =>
    have hslot : (⟨s.slot.state, s.slot.outcome, some s.slot.registry⟩ : Slot O W) = s.slot := by
      have hreg : some s.slot.registry = s.slot.waiters := by simp [Slot.registry, hn]
      rw [hreg]
    simpa [hslot] using h₀.complete (.loadReg_some hpc (by simp [hn]))

theorem callComplete_steps (hfree : s.held = none) (g : Gen) (v : O) :
    CallSteps (e, s.startComplete g v) (callComplete e s g v) := by
  have h₀ := CallSteps.refl (e, s.startComplete g v)
  have h₁ := h₀.complete (.write (g := g) (v := v) rfl)
  unfold callComplete
  cases hw : s.slot.state.hasWaiter with
  | false =>
    have h₂ := h₁.complete (.publish_alone rfl hw)
    simpa [startComplete, hw, Slot.setOutcome] using h₂
  | true =>
    have h₂ := h₁.complete (.publish_waiters rfl hw)
    have h₃ := h₂.trans (waiters_compSteps rfl)
    have h₄ := h₃.complete (.acquire rfl hfree)
    have h₅ := h₄.complete (.take rfl)
    have h₆ := h₅.complete (.unlock rfl)
    have h₇ := h₆.trans (notifyAll_steps g _ rfl)
    rw [← notifyAll_goComp e _ g .idle] at h₇
    simp only [Slot.setOutcome, publish, StateWord.publish_hasWaiter, hw, if_true]
    rw [← notifyAll_goComp e _ g .idle]
    simpa [startComplete, hfree, Slot.setOutcome, Slot.registry] using h₇

end SlotSys

end Observe
