import Observe.Sequential.Calls
import Observe.Space.History

/-!
# The program, one call after another

A caller that finishes each call before it makes the next, as a function on the program's state.
Each call is a run of the interleaved model.
-/

namespace Observe

inductive Op (K O W : Type) where
  | subject (key : K)
  | complete (g : Gen) (v : O)
  | observe (key : K)
  | cloneObs (o : ObsId)
  | tryGet (o : ObsId)
  | registerWaker (o : ObsId) (w : W)
  | intoFuture (o : ObsId)
  | poll (f : FutId) (w : W)
  | intoOutcome (o : ObsId)
  | dropObs (o : ObsId)
  | dropFuture (f : FutId)
  | dropSubject (g : Gen)

inductive Res (K O : Type) where
  | subject (r : SubjectResult K)
  | observe (r : Option ObsId)
  | outcome (r : Option O)
  | registered (r : Bool)
  | polled (r : Polled O)
  | done
  /-- The handle does not exist, so there is no such call. -/
  | noHandle

namespace World

variable {K O W : Type} [Key K] [WillWake W] {bits : Nat}

def exec (w : World K O W bits) : Op K O W → World K O W bits × Res K O
  | .subject key => ((w.subject key).1, .subject (w.subject key).2)
  | .complete g v =>
    match w.auth g with
    | .subject k n i false =>
      let r := SlotSys.callComplete w.env (w.slots i) g v
      ({ w with
        env := r.1
        auth := Function.update w.auth g (.subject k n i true)
        slots := Function.update w.slots i r.2 }, .done)
    | _ => (w, .noHandle)
  | .observe key => ((w.observe key).1, .observe (w.observe key).2)
  | .cloneObs o =>
    match w.obs o with
    | .live i g => (w.newObs i g, .done)
    | _ => (w, .noHandle)
  | .tryGet o =>
    match w.obs o with
    | .live i g =>
      let r := (w.slots i).callTryGet 0 ⟨o, g⟩
      (w.setSlot i r.1, .outcome r.2)
    | _ => (w, .noHandle)
  | .registerWaker o wk =>
    match w.obs o with
    | .live i g =>
      let r := (w.slots i).callRegisterWaker 0 ⟨o, g⟩ wk
      (w.setSlot i r.1, .registered r.2)
    | _ => (w, .noHandle)
  | .intoFuture o =>
    match w.obs o with
    | .live i g => (w.intoFuture o i g, .done)
    | _ => (w, .noHandle)
  | .poll f wk =>
    match w.futs f with
    | .live i _ =>
      let r := (w.slots i).callPoll f wk
      (w.setSlot i r.1, .polled r.2)
    | _ => (w, .noHandle)
  | .intoOutcome o =>
    match w.obs o with
    | .live i g =>
      let r := w.intoOutcome o i g
      if w.arcs.count i = 1 then (r.1, .outcome r.2)
      else
        ({ r.1 with obs := Function.update r.1.obs o (.gone g (some none)) }.release (.obs o) false,
          .outcome r.2)
    | _ => (w, .noHandle)
  | .dropObs o =>
    match w.obs o with
    | .live _ g =>
      ({ w with obs := Function.update w.obs o (.gone g none) }.release (.obs o) false, .done)
    | _ => (w, .noHandle)
  | .dropFuture f =>
    match w.futs f with
    | .live i _ =>
      let w := w.setSlot i ((w.slots i).callCancel f)
      ({ w with futs := Function.update w.futs f .gone }.release (.fut f) false, .done)
    | _ => (w, .noHandle)
  | .dropSubject g =>
    match w.auth g with
    | .subject k n i _ =>
      let w := w.retire g k n i
      ({ w with auth := Function.update w.auth g .gone }.release (.subject g) false, .done)
    | _ => (w, .noHandle)

def run (w : World K O W bits) : List (Op K O W) → World K O W bits × List (Res K O)
  | [] => (w, [])
  | op :: ops => (((w.exec op).1.run ops).1, (w.exec op).2 :: ((w.exec op).1.run ops).2)

end World

/-! ## What a call leaves alone -/

namespace SlotSys

variable {O W : Type}

structure ThreadCall (t : Tid) (s s' : SlotSys O W) : Prop where
  self : (s'.thr t).active = false
  thr : ∀ u, u ≠ t → s'.thr u = s.thr u
  comp : s'.comp = s.comp
  fpc : s'.fpc = s.fpc
  published : s'.published = s.published

theorem callTryGet_frame (s : SlotSys O W) (t : Tid) (h : Handle) :
    ThreadCall t s (s.callTryGet t h).1 := by
  unfold callTryGet
  dsimp only
  split
  · split <;>
      exact ⟨by simp [ThreadPc.active], fun u hu => by simp [startCall, hu], rfl, rfl, rfl⟩
  · exact ⟨by simp [ThreadPc.active], fun u hu => by simp [startCall, hu], rfl, rfl, rfl⟩

structure FutCall (f : FutId) (s s' : SlotSys O W) : Prop where
  thr : s'.thr = s.thr
  comp : s'.comp = s.comp
  fpc : ∀ f', f' ≠ f → s'.fpc f' = s.fpc f'
  published : s'.published = s.published

structure CompleteCall (g : Gen) (v : O) (s s' : SlotSys O W) : Prop where
  thr : s'.thr = s.thr
  comp : s'.comp.resting = true
  fpc : s'.fpc = s.fpc
  published : s'.published = Function.update s.published g (some v)

theorem notifyAll_frame (e : Env) (s : SlotSys O W) (g : Gen) (ws : Registry W) :
    (notifyAll e s g ws).2.thr = s.thr ∧ (notifyAll e s g ws).2.comp = .returned g false ∧
      (notifyAll e s g ws).2.fpc = s.fpc ∧ (notifyAll e s g ws).2.published = s.published := by
  induction ws generalizing e s with
  | nil => exact ⟨rfl, rfl, rfl, rfl⟩
  | cons x ws ih =>
    cases x with
    | thread t g' => exact ih _ (s.noteNotified g (.thread t g'))
    | waker w p n g' => exact ih e (s.noteNotified g (.waker w p n g'))

theorem callComplete_frame (e : Env) (s : SlotSys O W) (g : Gen) (v : O) :
    CompleteCall g v s (callComplete e s g v).2 := by
  unfold callComplete
  dsimp only
  split
  · obtain ⟨hthr, hcomp, hfpc, hpub⟩ := notifyAll_frame e
      ((({ s with slot := s.slot.setOutcome g v } : SlotSys O W).publish g v).setRegistry []) g
      (({ s with slot := s.slot.setOutcome g v } : SlotSys O W).publish g v).slot.registry
    exact ⟨hthr, by rw [hcomp]; rfl, hfpc, hpub⟩
  · exact ⟨rfl, rfl, rfl, rfl⟩

variable [WillWake W]

theorem callRegisterWaker_frame (s : SlotSys O W) (t : Tid) (h : Handle) (w : W) :
    ThreadCall t s (s.callRegisterWaker t h w).1 := by
  unfold callRegisterWaker
  dsimp only
  split <;>
    exact ⟨by simp [ThreadPc.active], fun u hu => by simp [startCall, hu], rfl, rfl, rfl⟩

theorem callPoll_frame (s : SlotSys O W) (f : FutId) (w : W) :
    FutCall f s (s.callPoll f w).1 := by
  unfold callPoll
  dsimp only
  split
  · split <;> exact ⟨rfl, rfl, fun f' hf => by simp [hf], rfl⟩
  · split
    · exact ⟨rfl, rfl, fun f' hf => by simp [hf], rfl⟩
    · split <;> exact ⟨rfl, rfl, fun f' hf => by simp [hf], rfl⟩

theorem callCancel_frame (s : SlotSys O W) (f : FutId) : FutCall f s (s.callCancel f) := by
  unfold callCancel
  dsimp only
  split <;> exact ⟨rfl, rfl, fun f' hf => by simp [hf], rfl⟩

theorem callCancel_dead (s : SlotSys O W) (f : FutId) : (s.callCancel f).fpc f = .dead := by
  unfold callCancel
  dsimp only
  split <;> simp

end SlotSys

/-! ## Between two calls -/

theorem FutPc.inactive_of_resting {O W : Type} {k : FutPc O W} (h : k.resting = true) :
    k.active = false := by
  cases k <;> first | rfl | cases h

/-- The record of a subject that is made, or whose drop is over. -/
def Authority.settled {K : Type} {bits : Nat} : Authority K bits → Bool
  | .absent | .subject .. | .gone => true
  | _ => false

namespace World

variable {K O W : Type} [Key K] {bits : Nat} {w : World K O W bits}

/-- No call is in flight, and there is a space to call. -/
structure Quiet (w : World K O W bits) : Prop where
  thr : ∀ i t, ((w.slots i).thr t).active = false
  comp : ∀ i, (w.slots i).comp.resting = true
  fut : ∀ f i g, w.futs f = .live i g → ((w.slots i).fpc f).resting = true
  auth : ∀ g, (w.auth g).settled = true
  obs : ∀ o i g, w.obs o ≠ .refused i g
  spaces : 0 < w.spaces

namespace Quiet

theorem new (e : Env) : (World.new e : World K O W bits).Quiet :=
  ⟨fun _ _ => rfl, fun _ => rfl, fun _ _ _ _ => rfl, fun _ => rfl,
    fun _ _ _ => nofun, Nat.one_pos⟩

theorem idle (hq : w.Quiet) (t : Tid) : w.Idle t := fun i => hq.thr i t

theorem unborrowed (hq : w.Quiet) (o : ObsId) : w.Unborrowed o := fun i t hact => by
  rw [hq.thr i t] at hact
  cases hact

/-- Nobody holds the mutex of a slot in use. -/
theorem free [WillWake W] (hq : w.Quiet) (h : w.Inv) {i : SlotId} (hi : w.arcs.Held i) :
    (w.slots i).held = none := by
  refine (h.safe_of_held hi).wf.mutex.free (hq.thr i) (fun f => ?_) (hq.comp i)
  by_contra hact
  obtain ⟨g, hf⟩ := h.borrowed.fut i f (by simpa using hact)
  exact hact (FutPc.inactive_of_resting (hq.fut f i g hf))

end Quiet

end World

end Observe
