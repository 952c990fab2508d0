import Observe.Protocol.Publication

/-!
# What a future records

`ObservationFuture::wakers` against the registrations the future really made: every recorded waker
is registered, and every registered waker is recorded by the end of the poll unless that poll has
returned the outcome.
-/

namespace Observe

variable {O W : Type}

/-! ## Classes of program counters -/

def FutPc.registering : FutPc O W → Option W
  | .check w | .setBit w | .loadReg (.register w) | .casReg (.register w) | .acquire (.register w)
  | .recheck w | .store w => some w
  | _ => none

/-- The waker that `register_future_waker` has dealt with and `poll` has yet to record. -/
def FutPc.unrecorded : FutPc O W → Option W
  | .unlock (.poll2 w) | .poll2 w false => some w
  | _ => none

def FutPc.gone : FutPc O W → Bool
  | .unlock .dead | .dead => true
  | _ => false

theorem FutPc.unrecorded_of_resting {k : FutPc O W} (h : k.resting = true) :
    k.unrecorded = none := by
  cases k <;> first | rfl | cases h

theorem FutPc.gone_of_resting {k : FutPc O W} (h : k.resting = true) : k.gone = false := by
  cases k <;> first | rfl | cases h

/-! ## The invariant of one future -/

section Records

variable [WillWake W]

structure Fut.Ok (completed : Bool) (pc : FutPc O W) (x : Fut W) : Prop where
  /-- What is recorded is registered. -/
  recorded : ∀ a, known x.wakers a = true → known x.stored a = true
  /-- What is registered is recorded, or about to be. -/
  kept : completed = false → ∀ a, known x.stored a = true →
    known x.wakers a = true ∨ ∃ w, pc.unrecorded = some w ∧ willWake w a = true
  /-- A waker is registered once. -/
  new : ∀ w, pc.registering = some w → known x.stored w = false
  settled : ∀ w, pc.unrecorded = some w → completed = true ∨ known x.stored w = true
  repeated : ∀ w, pc = .poll2 w true → known x.wakers w = true
  cancelled : x.cancelled = pc.gone
  early : x.early = true → x.cancelled = true
  prompt : x.prompt = true → x.early = true ∧ ∀ a, known x.stored a = true → known x.wakers a = true
  left : completed = false → x.cancelled = true → x.prompt = true
  last : ∀ w, x.last = some w → known x.stored w = true

namespace Fut.Ok

variable {c c' : Bool} {pc k : FutPc O W} {x : Fut W}

/-- Publication only takes obligations away. -/
theorem publish (h : x.Ok c pc) (hc : c = true → c' = true) : x.Ok c' pc where
  recorded := h.recorded
  kept hc' := h.kept (by cases c with | false => rfl | true => rw [hc rfl] at hc'; cases hc')
  new := h.new
  settled w hw := (h.settled w hw).imp_left hc
  repeated := h.repeated
  cancelled := h.cancelled
  early := h.early
  prompt := h.prompt
  left hc' := h.left (by cases c with | false => rfl | true => rw [hc rfl] at hc'; cases hc')
  last := h.last

/-- The future moves on and its record stays, as it does at most steps. -/
theorem move (h : x.Ok c pc)
    (hkept : c = true ∨ k.unrecorded = pc.unrecorded ∨ pc.unrecorded = none)
    (hnew : ∀ w, k.registering = some w → known x.stored w = false)
    (hsettled : ∀ w, k.unrecorded = some w → c = true ∨ known x.stored w = true)
    (hrep : ∀ w, k = .poll2 w true → known x.wakers w = true) (hgone : k.gone = pc.gone) :
    x.Ok c k where
  recorded := h.recorded
  kept hc a ha := by
    rcases h.kept hc a ha with hrec | ⟨w, hw, hwa⟩
    · exact .inl hrec
    -- what is registered and unrecorded stays on the way, unless the slot has completed
    · rcases hkept with hdone | heq | hnone
      · rw [hc] at hdone; cases hdone
      · exact .inr ⟨w, by rw [heq, hw], hwa⟩
      · rw [hnone] at hw; cases hw
  new := hnew
  settled := hsettled
  repeated := hrep
  cancelled := by rw [hgone, h.cancelled]
  early := h.early
  prompt := h.prompt
  left := h.left
  last := h.last

/-- The future moves on without registering or recording anything. -/
theorem moveOn (h : x.Ok c pc) (hr : k.registering = pc.registering)
    (hu : k.unrecorded = pc.unrecorded) (hrep : ∀ w, k ≠ .poll2 w true)
    (hgone : k.gone = pc.gone) : x.Ok c k :=
  h.move (.inr <| .inl hu) (fun w hw => h.new w (by rw [← hr, hw]))
    (fun w hw => h.settled w (by rw [← hu, hw])) (fun w hw => absurd hw (hrep w)) hgone

/-- A poll or a drop starts from rest. -/
theorem start (h : x.Ok c pc) (hrest : pc.resting = true) (hr : k.registering = none)
    (hu : k.unrecorded = none) (hrep : ∀ w, k ≠ .poll2 w true) (hg : k.gone = false) :
    x.Ok c k :=
  h.move (.inr <| .inr (FutPc.unrecorded_of_resting hrest)) (fun w hw => by rw [hr] at hw; cases hw)
    (fun w hw => by rw [hu] at hw; cases hw) (fun w hw => absurd hw (hrep w))
    (by rw [hg, FutPc.gone_of_resting hrest])

/-- A waker that is stored is one that `poll` has yet to record. -/
theorem store {w : W} (h : x.Ok c (.store w : FutPc O W)) :
    { x with stored := w :: x.stored }.Ok c (.unlock (.poll2 w) : FutPc O W) where
  recorded a ha := by simp [h.recorded a ha]
  kept hc a ha := by
    rw [known_cons, Bool.or_eq_true] at ha
    rcases ha with ha | ha
    · exact .inr ⟨w, rfl, ha⟩
    · rcases h.kept hc a ha with hrec | ⟨w', hw', -⟩
      · exact .inl hrec
      · cases hw'
  new w' hw' := by cases hw'
  settled w' hw' := by
    cases hw'
    exact .inr (by simp [WillWake.refl])
  repeated w' hw' := by cases hw'
  cancelled := h.cancelled
  early := h.early
  prompt hp := by
    -- a future that has left does not poll
    have hleft := h.early (h.prompt hp).1
    rw [h.cancelled] at hleft
    cases hleft
  left := h.left
  last w' hw' := by simp [h.last w' hw']

/-- A poll records the waker that it has stored, unless it knew the task. -/
theorem record {w : W} {b : Bool} (h : x.Ok false (.poll2 w b : FutPc O W)) :
    { x with wakers := if b then x.wakers else x.wakers ++ [WillWake.clone w], last := some w }.Ok false
      (.pending : FutPc O W) := by
  -- the waker of a pending poll is registered: it was known before, or this poll has stored it
  have hst : known x.stored w = true := by
    cases b with
    | true => exact h.recorded w (h.repeated w rfl)
    | false => exact (h.settled w rfl).resolve_left (by simp)
  have hrec (a : W) : known (if b then x.wakers else x.wakers ++ [WillWake.clone w]) a =
      (known x.wakers a || (!b && willWake w a)) := by
    cases b <;> simp
  refine ⟨fun a ha => ?_, fun _ a ha => .inl ?_, by rintro _ ⟨⟩, by rintro _ ⟨⟩, by rintro _ ⟨⟩,
    h.cancelled, h.early, fun hp => ?_, h.left, by rintro _ ⟨⟩; exact hst⟩
  · rw [hrec, Bool.or_eq_true, Bool.and_eq_true] at ha
    rcases ha with ha | ⟨-, ha⟩
    · exact h.recorded a ha
    · rw [← known_congr ha]
      exact hst
  · rw [hrec, Bool.or_eq_true, Bool.and_eq_true]
    rcases h.kept rfl a ha with hk | ⟨w', hw', hwa⟩
    · exact .inl hk
    · cases b with
      | true => cases hw'
      | false =>
        cases hw'
        exact .inr ⟨rfl, hwa⟩
  · have hleft := h.early (h.prompt hp).1
    rw [h.cancelled] at hleft
    cases hleft

/-- A poll that is started over forgets the answer of the one before. -/
theorem forget (h : x.Ok c pc) : { x with last := none }.Ok c pc where
  recorded := h.recorded
  kept := h.kept
  new := h.new
  settled := h.settled
  repeated := h.repeated
  cancelled := h.cancelled
  early := h.early
  prompt := h.prompt
  left := h.left
  last w hw := by cases hw

/-- The cancellation leaves the registry. -/
theorem leave (h : x.Ok c pc) (taken : Bool) (htaken : c = false → taken = false)
    (hu : pc.unrecorded = none) (hr : k.registering = none) (hu' : k.unrecorded = none)
    (hrep : ∀ w, k ≠ .poll2 w true) (hg : k.gone = true) : (x.leave c taken).Ok c k where
  recorded := h.recorded
  kept hc a ha := by
    -- a future that is dropped is between polls, so nothing it registered is unrecorded
    rcases h.kept hc a ha with hrec | ⟨w, hw, -⟩
    · exact .inl hrec
    · rw [hu] at hw; cases hw
  new w hw := by rw [hr] at hw; cases hw
  settled w hw := by rw [hu'] at hw; cases hw
  repeated w hw := absurd hw (hrep w)
  cancelled := by rw [hg]; rfl
  early _ := rfl
  prompt hp := by
    have hc : c = false := by simpa using hp
    refine ⟨by simp [htaken hc], fun a ha => ?_⟩
    rcases h.kept hc a ha with hrec | ⟨w, hw, -⟩
    · exact hrec
    · rw [hu] at hw; cases hw
  left hc _ := by simp [hc]
  last := h.last

end Fut.Ok

/-! ## Steps -/

variable {t : Tid} {f : FutId} {e e' : Env} {s s' : SlotSys O W}

/-- One step of a future keeps its record in order. -/
theorem FutStep.ok_self (h : FutStep f s s') (hw : s.Wf)
    (ho : (s.fut f).Ok s.slot.state.completed (s.fpc f)) :
    (s'.fut f).Ok s'.slot.state.completed (s'.fpc f) := by
  rw [h.frame.completed]
  cases h with
  | @poll_new w hpc hc hk =>
    rw [hpc] at ho
    -- a waker that is not recorded is not registered either, for the future was at rest
    have hnew : known (s.fut f).stored w = false := by
      by_contra hst
      rcases ho.kept hc w (by simpa using hst) with hrec | ⟨w', hw', -⟩
      · rw [hrec] at hk; cases hk
      · cases hw'
    simpa using ho.move (k := .check w) (.inr <| .inr rfl) (by rintro _ ⟨⟩; exact hnew)
      (by rintro _ ⟨⟩) (by rintro _ ⟨⟩) rfl
  | @poll_known w hpc hc hk =>
    rw [hpc] at ho
    simpa using ho.move (k := .poll2 w true) (.inr <| .inr rfl) (by rintro _ ⟨⟩) (by rintro _ ⟨⟩)
      (by rintro _ ⟨⟩; exact hk) rfl
  | @check_done w hpc hc =>
    rw [hpc] at ho
    simpa using ho.move (k := .poll2 w false) (.inr <| .inr rfl) (by rintro _ ⟨⟩)
      (by rintro _ -; exact .inl hc) (by rintro _ ⟨⟩) rfl
  | @recheck_done w hpc hc =>
    rw [hpc] at ho
    simpa using ho.move (k := .unlock (.poll2 w)) (.inr <| .inr rfl) (by rintro _ ⟨⟩)
      (by rintro _ -; exact .inl hc) (by rintro _ ⟨⟩) rfl
  | @store w ws hpc hr =>
    rw [hpc] at ho
    simpa using ho.store
  | @poll2_pending w b hpc hc =>
    rw [hpc, hc] at ho
    rw [hc]
    simpa using ho.record
  | read hpc hv =>
    rw [hpc] at ho
    simpa using ho.forget.move (k := .ready _) (.inr <| .inr rfl) (by rintro _ ⟨⟩) (by rintro _ ⟨⟩)
      (by rintro _ ⟨⟩) rfl
  | store_overflow hpc hr =>
    rw [hpc] at ho
    simpa using ho.forget.move (k := .unlock .panicked) (.inr <| .inr rfl) (by rintro _ ⟨⟩)
      (by rintro _ ⟨⟩) (by rintro _ ⟨⟩) rfl
  | remove hpc =>
    rw [hpc] at ho
    simpa using ho.leave s.comp.taken hw.not_taken_of_pending (k := .unlock .dead) rfl rfl rfl
      (by rintro _ ⟨⟩) rfl
  -- the steps of `waiters()` serve the registration and the cancellation alike
  | @loadReg_null c hpc hn =>
    rw [hpc] at ho
    simpa using ho.moveOn (k := .casReg c) (by cases c <;> rfl) (by cases c <;> rfl)
      (by rintro _ ⟨⟩) (by cases c <;> rfl)
  | @loadReg_some c hpc hn =>
    rw [hpc] at ho
    simpa using ho.moveOn (k := .acquire c) (by cases c <;> rfl) (by cases c <;> rfl)
      (by rintro _ ⟨⟩) (by cases c <;> rfl)
  | @casReg c hpc =>
    rw [hpc] at ho
    simpa using ho.moveOn (k := .acquire c) (by cases c <;> rfl) (by cases c <;> rfl)
      (by rintro _ ⟨⟩) (by cases c <;> rfl)
  | @poll2_done w b hpc hc =>
    rw [hpc] at ho
    simpa using ho.move (k := .read) (.inl hc) (by rintro _ ⟨⟩) (by rintro _ ⟨⟩)
      (by rintro _ ⟨⟩) rfl
  -- from here on the record does not change, and neither does what is under way
  | poll_done hpc =>
    rw [hpc] at ho
    simpa using ho.moveOn (k := .read) rfl rfl (by rintro _ ⟨⟩) rfl
  | @check_pending w hpc =>
    rw [hpc] at ho
    simpa using ho.moveOn (k := .setBit w) rfl rfl (by rintro _ ⟨⟩) rfl
  | @setBit w hpc =>
    rw [hpc] at ho
    simpa using ho.moveOn (k := .loadReg (.register w)) rfl rfl (by rintro _ ⟨⟩) rfl
  | @acquire_register w hpc =>
    rw [hpc] at ho
    simpa using ho.moveOn (k := .recheck w) rfl rfl (by rintro _ ⟨⟩) rfl
  | acquire_cancel hpc =>
    rw [hpc] at ho
    simpa using ho.moveOn (k := .remove) rfl rfl (by rintro _ ⟨⟩) rfl
  | @recheck_pending w hpc =>
    rw [hpc] at ho
    simpa using ho.moveOn (k := .store w) rfl rfl (by rintro _ ⟨⟩) rfl
  | @unlock_poll2 w hpc =>
    rw [hpc] at ho
    simpa using ho.moveOn (k := .poll2 w false) rfl rfl (by rintro _ ⟨⟩) rfl
  | unlock_panicked hpc =>
    rw [hpc] at ho
    simpa using ho.moveOn (k := .panicked) rfl rfl (by rintro _ ⟨⟩) rfl
  | unlock_dead hpc =>
    rw [hpc] at ho
    simpa using ho.moveOn (k := .dead) rfl rfl (by rintro _ ⟨⟩) rfl
  | read_dead hpc =>
    rw [hpc] at ho
    simpa using ho.moveOn (k := .fault) rfl rfl (by rintro _ ⟨⟩) rfl

structure SlotSys.Records (s : SlotSys O W) : Prop where
  ok : ∀ f ∈ s.futs, (s.fut f).Ok s.slot.state.completed (s.fpc f)
  mem : ∀ f, (s.fpc f).active = true → f ∈ s.futs
  gen : ∀ f ∈ s.futs, (s.fut f).gen = s.gen

theorem FutStep.active_self (h : FutStep f s s') (hm : (s.fpc f).active = true → f ∈ s.futs) :
    f ∈ s'.futs := by
  rw [h.frame.futs]
  exact hm h.active

namespace SlotSys.Records

theorem threadStep (hr : s.Records) (h : ThreadStep t e s e' s') : s'.Records := by
  have hfr := h.frame
  refine ⟨fun f hf => ?_, fun f hf => ?_, fun f hf => ?_⟩
  · rw [hfr.fut, hfr.fpc, hfr.completed]
    exact hr.ok f (by rwa [hfr.futs] at hf)
  · rw [hfr.futs]
    exact hr.mem f (by rwa [hfr.fpc] at hf)
  · rw [hfr.fut, hfr.gen]
    exact hr.gen f (by rwa [hfr.futs] at hf)

/-- What a future has registered it records, or is about to. -/
theorem futStep (hr : s.Records) (hw : s.Wf) (h : FutStep f s s') : s'.Records := by
  have hfr := h.frame
  refine ⟨fun i hi => ?_, fun i hi => ?_, fun i hi => ?_⟩
  · rw [hfr.futs] at hi
    -- one future steps, the others keep program counter and record
    by_cases hif : i = f
    · subst hif
      exact h.ok_self hw (hr.ok i hi)
    · rw [hfr.fut i hif, hfr.fpc i hif, hfr.completed]
      exact hr.ok i hi
  · by_cases hif : i = f
    · subst hif
      exact h.active_self (hr.mem i)
    · rw [hfr.futs]
      exact hr.mem i (by rwa [hfr.fpc i hif] at hi)
  · rw [hfr.futs] at hi
    rw [hfr.gen]
    by_cases hif : i = f
    · subst hif
      rw [hfr.futGen]
      exact hr.gen i hi
    · rw [hfr.fut i hif]
      exact hr.gen i hi

theorem compStep (hr : s.Records) (h : CompStep e s e' s') : s'.Records := by
  have hfr := h.frame
  refine ⟨fun f hf => ?_, ?_, ?_⟩
  · rw [hfr.fut, hfr.fpc]
    exact (hr.ok f (by rwa [hfr.futs] at hf)).publish h.completed
  · rw [hfr.fpc, hfr.futs]
    exact hr.mem
  · rw [hfr.fut, hfr.futs, hfr.gen]
    exact hr.gen

/-- The invariant looks at `COMPLETED`, the futures and the generation. -/
theorem congr (hr : s.Records) (hc : s'.slot.state.completed = s.slot.state.completed)
    (hfpc : s'.fpc = s.fpc) (hfut : s'.fut = s.fut) (hfuts : s'.futs = s.futs)
    (hgen : s'.gen = s.gen) : s'.Records := by
  refine ⟨fun f hf => ?_, ?_, ?_⟩
  · rw [hc, hfpc, hfut]
    exact hr.ok f (by rwa [hfuts] at hf)
  · rw [hfpc, hfuts]
    exact hr.mem
  · rw [hfut, hfuts, hgen]
    exact hr.gen

theorem newFuture (hr : s.Records) : (s.newFuture f s.gen).Records := by
  -- a future that has never been polled has recorded nothing
  have hblank (c : Bool) : (⟨s.gen, [], [], none, false, false, false⟩ : Fut W).Ok c
      (.idle : FutPc O W) := by
    constructor <;> simp [FutPc.registering, FutPc.unrecorded, FutPc.gone]
  refine ⟨fun i hi => ?_, fun i hi => ?_, fun i hi => ?_⟩ <;> by_cases hif : i = f
  · subst hif
    simpa [SlotSys.newFuture] using hblank _
  · simpa [SlotSys.newFuture, hif] using
      hr.ok i ((Finset.mem_insert.mp hi).resolve_left hif)
  · simp [SlotSys.newFuture, hif]
  · simp only [SlotSys.newFuture, Function.update_of_ne hif, Finset.mem_insert] at hi ⊢
    exact .inr (hr.mem i hi)
  · simp [SlotSys.newFuture, hif]
  · simp only [SlotSys.newFuture, Function.update_of_ne hif, Finset.mem_insert, hif,
      false_or] at hi ⊢
    exact hr.gen i hi

/-- One future of the slot goes on with a new record. -/
theorem goFut (hr : s.Records) (hf : f ∈ s.futs) {k : FutPc O W} {x : Fut W}
    (hk : x.Ok s.slot.state.completed k) (hg : x.gen = (s.fut f).gen) :
    ((s.setFut f x).goFut f k).Records := by
  refine ⟨fun i hi => ?_, fun i hi => ?_, fun i hi => ?_⟩ <;> by_cases hif : i = f
  · subst hif
    simpa using hk
  · simpa [hif] using hr.ok i hi
  · rw [hif]
    exact hf
  · exact hr.mem i (by simpa [hif] using hi)
  · subst hif
    simpa [hg] using hr.gen i hf
  · simpa [hif] using hr.gen i hi

theorem startPoll (hr : s.Records) (hf : f ∈ s.futs) (hrest : (s.fpc f).resting = true) (w : W) :
    (s.startPoll f w).Records := by
  have h := hr.goFut hf (k := .poll w) ((hr.ok f hf).start hrest rfl rfl (by rintro _ ⟨⟩) rfl) rfl
  simpa [SlotSys.startPoll] using h

theorem startCancel (hr : s.Records) (hw : s.Wf) (hf : f ∈ s.futs)
    (hrest : (s.fpc f).resting = true) : (s.startCancel f).Records := by
  unfold SlotSys.startCancel
  split
  · exact hr.goFut hf ((hr.ok f hf).leave s.comp.taken hw.not_taken_of_pending
      (FutPc.unrecorded_of_resting hrest) rfl rfl (by rintro _ ⟨⟩) rfl) rfl
  · have h := hr.goFut hf (k := .loadReg .cancel)
      ((hr.ok f hf).start hrest rfl rfl (by rintro _ ⟨⟩) rfl) rfl
    simpa using h

/-- The next generation has no futures, and those of the old ones take no more steps. -/
theorem prepared (hidle : ∀ f, (s.fpc f).active = false)
    (hfuts : s'.futs = ∅) (hfpc : s'.fpc = s.fpc) : s'.Records := by
  refine ⟨by simp [hfuts], fun f hf => ?_, by simp [hfuts]⟩
  rw [hfpc, hidle f] at hf
  cases hf

end SlotSys.Records

end Records

end Observe
