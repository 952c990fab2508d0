import Observe.Sequential.Exec
import Observe.Space.Retention

/-!
# Each call is a run

A caller that makes one call after another finds nothing in flight, and what it does is a run of the
interleaved program: every state between two calls is reachable.
-/

namespace Observe

variable {K O W : Type} [Key K] [WillWake W] {bits : Nat}

omit [WillWake W] in
/-- What generation `g` has published is in the cell, behind the bit. -/
def SlotSys.Shows (s : SlotSys O W) (g : Gen) : Option O → Prop
  | some v => s.slot.state.completed = true ∧ s.slot.outcome = some (g, v)
  | none => s.slot.state.completed = false

namespace World

variable {w : World K O W bits}

def Runs (w w' : World K O W bits) : Prop := Relation.ReflTransGen Step w w'

theorem Runs.refl (w : World K O W bits) : w.Runs w := Relation.ReflTransGen.refl

theorem Runs.trans {w' w'' : World K O W bits} (h : w.Runs w') (h' : w'.Runs w'') : w.Runs w'' :=
  Relation.ReflTransGen.trans h h'

theorem Runs.step {w' w'' : World K O W bits} (h : w.Runs w') (hs : Step w' w'') : w.Runs w'' :=
  Relation.ReflTransGen.tail h hs

theorem Runs.sound {w' : World K O W bits} (hr : w.Runs w') (h : w.Sound) : w'.Sound := by
  induction hr with
  | refl => exact h
  | tail _ hs ih => exact ih.step hs

/-- The steps of a call on slot `i` are steps of the program. -/
theorem runs_of_callSteps {i : SlotId} {s : SlotSys O W} {x : Env × SlotSys O W}
    (h : CallSteps (w.env, s) x) :
    (w.setSlot i s).Runs { w.setSlot i x.2 with env := x.1 } := by
  induction h with
  | refl => exact Runs.refl _
  | @tail y z _ hs ih =>
    have hcall : CallStep y.1 (({ w.setSlot i y.2 with env := y.1 } : World K O W bits).slots i)
        z.1 z.2 := by simpa [World.setSlot] using hs
    have hstep := Step.callStep (w := { w.setSlot i y.2 with env := y.1 }) i hcall
    apply ih.step
    simpa [World.setSlot] using hstep

/-! ## Nothing is left in flight -/

namespace Quiet

omit [WillWake W]

theorem setSlot (hq : w.Quiet) {i : SlotId} {s : SlotSys O W}
    (hthr : ∀ t, (s.thr t).active = false) (hcomp : s.comp.resting = true)
    (hfut : ∀ f g, w.futs f = .live i g → (s.fpc f).resting = true) : (w.setSlot i s).Quiet := by
  have hfuts := forall_setSlot (P := fun j s => ∀ f g, w.futs f = .live j g →
    (s.fpc f).resting = true) hfut fun j f g => hq.fut f j g
  exact ⟨forall_setSlot (P := fun _ s => ∀ t, (s.thr t).active = false) hthr hq.thr,
    forall_setSlot (P := fun _ s => s.comp.resting = true) hcomp hq.comp,
    fun f j g => hfuts j f g, hq.auth, hq.obs, hq.spaces⟩

theorem threadCall (hq : w.Quiet) {i : SlotId} {t : Tid} {s' : SlotSys O W}
    (hs : SlotSys.ThreadCall t (w.slots i) s') : (w.setSlot i s').Quiet := by
  apply hq.setSlot
  · intro u
    by_cases hu : u = t
    · rw [hu]
      exact hs.self
    · rw [hs.thr u hu]
      exact hq.thr i u
  · rw [hs.comp]
    exact hq.comp i
  · intro f g hf
    rw [hs.fpc]
    exact hq.fut f i g hf

theorem futCall (hq : w.Quiet) {i : SlotId} {f : FutId} {s' : SlotSys O W}
    (hs : SlotSys.FutCall f (w.slots i) s')
    (hself : ∀ g, w.futs f = .live i g → (s'.fpc f).resting = true) : (w.setSlot i s').Quiet := by
  apply hq.setSlot
  · intro u
    rw [hs.thr]
    exact hq.thr i u
  · rw [hs.comp]
    exact hq.comp i
  · intro f' g hf
    by_cases hff : f' = f
    · subst hff
      exact hself g hf
    · rw [hs.fpc f' hff]
      exact hq.fut f' i g hf

theorem release (hq : w.Quiet) (x : Owner) (l : Bool) : (w.release x l).Quiet := by
  have hslots (j : SlotId) : ((w.release x l).slots j).thr = (w.slots j).thr ∧
      ((w.release x l).slots j).comp = (w.slots j).comp ∧
      ((w.release x l).slots j).fpc = (w.slots j).fpc := by
    rcases w.release_slots x l j with h | ⟨-, -, h⟩ <;> rw [h] <;> exact ⟨rfl, rfl, rfl⟩
  refine ⟨fun j t => ?_, fun j => ?_, fun f j g hf => ?_, hq.auth, hq.obs, hq.spaces⟩
  · rw [(hslots j).1]
    exact hq.thr j t
  · rw [(hslots j).2.1]
    exact hq.comp j
  · rw [(hslots j).2.2]
    exact hq.fut f j g hf

theorem setAuth (hq : w.Quiet) (g : Gen) {a : Authority K bits} (ha : a.settled = true) :
    ({ w with auth := Function.update w.auth g a } : World K O W bits).Quiet := by
  refine ⟨hq.thr, hq.comp, hq.fut, fun g' => ?_, hq.obs, hq.spaces⟩
  by_cases hg : g' = g
  · simpa [hg] using ha
  · simpa [hg] using hq.auth g'

theorem setObs (hq : w.Quiet) (o : ObsId) (st : ObsState O) (hst : ∀ i g, st ≠ .refused i g) :
    ({ w with obs := Function.update w.obs o st } : World K O W bits).Quiet := by
  refine ⟨hq.thr, hq.comp, hq.fut, hq.auth, fun o' => ?_, hq.spaces⟩
  by_cases ho : o' = o
  · simpa [ho] using hst
  · simpa [ho] using hq.obs o'

theorem dropPopped (hq : w.Quiet) (l : Bool) : (w.dropPopped l).Quiet := by
  unfold World.dropPopped
  split
  · exact hq
  · rename_i i rest hp
    have hpool : ({ w with pool := rest } : World K O W bits).Quiet :=
      ⟨hq.thr, hq.comp, hq.fut, hq.auth, hq.obs, hq.spaces⟩
    exact hpool.release _ l

/-- A new observation or future, and nothing else that a caller could be inside of. -/
theorem newObs (hq : w.Quiet) (i : SlotId) (g : Gen) : (w.newObs i g).Quiet := by
  refine ⟨hq.thr, hq.comp, hq.fut, hq.auth, fun o j g' ho => ?_, hq.spaces⟩
  by_cases hoo : o = w.nextObs
  · subst hoo
    simp [World.newObs] at ho
  · exact hq.obs o j g' (by simpa [World.newObs, hoo] using ho)

theorem intoFuture (hq : w.Quiet) (o : ObsId) (i : SlotId) (g : Gen) :
    (w.intoFuture o i g).Quiet := by
  have hset : (w.setSlot i ((w.slots i).newFuture w.nextFut g)).Quiet := by
    refine hq.setSlot (hq.thr i) (hq.comp i) fun f g' hf => ?_
    by_cases hff : f = w.nextFut
    · subst hff
      simp [SlotSys.newFuture, FutPc.resting]
    · simpa [SlotSys.newFuture, hff] using hq.fut f i g' hf
  have hobs := hset.setObs o (.gone g none) fun _ _ hst => by cases hst
  refine ⟨hobs.thr, hobs.comp, fun f j g' hf => ?_, hobs.auth, hobs.obs, hobs.spaces⟩
  by_cases hff : f = w.nextFut
  · -- the new future has not been polled
    subst hff
    have hj : i = j := by
      have hlive : some (FutState.live i g) = some (FutState.live j g') := by
        simpa [World.intoFuture] using hf
      cases hlive
      rfl
    subst hj
    simp [World.intoFuture, SlotSys.newFuture, FutPc.resting]
  · have hold : w.futs f = .live j g' := by simpa [World.intoFuture, hff] using hf
    exact hobs.fut f j g' hold

theorem dropFut (hq : w.Quiet) (f : FutId) :
    ({ w with futs := Function.update w.futs f .gone } : World K O W bits).Quiet := by
  refine ⟨hq.thr, hq.comp, fun f' i g hf => ?_, hq.auth, hq.obs, hq.spaces⟩
  by_cases hff : f' = f
  · simp [hff] at hf
  · exact hq.fut f' i g (by simpa [hff] using hf)

theorem unwrapSlot (hq : w.Quiet) (o : ObsId) (i : SlotId) (g : Gen) :
    (w.unwrapSlot o i g).Quiet := by
  have hset : (w.setSlot i (w.takenSlot i).finalDrop).Quiet := by
    unfold World.takenSlot
    split <;> exact hq.setSlot (hq.thr i) (hq.comp i) fun f g hf => hq.fut f i g hf
  have hobs := hset.setObs o (.gone g (some (w.unwrapped i))) nofun
  exact ⟨hobs.thr, hobs.comp, hobs.fut, hobs.auth, hobs.obs, hobs.spaces⟩

theorem claim (hq : w.Quiet) (i : SlotId) {a : Authority K bits} (ha : a.settled = true)
    (m : SmallMap K bits) : (w.claim i a m).Quiet := by
  have hset := hq.setAuth w.nextGen ha
  exact ⟨hset.thr, hset.comp, hset.fut, hset.auth, hset.obs, hset.spaces⟩

theorem subject (hq : w.Quiet) (key : K) : (w.subject key).1.Quiet := by
  have hdraw : w.drawNumber.Quiet := ⟨hq.thr, hq.comp, hq.fut, hq.auth, hq.obs, hq.spaces⟩
  have hcases := w.subject_cases key
  generalize w.subject key = r at hcases ⊢
  cases hcases with
  | conflict _ => exact hq
  | exhausted _ _ => exact hdraw.dropPopped true
  | @recycled i rest _ _ hpool =>
    -- a recycled slot keeps the returned calls of its earlier generations
    have hset := hdraw.setSlot (i := i) (s := (w.slots i).recycle w.nextGen) (hq.thr i) rfl
      (hq.fut · i)
    have hslot : (w.drawNumber.recycleSlot i rest).Quiet :=
      ⟨hset.thr, hset.comp, hset.fut, hset.auth, hset.obs, hset.spaces⟩
    exact hslot.claim i rfl _
  | fresh _ _ _ =>
    have hset := hdraw.setSlot (i := w.nextSlot) (s := SlotSys.blank.fresh w.nextGen)
      (fun _ => rfl) rfl fun _ _ _ => rfl
    have hslot : w.drawNumber.newSlot.Quiet :=
      ⟨hset.thr, hset.comp, hset.fut, hset.auth, hset.obs, hset.spaces⟩
    exact hslot.claim w.nextSlot rfl _

theorem observe (hq : w.Quiet) (key : K) : (w.observe key).1.Quiet := by
  unfold World.observe
  split
  · exact hq.newObs _ _
  · exact hq

end Quiet

/-! ## What a call finds -/

/-- Whoever keeps a slot at its generation sees what the generation has published. -/
theorem Inv.shows (h : w.Inv) {x : Owner} {i : SlotId} {g : Gen} (hp : w.pin x = some (i, g)) :
    (w.slots i).Shows g ((w.slots i).published g) := by
  cases hv : (w.slots i).published g with
  | some v => exact h.cell_of_published hp hv
  | none =>
    have hlive := (h.safe_of_pin hp).wf.published.live
    have hgen := h.pinned x i g hp
    show (w.slots i).slot.state.completed = false
    by_contra hc
    obtain ⟨v, -, hpub⟩ := hlive (by simpa using hc)
    rw [hgen, hv] at hpub
    cases hpub

/-- A poll that has returned leaves its future between polls. -/
theorem Inv.callPoll_resting (h : w.Inv) {f : FutId} {i : SlotId} {g : Gen}
    (hf : w.futs f = .live i g) (wk : W) :
    ((((w.slots i).callPoll f wk).1).fpc f).resting = true := by
  have hshows := h.shows (pin_fut hf)
  unfold SlotSys.callPoll
  dsimp only
  split
  · rename_i hc
    cases hv : (w.slots i).published g with
    | none =>
      rw [hv] at hshows
      have hpending : (w.slots i).slot.state.completed = false := hshows
      rw [hc] at hpending
      cases hpending
    | some v =>
      rw [hv] at hshows
      have hcell := hshows.2
      simp [hcell, FutPc.resting]
  · split
    · simp [FutPc.resting]
    · split <;> simp [FutPc.resting]

/-! ## The drop of a subject -/

omit [WillWake W] in
/-- What the body of `Subject::drop` leaves, apart from the table, its handle and the pool. -/
structure Unlisted (w : World K O W bits) (g : Gen) (i : SlotId) (w' : World K O W bits) :
    Prop where
  slots : w'.slots = w.slots
  auth : w'.auth = Function.update w.auth g (.retired i)
  obs : w'.obs = w.obs
  futs : w'.futs = w.futs
  spaces : w'.spaces = w.spaces
  nextGeneration : w'.nextGeneration = w.nextGeneration
  nextGen : w'.nextGen = w.nextGen
  nextObs : w'.nextObs = w.nextObs
  nextFut : w'.nextFut = w.nextFut

theorem Inv.unlisted (h : w.Inv) {g : Gen} {k : K} {n : BitVec bits} {i : SlotId} {c : Bool}
    (ha : w.auth g = .subject k n i c) : w.Unlisted g i (w.retire g k n i) := by
  have hslots := h.retire_slots ha
  rw [h.retire_eq ha] at hslots ⊢
  split at hslots
  · rename_i hpush
    rw [if_pos hpush]
    exact ⟨hslots, rfl, rfl, rfl, rfl, rfl, rfl, rfl, rfl⟩
  · rename_i hkeep
    rw [if_neg hkeep]
    exact ⟨hslots, rfl, rfl, rfl, rfl, rfl, rfl, rfl, rfl⟩

omit [WillWake W] in
theorem Unlisted.quiet {w' : World K O W bits} {g : Gen} {i : SlotId} (hr : w.Unlisted g i w')
    (hq : w.Quiet) :
    ({ w' with auth := Function.update w'.auth g .gone } : World K O W bits).Quiet := by
  have hauth := hq.setAuth g (a := .gone) rfl
  constructor
  case thr =>
    show ∀ j t, ((w'.slots j).thr t).active = false
    rw [hr.slots]
    exact hq.thr
  case comp =>
    show ∀ j, (w'.slots j).comp.resting = true
    rw [hr.slots]
    exact hq.comp
  case fut =>
    show ∀ f j g', w'.futs f = .live j g' → ((w'.slots j).fpc f).resting = true
    rw [hr.slots, hr.futs]
    exact hq.fut
  case auth =>
    show ∀ g', (Function.update w'.auth g .gone g').settled = true
    rw [hr.auth, Function.update_idem]
    exact hauth.auth
  case obs =>
    show ∀ o j g', w'.obs o ≠ .refused j g'
    rw [hr.obs]
    exact hq.obs
  case spaces =>
    show 0 < w'.spaces
    rw [hr.spaces]
    exact hq.spaces

/-! ## Every call -/

/-- **A call is a run.** What a caller does in one go is a run of the interleaved program. -/
theorem Quiet.runs_exec (hq : w.Quiet) (h : w.Inv) (op : Op K O W) : w.Runs (w.exec op).1 := by
  have hrefl := Runs.refl w
  have hfree {x : Owner} {i : SlotId} {g : Gen} (hp : w.pin x = some (i, g)) :
      (w.slots i).held = none := hq.free h (h.held_of_pin hp)
  cases op with
  | subject key => exact hrefl.step (.subject key hq.spaces)
  | observe key => exact hrefl.step (.observe key hq.spaces)
  | complete g v =>
    cases ha : w.auth g with
    | subject k n i c =>
      cases c with
      | true => simpa [World.exec, ha] using hrefl
      | false =>
        have hp : w.pin (.subject g) = some (i, g) := by simp [pin, ha, Authority.current?]
        have hsteps := SlotSys.callComplete_steps (e := w.env) (hfree hp) g v
        have hcall := runs_of_callSteps
          (w := { w with auth := Function.update w.auth g (.subject k n i true) }) (i := i) hsteps
        have hstart := hrefl.step (.complete v ha)
        simp only [World.exec, ha]
        exact hstart.trans hcall
    | _ => simpa [World.exec, ha] using hrefl
  | cloneObs o =>
    cases ho : w.obs o with
    | live i g =>
      simp only [World.exec, ho]
      exact hrefl.step (.cloneObs ho)
    | _ => simpa [World.exec, ho] using hrefl
  | tryGet o =>
    cases ho : w.obs o with
    | live i g =>
      have hstart := hrefl.step (.call 0 .tryGet ho (hq.idle 0))
      have hsteps := SlotSys.callTryGet_steps w.env (w.slots i) 0 ⟨o, g⟩
      simp only [World.exec, ho]
      exact hstart.trans (runs_of_callSteps hsteps)
    | _ => simpa [World.exec, ho] using hrefl
  | registerWaker o wk =>
    cases ho : w.obs o with
    | live i g =>
      have hstart := hrefl.step (.call 0 (.registerWaker wk) ho (hq.idle 0))
      have hsteps := SlotSys.callRegisterWaker_steps (e := w.env) (hfree (pin_obs ho)) 0 ⟨o, g⟩ wk
      simp only [World.exec, ho]
      exact hstart.trans (runs_of_callSteps hsteps)
    | _ => simpa [World.exec, ho] using hrefl
  | intoFuture o =>
    cases ho : w.obs o with
    | live i g =>
      simp only [World.exec, ho]
      exact hrefl.step (.intoFuture ho (hq.unborrowed o))
    | _ => simpa [World.exec, ho] using hrefl
  | poll f wk =>
    cases hf : w.futs f with
    | live i g =>
      have hstart := hrefl.step (.poll wk hf (hq.fut f i g hf))
      have hsteps := SlotSys.callPoll_steps (e := w.env) (hfree (pin_fut hf)) f wk
      simp only [World.exec, hf]
      exact hstart.trans (runs_of_callSteps hsteps)
    | _ => simpa [World.exec, hf] using hrefl
  | intoOutcome o =>
    cases ho : w.obs o with
    | live i g =>
      have hstep := hrefl.step (.intoOutcome ho (hq.unborrowed o))
      by_cases hone : w.arcs.count i = 1
      · simpa [World.exec, ho, hone] using hstep
      · simp only [World.exec, ho, hone, if_false]
        refine hstep.step (.dropRefused (i := i) (g := g) ?_)
        simp [World.intoOutcome, hone]
    | _ => simpa [World.exec, ho] using hrefl
  | dropObs o =>
    cases ho : w.obs o with
    | live i g =>
      simp only [World.exec, ho]
      exact hrefl.step (.dropObs ho (hq.unborrowed o))
    | _ => simpa [World.exec, ho] using hrefl
  | dropFuture f =>
    cases hf : w.futs f with
    | live i g =>
      have hstart := hrefl.step (.cancel hf (hq.fut f i g hf))
      have hsteps := SlotSys.callCancel_steps (e := w.env) (hfree (pin_fut hf)) f
      have hcall := hstart.trans (runs_of_callSteps hsteps)
      simp only [World.exec, hf]
      refine hcall.step (.releaseFuture (i := i) (g := g) hf ?_)
      simpa [World.setSlot] using SlotSys.callCancel_dead (w.slots i) f
    | _ => simpa [World.exec, hf] using hrefl
  | dropSubject g =>
    cases ha : w.auth g with
    | subject k n i c =>
      -- the section under the lock, and then the fields in the order of their declaration
      have hretire := hrefl.step (.retire ha (hq.comp i))
      have hinner := hretire.step (.releaseInner (g := g) (i := i) (by simp [(h.unlisted ha).auth]))
      have hlast := hinner.step (.releaseSubject (g := g) (i := i) (by simp))
      simpa [World.exec, ha] using hlast
    | _ => simpa [World.exec, ha] using hrefl

/-- Between two calls nothing is in flight. -/
theorem Quiet.exec (hq : w.Quiet) (h : w.Inv) (op : Op K O W) : (w.exec op).1.Quiet := by
  cases op with
  | subject key => exact hq.subject key
  | observe key => exact hq.observe key
  | complete g v =>
    cases ha : w.auth g with
    | subject k n i c =>
      cases c with
      | true => simpa [World.exec, ha] using hq
      | false =>
        have hcall := SlotSys.callComplete_frame w.env (w.slots i) g v
        have hset := hq.setSlot (i := i) (s := (SlotSys.callComplete w.env (w.slots i) g v).2)
          (by rw [hcall.thr]; exact hq.thr i) hcall.comp (by rw [hcall.fpc]; exact (hq.fut · i))
        have hauth := hset.setAuth g (a := .subject k n i true) rfl
        simp only [World.exec, ha]
        exact ⟨hauth.thr, hauth.comp, hauth.fut, hauth.auth, hauth.obs, hauth.spaces⟩
    | _ => simpa [World.exec, ha] using hq
  | cloneObs o =>
    cases ho : w.obs o with
    | live i g =>
      simp only [World.exec, ho]
      exact hq.newObs i g
    | _ => simpa [World.exec, ho] using hq
  | tryGet o =>
    cases ho : w.obs o with
    | live i g =>
      simp only [World.exec, ho]
      exact hq.threadCall (SlotSys.callTryGet_frame _ _ _)
    | _ => simpa [World.exec, ho] using hq
  | registerWaker o wk =>
    cases ho : w.obs o with
    | live i g =>
      simp only [World.exec, ho]
      exact hq.threadCall (SlotSys.callRegisterWaker_frame _ _ _ _)
    | _ => simpa [World.exec, ho] using hq
  | intoFuture o =>
    cases ho : w.obs o with
    | live i g =>
      simp only [World.exec, ho]
      exact hq.intoFuture o i g
    | _ => simpa [World.exec, ho] using hq
  | poll f wk =>
    cases hf : w.futs f with
    | live i g =>
      simp only [World.exec, hf]
      exact hq.futCall (SlotSys.callPoll_frame _ _ _) fun _ _ => h.callPoll_resting hf wk
    | _ => simpa [World.exec, hf] using hq
  | intoOutcome o =>
    cases ho : w.obs o with
    | live i g =>
      by_cases hone : w.arcs.count i = 1
      · simp only [World.exec, ho, hone, if_true, World.intoOutcome]
        exact hq.unwrapSlot o i g
      · have hobs := hq.setObs o (.gone g (some none)) nofun
        simp only [World.exec, ho, hone, if_false, World.intoOutcome, Function.update_idem]
        exact hobs.release _ _
    | _ => simpa [World.exec, ho] using hq
  | dropObs o =>
    cases ho : w.obs o with
    | live i g =>
      simp only [World.exec, ho]
      exact (hq.setObs o (.gone g none) nofun).release _ _
    | _ => simpa [World.exec, ho] using hq
  | dropFuture f =>
    cases hf : w.futs f with
    | live i g =>
      have hdone := (hq.dropFut f).futCall (SlotSys.callCancel_frame (w.slots i) f)
        fun g' hg => by simp at hg
      simp only [World.exec, hf]
      exact hdone.release _ _
    | _ => simpa [World.exec, hf] using hq
  | dropSubject g =>
    cases ha : w.auth g with
    | subject k n i c =>
      have hdone := (h.unlisted ha).quiet hq
      simp only [World.exec, ha]
      exact hdone.release _ _
    | _ => simpa [World.exec, ha] using hq

/-- A sequence of calls is a run, and leaves nothing in flight. -/
theorem Quiet.runs (ops : List (Op K O W)) {w : World K O W bits} (hq : w.Quiet) (h : w.Sound) :
    w.Runs (w.run ops).1 ∧ (w.run ops).1.Quiet := by
  induction ops generalizing w with
  | nil => exact ⟨.refl w, hq⟩
  | cons op ops ih =>
    have hcall := hq.runs_exec h.inv op
    obtain ⟨hrest, hquiet⟩ := ih (hq.exec h.inv op) (hcall.sound h)
    exact ⟨hcall.trans hrest, hquiet⟩

end World

/-- **Calls one after another.** Whatever a sequence of calls on a new space leaves is a state that
the interleaved program reaches. -/
theorem sequential_reachable (e : Env) (ops : List (Op K O W)) :
    (worldSystem K O W bits).Reachable ((World.new e).run ops).1 := by
  have hnew : (worldSystem K O W bits).Reachable (World.new e) := .init ⟨e, rfl⟩
  have hrun := World.Quiet.runs ops (World.Quiet.new e) (worldSystem_sound hnew)
  exact hnew.trans hrun.1

end Observe
