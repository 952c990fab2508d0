import Observe.Sequential.Runs
import Mathlib.Algebra.BigOperators.Group.List.Basic
import Mathlib.Algebra.GroupWithZero.Nat

/-!
# What calls register, and whom a completion wakes

Only `register_waker` and the first poll of a future with a task register a waker; every other call
leaves the wakers of all live handles as they are.  A completion wakes each waker that one generation
alone has registered exactly once.
-/

namespace Observe

variable {K O W : Type} [Key K] {bits : Nat}

/-! ## On one slot -/

namespace SlotSys

/-- No waker has been registered. -/
structure SameWakers (s s' : SlotSys O W) : Prop where
  stored : s'.stored = s.stored
  direct : s'.direct = s.direct
  wakers : ∀ f, (s'.fut f).wakers = (s.fut f).wakers

namespace SameWakers

variable {s s' s'' : SlotSys O W}

theorem refl (s : SlotSys O W) : SameWakers s s := ⟨rfl, rfl, fun _ => rfl⟩

theorem trans (h : SameWakers s s') (h' : SameWakers s' s'') : SameWakers s s'' :=
  ⟨h'.stored.trans h.stored, h'.direct.trans h.direct, fun f => (h'.wakers f).trans (h.wakers f)⟩

theorem finalDrop (s : SlotSys O W) : SameWakers s s.finalDrop := ⟨rfl, rfl, fun _ => rfl⟩

theorem takeOutcome (s : SlotSys O W) : SameWakers s s.takeOutcome := ⟨rfl, rfl, fun _ => rfl⟩

theorem callTryGet (s : SlotSys O W) (t : Tid) (h : Handle) :
    SameWakers s (s.callTryGet t h).1 := by
  unfold SlotSys.callTryGet
  dsimp only
  split
  · split <;> exact ⟨rfl, rfl, fun _ => rfl⟩
  · exact ⟨rfl, rfl, fun _ => rfl⟩

/-- The record of one future changes, but not its wakers. -/
theorem setFut {f : FutId} {x : Fut W} (hx : x.wakers = (s.fut f).wakers) :
    SameWakers s (s.setFut f x) := by
  refine ⟨rfl, rfl, fun f' => ?_⟩
  by_cases hf : f' = f
  · rw [hf]
    simpa using hx
  · simp [hf]

theorem notifyAll (e : Env) (s : SlotSys O W) (g : Gen) (ws : Registry W) :
    SameWakers s (notifyAll e s g ws).2 := by
  induction ws generalizing e s with
  | nil => exact ⟨rfl, rfl, fun _ => rfl⟩
  | cons x ws ih =>
    cases x with
    | thread t g' =>
      have hnote : SameWakers s (s.noteNotified g (.thread t g')) := ⟨rfl, rfl, fun _ => rfl⟩
      exact hnote.trans (ih _ _)
    | waker w p n g' =>
      have hnote : SameWakers s (s.noteNotified g (.waker w p n g')) := ⟨rfl, rfl, fun _ => rfl⟩
      exact hnote.trans (ih _ _)

theorem callComplete (e : Env) (s : SlotSys O W) (g : Gen) (v : O) :
    SameWakers s (callComplete e s g v).2 := by
  have hpub : SameWakers s (({ s with slot := s.slot.setOutcome g v } : SlotSys O W).publish g v) :=
    ⟨rfl, rfl, fun _ => rfl⟩
  unfold SlotSys.callComplete
  dsimp only
  split
  · have hset (ws : Registry W) {s' : SlotSys O W} (h : SameWakers s s') :
        SameWakers s (s'.setRegistry ws) := h.trans ⟨rfl, rfl, fun _ => rfl⟩
    exact (hset [] hpub).trans (notifyAll _ _ _ _)
  · exact hpub.trans ⟨rfl, rfl, fun _ => rfl⟩

variable [WillWake W]

theorem callCancel (s : SlotSys O W) (f : FutId) : SameWakers s (s.callCancel f) := by
  have hleave : SameWakers s (s.setFut f ((s.fut f).leave s.slot.state.completed s.comp.taken)) :=
    setFut rfl
  unfold SlotSys.callCancel
  dsimp only
  split
  · exact hleave.trans ⟨rfl, rfl, fun _ => rfl⟩
  · have hset : SameWakers s (s.setRegistry (s.slot.registry.cancel (s.fut f).wakers)) :=
      ⟨rfl, rfl, fun _ => rfl⟩
    have hboth := hset.trans (setFut (f := f)
      (x := (s.fut f).leave s.slot.state.completed s.comp.taken) rfl)
    exact hboth.trans ⟨rfl, rfl, fun _ => rfl⟩

end SameWakers

variable [WillWake W] {s : SlotSys O W}

/-- A registration on a completed slot stores nothing. -/
theorem callRegisterWaker_done (hc : s.slot.state.completed = true) (t : Tid) (h : Handle) (w : W) :
    SameWakers s (s.callRegisterWaker t h w).1 := by
  unfold SlotSys.callRegisterWaker
  simp only [startCall, hc, if_true]
  exact ⟨rfl, rfl, fun _ => rfl⟩

/-- A direct registration on a pending slot. -/
theorem callRegisterWaker_new (hc : s.slot.state.completed = false) (t : Tid) (h : Handle) (w : W) :
    (s.callRegisterWaker t h w).1.stored = (h.gen, WillWake.clone w) :: s.stored ∧
      (s.callRegisterWaker t h w).1.direct = w :: s.direct ∧
      ∀ f, ((s.callRegisterWaker t h w).1.fut f).wakers = (s.fut f).wakers := by
  unfold SlotSys.callRegisterWaker
  simp [startCall, hc]

/-- A poll of a completed slot, or with a task that the future has registered, stores nothing. -/
theorem callPoll_old {f : FutId} {w : W}
    (h : s.slot.state.completed = true ∨ known (s.fut f).wakers w = true) :
    SameWakers s (s.callPoll f w).1 := by
  have hlast (l : Option W) : SameWakers s (s.setFut f { s.fut f with last := l }) :=
    SameWakers.setFut rfl
  unfold SlotSys.callPoll
  dsimp only
  split
  · split
    · exact (hlast none).trans ⟨rfl, rfl, fun _ => rfl⟩
    · exact ⟨rfl, rfl, fun _ => rfl⟩
  · rename_i hc
    rw [if_pos (h.resolve_left hc)]
    exact (hlast (some w)).trans ⟨rfl, rfl, fun _ => rfl⟩

/-- The first poll of a pending slot with a task stores and records it. -/
theorem callPoll_new {f : FutId} {w : W} (hc : s.slot.state.completed = false)
    (hk : known (s.fut f).wakers w = false)
    (hr : s.slot.registry.registerFutureWaker w (s.fut f).gen ≠ none) :
    (s.callPoll f w).1.stored = ((s.fut f).gen, WillWake.clone w) :: s.stored ∧
      (s.callPoll f w).1.direct = s.direct ∧
      ((s.callPoll f w).1.fut f).wakers = (s.fut f).wakers ++ [WillWake.clone w] ∧
      ∀ f', f' ≠ f → ((s.callPoll f w).1.fut f').wakers = (s.fut f').wakers := by
  obtain ⟨ws, hws⟩ := Option.ne_none_iff_exists'.mp hr
  simp only [Slot.registry] at hws
  have hcall : (s.callPoll f w).1 = ((((s.setState s.slot.state.announce).initRegistry.setRegistry
      ws).noteStored (s.fut f).gen w).setFut f { s.fut f with
        stored := w :: (s.fut f).stored
        wakers := (s.fut f).wakers ++ [WillWake.clone w]
        last := some w }).goFut f .pending := by
    simp [callPoll, hc, hk, hws, Slot.registry]
  rw [hcall]
  refine ⟨rfl, rfl, ?_, fun f' hf => ?_⟩
  · simp
  · simp [hf]

end SlotSys

/-! ## In the whole program -/

namespace World

variable {w w' : World K O W bits}

def directOf (w : World K O W bits) (g : Gen) : List W :=
  match w.auth g with
  | .subject _ _ i _ => (w.slots i).direct
  | _ => []

def wakersOf (w : World K O W bits) (f : FutId) : List W :=
  match w.futs f with
  | .live i _ => ((w.slots i).fut f).wakers
  | _ => []

def StoredBy (w : World K O W bits) (g : Gen) (wk : W) : Prop := ∃ j, (g, wk) ∈ (w.slots j).stored

/-- No waker has been registered: what is left of the old subjects and futures has the wakers that
it had. -/
structure Calm (w w' : World K O W bits) : Prop where
  stored : ∀ g wk, w'.StoredBy g wk ↔ w.StoredBy g wk
  direct : ∀ g k n i c, g < w.nextGen → w'.auth g = .subject k n i c →
    w'.directOf g = w.directOf g
  wakers : ∀ f i g, f < w.nextFut → w'.futs f = .live i g → w'.wakersOf f = w.wakersOf f

namespace Calm

/-- The slots keep their wakers, and no subject or future is made. -/
theorem of_same (hslots : ∀ j, SlotSys.SameWakers (w.slots j) (w'.slots j))
    (hauth : ∀ g k n i c, w'.auth g = .subject k n i c → ∃ c', w.auth g = .subject k n i c')
    (hfuts : ∀ f i g, w'.futs f = .live i g → w.futs f = .live i g) : w.Calm w' where
  stored g wk := exists_congr fun j => by rw [(hslots j).stored]
  direct g k n i c _ ha := by
    obtain ⟨c', hold⟩ := hauth g k n i c ha
    simp only [directOf, ha, hold]
    exact (hslots i).direct
  wakers f i g _ hf := by
    simp only [wakersOf, hf, hfuts f i g hf]
    exact (hslots i).wakers f

theorem refl (w : World K O W bits) : w.Calm w :=
  of_same (fun _ => .refl _) (fun _ _ _ _ c ha => ⟨c, ha⟩) fun _ _ _ hf => hf

end Calm

theorem release_sameWakers (x : Owner) (b : Bool) (j : SlotId) :
    SlotSys.SameWakers (w.slots j) ((w.release x b).slots j) := by
  rcases w.release_slots x b j with h | ⟨-, -, h⟩
  · rw [h]
    exact .refl _
  · rw [h]
    exact .finalDrop _

theorem setSlot_sameWakers {i : SlotId} {s : SlotSys O W}
    (hs : SlotSys.SameWakers (w.slots i) s) (j : SlotId) :
    SlotSys.SameWakers (w.slots j) ((w.setSlot i s).slots j) :=
  forall_setSlot (P := fun j s => SlotSys.SameWakers (w.slots j) s) hs (fun _ => .refl _) j

theorem dropPopped_sameWakers (b : Bool) (j : SlotId) :
    SlotSys.SameWakers (w.slots j) ((w.dropPopped b).slots j) := by
  unfold dropPopped
  split
  · exact .refl _
  · rename_i i rest _
    exact release_sameWakers (w := { w with pool := rest }) (.pool i) b j

/-- A new generation has registered nothing, on a slot that nobody is pinned to. -/
theorem calm_claim {i : SlotId} {key : K} {n : BitVec bits}
    (hfree : ∀ y g, w.pin y ≠ some (i, g)) (hstored : (w'.slots i).stored = (w.slots i).stored)
    (hslots : ∀ j, j ≠ i → w'.slots j = w.slots j)
    (hauth : w'.auth = Function.update w.auth w.nextGen (.subject key n i false))
    (hfuts : w'.futs = w.futs) : w.Calm w' where
  stored g wk := exists_congr fun j => by
    by_cases hji : j = i
    · rw [hji, hstored]
    · rw [hslots j hji]
  direct g k n' j c hg ha := by
    have hold : w.auth g = .subject k n' j c := by
      rw [hauth, Function.update_of_ne hg.ne] at ha
      exact ha
    have hji : j ≠ i := by
      intro hji
      rw [hji] at hold
      exact hfree (.subject g) g (by simp [pin, hold, Authority.current?])
    simp only [directOf, ha, hold, hslots j hji]
  wakers f j g _ hf := by
    have hold : w.futs f = .live j g := by
      rw [hfuts] at hf
      exact hf
    have hji : j ≠ i := by
      intro hji
      rw [hji] at hold
      exact hfree (.fut f) g (pin_fut hold)
    simp only [wakersOf, hf, hold, hslots j hji]

variable [WillWake W]

theorem Inv.calm_subject (h : w.Inv) (hh : w.History) (key : K) : w.Calm (w.subject key).1 := by
  have hcases := w.subject_cases key
  generalize w.subject key = r at hcases ⊢
  cases hcases with
  | conflict _ => exact .refl w
  | exhausted _ _ =>
    refine .of_same (fun j => dropPopped_sameWakers (w := w.drawNumber) true j)
      (fun g k n i c ha => ⟨c, ?_⟩) fun f i g hf => ?_
    · rw [dropPopped_auth] at ha
      exact ha
    · have hsame : (w.drawNumber.dropPopped true).futs = w.futs := by
        unfold World.dropPopped
        split <;> rfl
      rw [← hsame]
      exact hf
  | @recycled i rest _ _ hpool =>
    have hmem : i ∈ w.pool := by
      rw [hpool]
      exact List.mem_cons_self
    refine calm_claim (h.pooled.free i hmem) ?_ (fun j hj => ?_) rfl rfl
    · show (Function.update w.slots i _ i).stored = _
      rw [Function.update_self]
      rfl
    · exact Function.update_of_ne hj _ _
  | fresh _ _ _ =>
    refine calm_claim (i := w.nextSlot) (fun y g hp => ?_) ?_ (fun j hj => ?_) rfl rfl
    · refine h.unused.slot w.nextSlot le_rfl y ?_
      rw [h.held]
      exact handle_of_pin hp
    · show (Function.update w.slots w.nextSlot _ w.nextSlot).stored = _
      rw [Function.update_self, hh.unmade w.nextSlot le_rfl]
    · exact Function.update_of_ne hj _ _

omit [WillWake W] in
/-- A future is made that has registered nothing. -/
theorem calm_intoFuture (o : ObsId) (i : SlotId) (g : Gen) :
    w.Calm (w.intoFuture o i g) := by
  have hslot (j : SlotId) : ((w.intoFuture o i g).slots j).stored = (w.slots j).stored ∧
      ((w.intoFuture o i g).slots j).direct = (w.slots j).direct := by
    by_cases hj : j = i
    · rw [hj, intoFuture_slots_self]
      exact ⟨rfl, rfl⟩
    · rw [intoFuture_slots_of_ne w o g hj]
      exact ⟨rfl, rfl⟩
  refine ⟨fun g' wk => ?_, fun g' k n j c _ ha => ?_, fun f j g' hlt hf => ?_⟩
  · exact exists_congr fun j => by rw [(hslot j).1]
  · have hold : w.auth g' = .subject k n j c := ha
    simp only [directOf, ha, hold]
    exact (hslot j).2
  · have hne : f ≠ w.nextFut := hlt.ne
    have hold : w.futs f = .live j g' := by
      rw [intoFuture_futs_of_ne o i g hne] at hf
      exact hf
    simp only [wakersOf, hf, hold]
    by_cases hj : j = i
    · rw [hj, intoFuture_slots_self]
      simp [SlotSys.newFuture, hne]
    · rw [intoFuture_slots_of_ne w o g hj]

omit [WillWake W] in
theorem wakersOf_intoFuture (o : ObsId) (i : SlotId) (g : Gen) :
    (w.intoFuture o i g).wakersOf w.nextFut = [] := by
  simp only [wakersOf, intoFuture_futs_self, intoFuture_slots_self]
  simp [SlotSys.newFuture]

end World

def Op.registers {K O W : Type} : Op K O W → Bool
  | .registerWaker .. | .poll .. => true
  | _ => false

namespace World

variable [WillWake W] {w : World K O W bits}

/-- Every other call leaves the wakers alone. -/
theorem Inv.calm (h : w.Inv) (hh : w.History) {op : Op K O W} (hop : op.registers = false) :
    w.Calm (w.exec op).1 := by
  have hrefl := Calm.refl w
  cases op with
  | subject key => exact h.calm_subject hh key
  | observe key =>
    unfold World.exec World.observe
    dsimp only
    split
    · exact .of_same (fun _ => .refl _) (fun _ _ _ _ c ha => ⟨c, ha⟩) fun _ _ _ hf => hf
    · exact hrefl
  | complete g v =>
    cases ha : w.auth g with
    | subject k n i c =>
      cases c with
      | true => simpa [World.exec, ha] using hrefl
      | false =>
        have hcall := SlotSys.SameWakers.callComplete w.env (w.slots i) g v
        simp only [World.exec, ha]
        refine .of_same (setSlot_sameWakers hcall) (fun g' k' n' i' c' ha' => ?_)
          fun _ _ _ hf => hf
        by_cases hg : g' = g
        · subst hg
          have hnew : Authority.subject k n i true = .subject k' n' i' c' := by simpa using ha'
          cases hnew
          exact ⟨false, ha⟩
        · exact ⟨c', by simpa [hg] using ha'⟩
    | _ => simpa [World.exec, ha] using hrefl
  | cloneObs o =>
    cases ho : w.obs o with
    | live i g =>
      simp only [World.exec, ho]
      exact .of_same (fun _ => .refl _) (fun _ _ _ _ c ha => ⟨c, ha⟩) fun _ _ _ hf => hf
    | _ => simpa [World.exec, ho] using hrefl
  | tryGet o =>
    cases ho : w.obs o with
    | live i g =>
      have hcall := SlotSys.SameWakers.callTryGet (w.slots i) 0 ⟨o, g⟩
      simp only [World.exec, ho]
      exact .of_same (setSlot_sameWakers hcall) (fun _ _ _ _ c ha => ⟨c, ha⟩) fun _ _ _ hf => hf
    | _ => simpa [World.exec, ho] using hrefl
  | registerWaker o wk => cases hop
  | intoFuture o =>
    cases ho : w.obs o with
    | live i g =>
      simp only [World.exec, ho]
      exact calm_intoFuture o i g
    | _ => simpa [World.exec, ho] using hrefl
  | poll f wk => cases hop
  | intoOutcome o =>
    cases ho : w.obs o with
    | live i g =>
      by_cases hone : w.arcs.count i = 1
      · simp only [World.exec, ho, hone, if_true, World.intoOutcome]
        refine .of_same (setSlot_sameWakers ?_) (fun _ _ _ _ c ha => ⟨c, ha⟩) fun _ _ _ hf => hf
        unfold World.takenSlot
        split
        · exact (SlotSys.SameWakers.takeOutcome _).trans (.finalDrop _)
        · exact .finalDrop _
      · simp only [World.exec, ho, hone, if_false, World.intoOutcome]
        exact .of_same (release_sameWakers (w := { w with obs := _ }) (.obs o) false)
          (fun _ _ _ _ c ha => ⟨c, ha⟩) fun _ _ _ hf => hf
    | _ => simpa [World.exec, ho] using hrefl
  | dropObs o =>
    cases ho : w.obs o with
    | live i g =>
      simp only [World.exec, ho]
      exact .of_same (release_sameWakers (w := { w with obs := _ }) (.obs o) false)
        (fun _ _ _ _ c ha => ⟨c, ha⟩) fun _ _ _ hf => hf
    | _ => simpa [World.exec, ho] using hrefl
  | dropFuture f =>
    cases hf : w.futs f with
    | live i g =>
      have hcall := SlotSys.SameWakers.callCancel (w.slots i) f
      simp only [World.exec, hf]
      refine .of_same (fun j => (setSlot_sameWakers hcall j).trans
          (release_sameWakers (w := { w.setSlot i _ with futs := _ }) (.fut f) false j))
        (fun _ _ _ _ c ha => ⟨c, ha⟩) fun f' i' g' hf' => ?_
      by_cases hff : f' = f
      · simp [World.setSlot, hff] at hf'
      · simpa [World.setSlot, hff] using hf'
    | _ => simpa [World.exec, hf] using hrefl
  | dropSubject g =>
    cases ha : w.auth g with
    | subject k n i c =>
      have hun := h.unlisted ha
      simp only [World.exec, ha]
      refine .of_same (fun j => ?_) (fun g' k' n' i' c' ha' => ⟨c', ?_⟩) fun f i' g' hf => ?_
      · have hrel := release_sameWakers (w := { w.retire g k n i with
          auth := Function.update (w.retire g k n i).auth g .gone }) (.subject g) false j
        refine SlotSys.SameWakers.trans ?_ hrel
        show SlotSys.SameWakers _ ((w.retire g k n i).slots j)
        rw [hun.slots]
        exact .refl _
      · have ha₁ : Function.update (w.retire g k n i).auth g .gone g' = .subject k' n' i' c' := ha'
        rw [hun.auth, Function.update_idem] at ha₁
        by_cases hg : g' = g
        · rw [hg, Function.update_self] at ha₁
          cases ha₁
        · rwa [Function.update_of_ne hg] at ha₁
      · have hf₁ : (w.retire g k n i).futs f = .live i' g' := hf
        rwa [hun.futs] at hf₁
    | _ => simpa [World.exec, ha] using hrefl

/-! ## Registrations -/

omit [WillWake W] in
/-- Generation `g` registers `wk`, and no direct registration is lost. -/
structure Stores (w w' : World K O W bits) (g : Gen) (wk : W) : Prop where
  stored : ∀ g' a, w'.StoredBy g' a ↔ w.StoredBy g' a ∨ g' = g ∧ a = wk
  direct : ∀ g', ∀ a ∈ w.directOf g', a ∈ w'.directOf g'

omit [WillWake W] in
theorem Stores.of_setSlot {i : SlotId} {s : SlotSys O W} {g : Gen} {wk : W}
    (hst : s.stored = (g, wk) :: (w.slots i).stored)
    (hdir : ∀ a ∈ (w.slots i).direct, a ∈ s.direct) : w.Stores (w.setSlot i s) g wk where
  stored g' a := by
    have hself : ((w.setSlot i s).slots i).stored = (g, wk) :: (w.slots i).stored := by
      simp [World.setSlot, hst]
    have hother (j : SlotId) (hj : j ≠ i) : (w.setSlot i s).slots j = w.slots j := by
      simp [World.setSlot, hj]
    constructor
    · intro h
      obtain ⟨j, hmem⟩ := h
      by_cases hj : j = i
      · rw [hj, hself, List.mem_cons] at hmem
        rcases hmem with heq | hold
        · cases heq
          exact .inr ⟨rfl, rfl⟩
        · exact .inl ⟨i, hold⟩
      · rw [hother j hj] at hmem
        exact .inl ⟨j, hmem⟩
    · intro h
      rcases h with ⟨j, hmem⟩ | ⟨rfl, rfl⟩
      · refine ⟨j, ?_⟩
        by_cases hj : j = i
        · rw [hj] at hmem ⊢
          rw [hself]
          exact List.mem_cons_of_mem _ hmem
        · rw [hother j hj]
          exact hmem
      · exact ⟨i, by rw [hself]; exact List.mem_cons_self⟩
  direct g' a ha := by
    unfold directOf at ha ⊢
    show a ∈ match w.auth g' with
      | .subject _ _ j _ => ((w.setSlot i s).slots j).direct
      | _ => []
    cases hauth : w.auth g' with
    | subject k n j c =>
      rw [hauth] at ha
      by_cases hji : j = i
      · subst hji
        simpa [World.setSlot] using hdir a ha
      · simpa [World.setSlot, hji] using ha
    | _ =>
      rw [hauth] at ha
      cases ha

omit [WillWake W] in
theorem wakersOf_setSlot {i : SlotId} {s : SlotSys O W} {f : FutId}
    (hs : (s.fut f).wakers = ((w.slots i).fut f).wakers) :
    (w.setSlot i s).wakersOf f = w.wakersOf f := by
  unfold wakersOf
  show (match w.futs f with
    | .live j _ => (((w.setSlot i s).slots j).fut f).wakers
    | _ => []) = _
  cases hf : w.futs f with
  | live j g =>
    by_cases hji : j = i
    · subst hji
      simpa [World.setSlot] using hs
    · simp [World.setSlot, hji]
  | _ => rfl

/-- `register_waker` on a pending generation. -/
theorem registerWaker_wakers {o : ObsId} {i : SlotId} {g : Gen} (ho : w.obs o = .live i g)
    (hc : (w.slots i).slot.state.completed = false) (wk : W) :
    w.Stores (w.exec (.registerWaker o wk)).1 g (WillWake.clone wk) ∧
      (∀ f, (w.exec (.registerWaker o wk)).1.wakersOf f = w.wakersOf f) ∧
      ∀ k n c, w.auth g = .subject k n i c →
        wk ∈ (w.exec (.registerWaker o wk)).1.directOf g := by
  obtain ⟨hst, hdir, hwk⟩ := SlotSys.callRegisterWaker_new hc 0 ⟨o, g⟩ wk
  simp only [World.exec, ho]
  refine ⟨.of_setSlot hst fun a ha => ?_, fun f => wakersOf_setSlot (hwk f), fun k n c ha => ?_⟩
  · rw [hdir]
    exact List.mem_cons_of_mem _ ha
  · have hauth : (w.setSlot i ((w.slots i).callRegisterWaker 0 ⟨o, g⟩ wk).1).auth g =
        .subject k n i c := ha
    simp only [directOf, hauth]
    simp [World.setSlot, hdir]

/-- The first poll with a task on a pending generation. -/
theorem poll_wakers {f : FutId} {i : SlotId} {g : Gen} {wk : W} (hf : w.futs f = .live i g)
    (hgen : ((w.slots i).fut f).gen = g) (hc : (w.slots i).slot.state.completed = false)
    (hk : known (w.wakersOf f) wk = false)
    (hr : (w.slots i).slot.registry.registerFutureWaker wk ((w.slots i).fut f).gen ≠ none) :
    w.Stores (w.exec (.poll f wk)).1 g (WillWake.clone wk) ∧
      (w.exec (.poll f wk)).1.wakersOf f = w.wakersOf f ++ [WillWake.clone wk] ∧
      ∀ f', f' ≠ f → (w.exec (.poll f wk)).1.wakersOf f' = w.wakersOf f' := by
  have hown : w.wakersOf f = ((w.slots i).fut f).wakers := by simp [wakersOf, hf]
  rw [hown] at hk
  obtain ⟨hst, hdir, hself, hother⟩ := SlotSys.callPoll_new hc hk hr
  rw [hgen] at hst
  simp only [World.exec, hf]
  refine ⟨.of_setSlot hst fun a ha => ?_, ?_, fun f' hne => wakersOf_setSlot (hother f' hne)⟩
  · rw [hdir]
    exact ha
  · have hlive : (w.setSlot i ((w.slots i).callPoll f wk).1).futs f = .live i g := hf
    rw [hown, ← hself]
    simp only [wakersOf, hlive]
    simp [World.setSlot]

/-- A call on a completed generation, or a poll with a task that has been registered. -/
theorem calm_registerWaker {o : ObsId} {i : SlotId} {g : Gen} (ho : w.obs o = .live i g)
    (hc : (w.slots i).slot.state.completed = true) (wk : W) :
    w.Calm (w.exec (.registerWaker o wk)).1 := by
  have hcall := SlotSys.callRegisterWaker_done hc 0 ⟨o, g⟩ wk
  simp only [World.exec, ho]
  exact .of_same (setSlot_sameWakers hcall) (fun _ _ _ _ c ha => ⟨c, ha⟩) fun _ _ _ hf => hf

theorem calm_poll {f : FutId} {i : SlotId} {g : Gen} {wk : W} (hf : w.futs f = .live i g)
    (h : (w.slots i).slot.state.completed = true ∨ known (w.wakersOf f) wk = true) :
    w.Calm (w.exec (.poll f wk)).1 := by
  have hown : w.wakersOf f = ((w.slots i).fut f).wakers := by simp [wakersOf, hf]
  rw [hown] at h
  have hcall := SlotSys.callPoll_old h
  simp only [World.exec, hf]
  exact .of_same (setSlot_sameWakers hcall) (fun _ _ _ _ c ha => ⟨c, ha⟩) fun _ _ _ hf => hf

/-! ## Wake counts -/

omit [WillWake W] in
theorem callComplete_returned (e : Env) (s : SlotSys O W) (g : Gen) (v : O) :
    (SlotSys.callComplete e s g v).2.comp = .returned g false := by
  unfold SlotSys.callComplete
  dsimp only
  split
  · exact (SlotSys.notifyAll_frame _ _ _ _).2.1
  · rfl

def wakeCount (w : World K O W bits) (wk : W) : Nat :=
  ((List.range w.nextSlot).map fun i =>
    ((w.slots i).notified.map Prod.snd).countP (Waiter.wakes wk)).sum

/-- Whoever is woken has been registered by the generation that completes, on its own slot. -/
theorem Sound.wakes_stored (h : w.Sound) {j : SlotId} {p : Gen × Waiter W} {wk : W}
    (hp : p ∈ (w.slots j).notified) (hwk : p.2.wakes wk = true) :
    (w.slots j).published p.1 ≠ none ∧ ∃ a, w.StoredBy p.1 a ∧ willWake a wk = true := by
  obtain ⟨hbelongs, hpub⟩ := (h.history.past j).notified p hp
  refine ⟨hpub, ?_⟩
  obtain ⟨g, x⟩ := p
  cases x with
  | thread t g' => cases hwk
  | waker a p' n g' =>
    have hg : g' = g := hbelongs.gen
    subst hg
    exact ⟨a, ⟨j, hbelongs.stored⟩, hwk⟩

/-- On a slot whose generation alone has registered a task, and which has published, every wake of the
task is one of this generation, and there is none on any other slot. -/
theorem Sound.wakeCount_eq (h : w.Sound) {i : SlotId} {g : Gen} {wk : W} (hi : i < w.nextSlot)
    (hgen : (w.slots i).gen = g) (hpub : (w.slots i).published g ≠ none)
    (honly : ∀ g' a, w.StoredBy g' a → willWake a wk = true → g' = g) :
    w.wakeCount wk = (w.slots i).woken.countP (Waiter.wakes wk) := by
  have hsame {j : SlotId} {p : Gen × Waiter W} (hp : p ∈ (w.slots j).notified)
      (hwk : p.2.wakes wk = true) : p.1 = g ∧ j = i := by
    obtain ⟨hpub', a, ha, hwa⟩ := h.wakes_stored hp hwk
    have hg := honly p.1 a ha hwa
    rw [hg] at hpub'
    exact ⟨hg, h.history.single j i g hpub' hpub⟩
  have hzero (j : SlotId) (hj : j ≠ i) :
      ((w.slots j).notified.map Prod.snd).countP (Waiter.wakes wk) = 0 := by
    rw [List.countP_eq_zero]
    intro x hx hwk
    obtain ⟨p, hp, rfl⟩ := List.mem_map.mp hx
    exact hj (hsame hp hwk).2
  unfold wakeCount
  rw [List.sum_map_eq_nsmul_single i _ fun j hj _ => hzero j hj,
    List.count_eq_one_of_mem List.nodup_range (List.mem_range.mpr hi), one_nsmul]
  unfold SlotSys.woken
  rw [List.countP_map, List.countP_map, List.countP_filter]
  refine List.countP_congr fun p hp => ?_
  constructor
  · intro hwk
    rw [(hsame hp hwk).1, hgen]
    simpa using hwk
  · intro hboth
    exact (Bool.and_eq_true_iff.mp hboth).1

/-- **A completion wakes once** whomever its generation alone has registered: by a direct
registration, or by a future that is not dropped. -/
theorem Quiet.wakeCount_complete (hq : w.Quiet) (h : w.Sound) {g : Gen} {k : K} {n : BitVec bits}
    {i : SlotId} {wk : W} (ha : w.auth g = .subject k n i false)
    (hreg : wk ∈ w.directOf g ∨ ∃ f, w.futs f = .live i g ∧ wk ∈ w.wakersOf f)
    (honly : ∀ g' a, w.StoredBy g' a → willWake a wk = true → g' = g) (v : O) :
    (w.exec (.complete g v)).1.wakeCount wk = 1 := by
  have hs' := (hq.runs_exec h.inv (.complete g v)).sound h
  have hq' := hq.exec h.inv (.complete g v)
  have hcalm : w.Calm (w.exec (.complete g v)).1 := h.inv.calm h.history rfl
  have hcall := SlotSys.SameWakers.callComplete w.env (w.slots i) g v
  have hframe := SlotSys.callComplete_frame w.env (w.slots i) g v
  have hret := callComplete_returned w.env (w.slots i) g v
  generalize hw' : (w.exec (.complete g v)).1 = w' at hs' hq' hcalm
  have hauth : w'.auth g = .subject k n i true := by
    rw [← hw']
    simp [World.exec, ha]
  have hslot : w'.slots i = (SlotSys.callComplete w.env (w.slots i) g v).2 := by
    rw [← hw']
    simp [World.exec, ha]
  have hfuts : w'.futs = w.futs := by
    rw [← hw']
    simp [World.exec, ha]
  rw [← hslot] at hcall hframe hret
  have hpin : w'.pin (.subject g) = some (i, g) := by simp [pin, hauth, Authority.current?]
  have hsafe := hs'.inv.safe_of_pin hpin
  have hlt : i < w'.nextSlot := by
    by_contra hge
    refine hs'.inv.unused.slot i (not_lt.mp hge) (.subject g) ?_
    rw [hs'.inv.held]
    exact handle_of_pin hpin
  rw [hs'.wakeCount_eq hlt (hs'.inv.pinned _ _ _ hpin) (by rw [hframe.published]; simp)
    fun g' a hst => honly g' a ((hcalm.stored g' a).mp hst), hsafe.count_of_returned hret,
    account_isSome, if_pos]
  rcases hreg with hdirect | ⟨f, hf, hmem⟩
  · have hknown : known (w'.slots i).direct wk = true := by
      rw [hcall.direct]
      refine SlotSys.Safe.known_of_mem ?_
      simpa [directOf, ha] using hdirect
    rw [hknown]
    rfl
  · -- a future that has not been dropped owns what it has recorded
    have hf' : w'.futs f = .live i g := by rw [hfuts, hf]
    have hmem' := hs'.inv.borrowed.mem i f g hf'
    have hok := hsafe.records.ok f hmem'
    have hknown : known ((w'.slots i).fut f).wakers wk = true := by
      rw [hcall.wakers]
      refine SlotSys.Safe.known_of_mem ?_
      simpa [wakersOf, hf] using hmem
    have hlate : ((w'.slots i).fut f).early = false := by
      by_contra hearly
      have hgone := hok.early (by simpa using hearly)
      rw [hok.cancelled, FutPc.gone_of_resting (hq'.fut f i g hf')] at hgone
      cases hgone
    have hpos := SlotSys.Safe.owners_pos hmem'
      (SlotSys.Safe.owns_of_late (hok.recorded wk hknown) hlate)
    simp [hpos]

end World

end Observe
