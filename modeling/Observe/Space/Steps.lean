import Observe.Space.Invariant

/-!
# Every step keeps the invariant

One lemma for each kind of step: handles that go, calls that start or take a step, handles that are
made, and the two sections under the entries lock.
-/

namespace Observe.World

variable {K O W : Type} [Key K] {bits : Nat} {w w' : World K O W bits}

/-! ## Handles that go -/

theorem held_release {x : Owner} (l : Bool) (h : ∀ y, y ≠ x → w.arcs.of y = w.handle y)
    (hx : w.handle x = none) : ∀ y, (w.release x l).arcs.of y = (w.release x l).handle y := by
  intro y
  have hsame : (w.release x l).handle y = w.handle y := by cases y <;> rfl
  rw [hsame, release_arcs]
  by_cases hy : y = x
  · rw [hy, Lib.Handles.of_release_self, hx]
  · rw [Lib.Handles.of_release_of_ne _ hy, h y hy]

/-- Another authority of generation `g`, whose handles change at most for `g`. -/
theorem handle_setAuth (g : Gen) (a : Authority K bits) (x : Owner) (hx : x ≠ .subject g)
    (htab : a.table? = (w.auth g).table?) :
    handle { w with auth := Function.update w.auth g a } x = w.handle x := by
  cases x with
  | subject g' =>
    have hg : g' ≠ g := fun h => hx (by rw [h])
    simp [handle, hg]
  | table g' =>
    by_cases hg : g' = g
    · subst hg
      simpa [handle] using htab
    · simp [handle, hg]
  | _ => rfl

theorem handle_setObs (o : ObsId) (st : ObsState O) (x : Owner) (hx : x ≠ .obs o) :
    handle { w with obs := Function.update w.obs o st } x = w.handle x := by
  cases x with
  | obs o' =>
    have ho : o' ≠ o := fun h => hx (by rw [h])
    simp [handle, ho]
  | _ => rfl

theorem handle_setFut (f : FutId) (st : FutState) (x : Owner) (hx : x ≠ .fut f) :
    handle { w with futs := Function.update w.futs f st } x = w.handle x := by
  cases x with
  | fut f' =>
    have hf : f' ≠ f := fun h => hx (by rw [h])
    simp [handle, hf]
  | _ => rfl

section Shrinking

variable [WillWake W]

/-- The subject gives up its handle of the space. -/
theorem Inv.releaseInner (h : w.Inv) {g : Gen} {i : SlotId} (ha : w.auth g = .retired i) :
    ({ w with auth := Function.update w.auth g (.releasing i) } : World K O W bits).Inv := by
  refine h.shrinks (.setAuth (by simp [ha]) (by simp [ha]) (by simp [ha]) rfl) fun x => ?_
  by_cases hx : x = .subject g
  · subst hx
    simpa [handle, ha, Authority.slot?] using h.held (.subject g)
  · rw [handle_setAuth g _ x hx (by simp [ha, Authority.table?])]
    exact h.held x

/-- A publisher that has completed, or is dropped, has only its slot to give back. -/
theorem Inv.published (h : w.Inv) {g : Gen} {i : SlotId}
    (ha : w.auth g = .publishing i ∧ (w.slots i).comp.resting = true ∨ w.auth g = .publisher i) :
    ({ w with auth := Function.update w.auth g (.releasing i) } : World K O W bits).Inv := by
  have hslot : (w.auth g).slot? = some i := by
    rcases ha with ⟨ha, -⟩ | ha <;> rw [ha] <;> rfl
  have htab : (w.auth g).table? = none := by
    rcases ha with ⟨ha, -⟩ | ha <;> rw [ha] <;> rfl
  refine h.shrinks (.setAuth ?_ ?_ ?_ rfl) fun x => ?_
  · rcases ha with ⟨ha, -⟩ | ha <;> simp [ha]
  · rcases ha with ⟨ha, -⟩ | ha <;> simp [ha]
  · rcases ha with ⟨ha, hrest⟩ | ha
    · intro i' hi'
      rw [ha] at hi'
      cases hi'
      exact hrest
    · simp [ha]
  · by_cases hx : x = .subject g
    · subst hx
      rw [h.held]
      simp only [handle, Function.update_self]
      rw [hslot]
      rfl
    · rw [handle_setAuth g _ x hx (by rw [htab]; rfl)]
      exact h.held x

theorem Inv.releaseSubject (h : w.Inv) {g : Gen} {i : SlotId} (ha : w.auth g = .releasing i)
    (l : Bool) : (({ w with auth := Function.update w.auth g .gone } : World K O W bits).release
      (.subject g) l).Inv := by
  refine h.shrinks ((Shrinks.setAuth (by simp [ha]) (by simp [ha]) (by simp [ha])
    rfl).release _ _) (held_release _ (fun x hx => ?_) (by simp [handle, Authority.slot?]))
  rw [handle_setAuth g _ x hx (by simp [ha, Authority.table?])]
  exact h.held x

theorem Inv.dropObs (h : w.Inv) {o : ObsId} {i : SlotId} {g : Gen} {s : ObsState O}
    (ho : (w.obs o).at? = some (i, g)) (hb : w.Unborrowed o) (hs : s.at? = none) :
    (({ w with obs := Function.update w.obs o s } : World K O W bits).release
      (.obs o) false).Inv := by
  refine h.shrinks ((Shrinks.setObs ?_ hb (by simp [hs])).release _ _)
    (held_release _ (fun x hx => ?_) (by simp [handle, hs]))
  · intro hne
    rw [hne] at ho
    cases ho
  · rw [handle_setObs o s x hx]
    exact h.held x

theorem Inv.dropRefused (h : w.Inv) {o : ObsId} {i : SlotId} {g : Gen}
    (ho : w.obs o = .refused i g) :
    (({ w with obs := Function.update w.obs o (.gone g (some none)) } : World K O W bits).release
      (.obs o) false).Inv := by
  refine h.dropObs (by rw [ho]; rfl) (fun j t hact hvia => ?_) rfl
  -- a refused observation is borrowed by no call
  have hlive := h.borrowed.thr j t hact
  rw [hvia, ho] at hlive
  cases hlive

/-- `into_outcome` is refused, and has its handle still to drop. -/
theorem Inv.refuseOutcome (h : w.Inv) {o : ObsId} {i : SlotId} {g : Gen}
    (ho : w.obs o = .live i g) (hb : w.Unborrowed o) :
    ({ w with obs := Function.update w.obs o (.refused i g) } : World K O W bits).Inv := by
  refine h.shrinks (.setObs (by simp [ho]) hb (by simp [ho, ObsState.at?])) fun x => ?_
  by_cases hx : x = .obs o
  · subst hx
    simpa [handle, ho, ObsState.at?] using h.held (.obs o)
  · rw [handle_setObs o _ x hx]
    exact h.held x

theorem Inv.releaseFuture (h : w.Inv) {f : FutId} {i : SlotId} {g : Gen}
    (hf : w.futs f = .live i g) (hdead : (w.slots i).fpc f = .dead) :
    (({ w with futs := Function.update w.futs f .gone } : World K O W bits).release
      (.fut f) false).Inv := by
  refine h.shrinks ((Shrinks.setFut hf hdead).release _ _)
    (held_release _ (fun x hx => ?_) (by simp [handle, FutState.at?]))
  rw [handle_setFut f .gone x hx]
  exact h.held x

theorem Inv.dropPopped (h : w.Inv) (l : Bool) : (w.dropPopped l).Inv := by
  unfold World.dropPopped
  cases hp : w.pool with
  | nil => simpa [hp] using h
  | cons i rest =>
    have hnd : (i :: rest).Nodup := hp ▸ h.pooled.nodup
    have hsh : w.Shrinks { w with pool := rest } :=
      { Shrinks.refl w with pool := by rw [hp]; exact List.sublist_cons_self _ _ }
    refine h.shrinks (hsh.release _ _) (held_release _ (fun x hx => ?_) ?_)
    · refine (h.held x).trans ?_
      cases x with
      | pool j =>
        have hj : j ≠ i := fun hj => hx (by rw [hj])
        simp [handle, hp, hj]
      | _ => rfl
    · simp [handle, (List.nodup_cons.mp hnd).1]

omit [WillWake W] in
/-- The drop behind a take stops no call, and starts none. -/
theorem takenSlot_quieter (w : World K O W bits) (i : SlotId) :
    Quieter (w.slots i) (w.takenSlot i).finalDrop := by
  unfold World.takenSlot
  split
  · exact ⟨rfl, rfl, rfl, fun _ => id, fun _ => id, fun _ => id, id, id⟩
  · exact .finalDrop _

/-- Nobody but the observation `o` holds the slot that it unwraps. -/
theorem Inv.unwrapSlot (h : w.Inv) {o : ObsId} {i : SlotId} {g : Gen} (ho : w.obs o = .live i g)
    (hb : w.Unborrowed o) (hone : w.arcs.count i = 1) : (w.unwrapSlot o i g).Inv := by
  have hof : w.arcs.of (.obs o) = some i := by
    rw [h.held]
    simp [handle, ho, ObsState.at?]
  have hsole := (Lib.Handles.count_eq_one_iff _ hof).mp hone
  have hrec := Shrinks.setObs (w := w) (o := o)
    (s := .gone g (some (w.unwrapped i))) (by simp [ho]) hb (by simp [ObsState.at?])
  have hgone (x : Owner) (hx : x ≠ .obs o) : w.arcs.of x ≠ some i := fun hi => hx (hsole x hi)
  refine h.shrinks { hrec with arcs := ?_, quieter := ?_, slots := ?_ } fun x => ?_
  · intro x j hx
    by_cases hxo : x = .obs o
    · simp [World.unwrapSlot, hxo] at hx
    · simpa [World.unwrapSlot, Lib.Handles.of_release_of_ne _ hxo] using hx
  · intro j
    by_cases hj : j = i
    · subst hj
      simpa [World.unwrapSlot] using w.takenSlot_quieter j
    · simpa [World.unwrapSlot, hj] using Quieter.refl (w.slots j)
  · intro x j hx
    have hj : j ≠ i := by
      rintro rfl
      by_cases hxo : x = .obs o
      · simp [World.unwrapSlot, hxo] at hx
      · refine hgone x hxo ?_
        simpa [World.unwrapSlot, Lib.Handles.of_release_of_ne _ hxo] using hx
    simp [World.unwrapSlot, hj]
  · by_cases hxo : x = .obs o
    · simp [World.unwrapSlot, hxo, handle, ObsState.at?]
    · have hhandle := handle_setObs (w := w) o (.gone g (some (w.unwrapped i))) x hxo
      have harcs : (w.unwrapSlot o i g).arcs.of x = w.arcs.of x := by
        simp [World.unwrapSlot, Lib.Handles.of_release_of_ne _ hxo]
      rw [harcs, h.held x, ← hhandle]
      cases x <;> rfl

/-- `into_outcome` keeps the invariant, refused or not. -/
theorem Inv.intoOutcome (h : w.Inv) {o : ObsId} {i : SlotId} {g : Gen} (ho : w.obs o = .live i g)
    (hb : w.Unborrowed o) : (w.intoOutcome o i g).1.Inv := by
  unfold World.intoOutcome
  split
  · rename_i hone
    exact h.unwrapSlot ho hb hone
  · exact h.refuseOutcome ho hb

end Shrinking

/-! ## Calls on a slot -/

theorem pin_obs {o : ObsId} {i : SlotId} {g : Gen} (ho : w.obs o = .live i g) :
    w.pin (.obs o) = some (i, g) := by
  simp [pin, ho, ObsState.at?]

theorem pin_fut {f : FutId} {i : SlotId} {g : Gen} (hf : w.futs f = .live i g) :
    w.pin (.fut f) = some (i, g) := by
  simp [pin, hf, FutState.at?]

section Calls

variable [WillWake W]

/-- A slot that something pins is in use. -/
theorem Inv.safe_of_pin (h : w.Inv) {x : Owner} {i : SlotId} {g : Gen}
    (hp : w.pin x = some (i, g)) : (w.slots i).Safe w.env :=
  h.safe x i (by rw [h.held]; exact handle_of_pin hp)

/-- A completion in flight pins its slot. -/
theorem Inv.pin_comp (h : w.Inv) {i : SlotId} (hrest : (w.slots i).comp.resting = false) :
    w.pin (.subject (w.slots i).gen) = some (i, (w.slots i).gen) := by
  rcases h.borrowed.comp i hrest with ha | ⟨k, n, ha⟩ <;> simp [pin, ha, Authority.current?]

/-- A call in flight pins its slot. -/
theorem Inv.pin_thr (h : w.Inv) {i : SlotId} {t : Tid}
    (hact : ((w.slots i).thr t).active = true) :
    w.pin (.obs ((w.slots i).via t).obs) = some (i, ((w.slots i).via t).gen) := by
  simp [pin, h.borrowed.thr i t hact, ObsState.at?]

/-- A call in flight pins its slot. -/
theorem Inv.pin_callStep (h : w.Inv) {i : SlotId} {e' : Env} {s' : SlotSys O W}
    (hs : CallStep w.env (w.slots i) e' s') : ∃ x g, w.pin x = some (i, g) := by
  cases hs with
  | thread t hs => exact ⟨_, _, h.pin_thr hs.active⟩
  | future f he hs =>
    obtain ⟨g, hg⟩ := h.borrowed.fut i f hs.active
    exact ⟨.fut f, g, pin_fut hg⟩
  | complete hs => exact ⟨_, _, h.pin_comp hs.notResting⟩

/-- Slot `i` goes on at the same generation. -/
theorem Inv.setSlot (h : w.Inv) {i : SlotId} {s' : SlotSys O W} {e' : Env}
    (hgen : s'.gen = (w.slots i).gen) (hfuts : ∀ f ∈ s'.futs, f < w.nextFut) (hsafe : s'.Safe e')
    (htok : ∀ j, j ≠ i → ∀ t, ((w.slots j).thr t).active = true → w.env.token t = true →
      e'.token t = true)
    (hb : ({ w.setSlot i s' with env := e' } : World K O W bits).Borrowed) :
    ({ w.setSlot i s' with env := e' } : World K O W bits).Inv := by
  have hgens := forall_setSlot (P := fun j s => s.gen = (w.slots j).gen) hgen fun _ => rfl
  have hspreads : w.Spreads { w.setSlot i s' with env := e' } :=
    ⟨rfl, List.Sublist.refl _, fun x j hx => ⟨x, hx⟩,
      fun x j g hp => ⟨x, by cases x <;> exact hp⟩, hgens⟩
  refine h.spreads hspreads ?held ⟨h.mapped.ok, h.mapped.find, h.mapped.entry⟩ hb rfl
    (fun _ => id) h.unused.obs h.unused.fut ?futs ?safe
  case held =>
    intro x
    exact (h.held x).trans (by cases x <;> rfl)
  case futs =>
    exact forall_setSlot (P := fun _ s => ∀ f ∈ s.futs, f < w.nextFut) hfuts h.unused.futs
  case safe =>
    rintro j hsafe' -
    by_cases hj : j = i
    · subst hj
      simpa [World.setSlot] using hsafe
    · have hold : (w.slots j).Safe e' := hsafe'.env (htok j hj)
      simpa [World.setSlot, hj] using hold

theorem Inv.callStep (h : w.Inv) {i : SlotId} {e' : Env} {s' : SlotSys O W}
    (hs : CallStep w.env (w.slots i) e' s') :
    ({ w.setSlot i s' with env := e' } : World K O W bits).Inv := by
  obtain ⟨x, g, hp⟩ := h.pin_callStep hs
  have hq := hs.quieter
  refine h.setSlot hq.gen (fun f hf => h.unused.futs i f (hq.futs ▸ hf))
    ((h.safe_of_pin hp).callStep hs) (fun j hj t hact => hs.token ?_) ?_
  · by_contra hi
    exact hj (h.borrowed.alone j i t hact (by simpa using hi))
  · have hquiet := forall_setSlot (P := fun j s => Quieter (w.slots j) s) hq fun j => .refl _
    exact h.borrowed.mono hquiet (fun _ _ _ _ _ _ => id) (fun _ _ _ _ => id)
      (fun _ _ _ => id) (fun _ _ => rfl) fun _ _ => .inl

theorem Inv.call (h : w.Inv) {o : ObsId} {i : SlotId} {g : Gen} (t : Tid) (c : Call W)
    (ho : w.obs o = .live i g) (hidle : w.Idle t) :
    (w.setSlot i ((w.slots i).startCall t ⟨o, g⟩ c)).Inv := by
  have hp := pin_obs ho
  have hgen := h.pinned _ _ _ hp
  have hb := h.borrowed
  refine h.setSlot rfl (h.unused.futs i) ((h.safe_of_pin hp).startCall (hidle i) hgen.symm c)
    (fun _ _ _ _ => id) (hb.setSlot w.env (fun u hu => ?_) (fun u hu => ?_) (hb.fut i) (hb.mem i)
      (hb.gone i) (hb.comp i) (fun g' => hb.idle g' i))
  · by_cases hut : u = t
    · simpa [SlotSys.startCall, hut] using ho
    · simp only [SlotSys.startCall, Function.update_of_ne hut] at hu ⊢
      exact hb.thr i u hu
  · by_cases hut : u = t
    · rw [hut]
      exact .inr hidle
    · simp only [SlotSys.startCall, Function.update_of_ne hut] at hu
      exact .inl hu

/-- A future of slot `i` moves on. -/
theorem Inv.goFut (h : w.Inv) {f : FutId} {i : SlotId} {g : Gen} (hf : w.futs f = .live i g)
    {k : FutPc O W} {x : Fut W} (hsafe : (((w.slots i).setFut f x).goFut f k).Safe w.env) :
    (w.setSlot i (((w.slots i).setFut f x).goFut f k)).Inv := by
  have hb := h.borrowed
  refine h.setSlot rfl (h.unused.futs i) hsafe (fun _ _ _ _ => id) (hb.setSlot w.env (hb.thr i)
    (fun u hu => .inl hu) (fun f' hf' => ?_) (hb.mem i) (fun f' hf' => ?_) (hb.comp i)
    (fun g' => hb.idle g' i))
  · by_cases hff : f' = f
    · exact ⟨g, by rw [hff, hf]⟩
    · exact hb.fut i f' (by simpa [hff] using hf')
  · by_cases hff : f' = f
    · exact .inr ⟨g, by rw [hff, hf]⟩
    · exact (hb.gone i f' hf').imp_left fun hd => by simpa [hff] using hd

theorem Inv.poll (h : w.Inv) {f : FutId} {i : SlotId} {g : Gen} (hf : w.futs f = .live i g)
    (hrest : ((w.slots i).fpc f).resting = true) (wk : W) :
    (w.setSlot i ((w.slots i).startPoll f wk)).Inv := by
  have hs := (h.safe_of_pin (pin_fut hf)).startPoll
    (h.borrowed.mem i f g hf) hrest wk
  have hsame : (w.slots i).startPoll f wk =
      ((w.slots i).setFut f ((w.slots i).fut f)).goFut f (.poll wk) := by
    simp [SlotSys.startPoll]
  rw [hsame] at hs ⊢
  exact h.goFut hf hs

theorem Inv.cancel (h : w.Inv) {f : FutId} {i : SlotId} {g : Gen} (hf : w.futs f = .live i g)
    (hrest : ((w.slots i).fpc f).resting = true) :
    (w.setSlot i ((w.slots i).startCancel f)).Inv := by
  have hs := (h.safe_of_pin (pin_fut hf)).startCancel
    (h.borrowed.mem i f g hf) hrest
  have hsame : ∃ x k, (w.slots i).startCancel f = ((w.slots i).setFut f x).goFut f k := by
    unfold SlotSys.startCancel
    split
    · exact ⟨_, _, rfl⟩
    · exact ⟨(w.slots i).fut f, .loadReg .cancel, by simp⟩
  obtain ⟨x, k, hsame⟩ := hsame
  rw [hsame] at hs ⊢
  exact h.goFut hf hs

/-- The completion of the current generation starts. -/
theorem Inv.startComplete (h : w.Inv) {g : Gen} {i : SlotId}
    (ha : w.auth g = .publishing i ∨ ∃ k n, w.auth g = .subject k n i true)
    (hidle : (w.slots i).comp = .idle) (v : O) :
    (w.setSlot i ((w.slots i).startComplete g v)).Inv := by
  have hp : w.pin (.subject g) = some (i, g) := by
    rcases ha with ha | ⟨k, n, ha⟩ <;> simp [pin, ha, Authority.current?]
  have hgen := h.pinned _ _ _ hp
  have hb := h.borrowed
  have hs := (h.safe_of_pin hp).startComplete hidle v
  rw [hgen] at hs
  refine h.setSlot rfl (h.unused.futs i) hs (fun _ _ _ _ => id) (hb.setSlot w.env (hb.thr i)
    (fun u hu => .inl hu) (hb.fut i) (hb.mem i) (hb.gone i) (fun _ => ?_) (fun g' hg' => ?_))
  · simpa [SlotSys.startComplete, hgen] using ha
  · -- two authorities of one slot would pin it to one generation
    have hp' : w.pin (.subject g') = some (i, g') := by
      rcases hg' with ha' | ⟨k, n, ha'⟩ <;> simp [pin, ha', Authority.current?]
    have hgg : g' = g := by rw [← h.pinned _ _ _ hp', hgen]
    subst hgg
    rcases ha with ha | ⟨k, n, ha⟩ <;> rcases hg' with ha' | ⟨k', n', ha'⟩ <;> rw [ha] at ha' <;>
      cases ha'

section SetCompleted

variable {g : Gen} {a : Authority K bits}

omit [WillWake W] in
theorem pin_setCompleted (hc : (w.auth g).Completes a) (x : Owner) :
    pin { w with auth := Function.update w.auth g a } x = w.pin x := by
  cases x with
  | subject g' =>
    by_cases hg : g' = g
    · subst hg
      simp [pin, hc.current]
    · simp [pin, hg]
  | _ => rfl

/-- A completion that starts keeps the table the map of the subjects. -/
theorem Inv.setCompleted_mapped (h : w.Inv) (hc : (w.auth g).Completes a) :
    ({ w with auth := Function.update w.auth g a } : World K O W bits).Mapped where
  ok := h.mapped.ok
  find k e he := by
    obtain ⟨k', c, hk, hold⟩ := h.mapped.find k e he
    by_cases hg : e.gen = g
    · rw [hg] at hold
      exact ⟨k', true, hk, by simp [hg, hc.of_subject hold]⟩
    · exact ⟨k', c, hk, by simpa [hg] using hold⟩
  entry g' k n i c ha := by
    by_cases hg : g' = g
    · subst hg
      simp only [Function.update_self] at ha
      exact h.mapped.entry _ _ _ _ _ (hc.to_subject ha)
    · exact h.mapped.entry g' k n i c (by simpa [hg] using ha)

theorem Inv.setCompleted_borrowed (h : w.Inv) (hc : (w.auth g).Completes a) :
    ({ w with auth := Function.update w.auth g a } : World K O W bits).Borrowed := by
  refine h.borrowed.mono (fun _ => Quieter.refl _) (fun _ _ _ _ _ _ => id) (fun _ _ _ _ => id)
    (fun _ _ _ => id) (fun i hi => ?_) fun g' i hg' => ?_
  · -- an authority that has not completed has no completion in flight
    have hne : (w.slots i).gen ≠ g := by
      intro hg
      rcases h.borrowed.comp i hi with hold | ⟨k, n, hold⟩ <;> rw [hg] at hold <;>
        rw [hold] at hc <;> cases hc
    simp [hne]
  · by_cases hg : g' = g
    · subst hg
      simp only [Function.update_self] at hg'
      generalize w.auth g' = b at hc
      rcases hg' with hnew | ⟨k, n, hnew⟩ <;> rw [hnew] at hc <;> cases hc
    · exact .inl (by simpa [hg] using hg')

/-- A completion that starts keeps the invariant of the program. -/
theorem Inv.setCompleted (h : w.Inv) (hc : (w.auth g).Completes a) :
    ({ w with auth := Function.update w.auth g a } : World K O W bits).Inv := by
  have hspreads : w.Spreads { w with auth := Function.update w.auth g a } :=
    ⟨rfl, List.Sublist.refl _, fun x i hx => ⟨x, hx⟩,
      fun x i g' hp => ⟨x, pin_setCompleted hc x ▸ hp⟩, fun _ => rfl⟩
  refine h.spreads hspreads ?held (h.setCompleted_mapped hc) (h.setCompleted_borrowed hc) rfl
    ?auth h.unused.obs h.unused.fut h.unused.futs fun _ hsafe _ => hsafe
  case held =>
    intro x
    by_cases hx : x = .subject g
    · rw [hx, h.held]
      simp only [handle, Function.update_self]
      exact hc.slot.symm
    · rw [handle_setAuth g a x hx hc.table]
      exact h.held x
  case auth =>
    intro g' habs
    have hne : g' ≠ g := by
      rintro rfl
      rw [habs] at hc
      cases hc
    simpa [hne] using habs

end SetCompleted

end Calls

/-! ## Handles that are made -/

section Making

variable [WillWake W]

section NewObs

variable (w) (i : SlotId) (g : Gen) (x : Owner)

omit [WillWake W]

theorem newObs_of : (w.newObs i g).arcs.of x =
    if x = .obs w.nextObs then some i else w.arcs.of x := by
  by_cases hx : x = .obs w.nextObs
  · simp [World.newObs, hx]
  · rw [if_neg hx, World.newObs, Lib.Handles.of_grab_of_ne _ hx]

theorem newObs_pin : (w.newObs i g).pin x =
    if x = .obs w.nextObs then some (i, g) else w.pin x := by
  cases x with
  | obs o => by_cases ho : o = w.nextObs <;> simp [World.newObs, pin, ho, ObsState.at?]
  | _ => rfl

theorem newObs_handle : (w.newObs i g).handle x =
    if x = .obs w.nextObs then some i else w.handle x := by
  cases x with
  | obs o => by_cases ho : o = w.nextObs <;> simp [World.newObs, handle, ho, ObsState.at?]
  | _ => rfl

end NewObs

/-- A new observation of a generation that something pins. -/
theorem Inv.newObs (h : w.Inv) {y : Owner} {i : SlotId} {g : Gen} (hp : w.pin y = some (i, g)) :
    (w.newObs i g).Inv := by
  have habs := h.unused.obs w.nextObs le_rfl
  have hspreads : w.Spreads (w.newObs i g) := by
    refine ⟨rfl, List.Sublist.refl _, ?arcs, ?pin, fun _ => rfl⟩
    case arcs =>
      intro x j hx
      rw [newObs_of] at hx
      split at hx
      · cases hx
        refine ⟨y, ?_⟩
        rw [h.held]
        exact handle_of_pin hp
      · exact ⟨x, hx⟩
    case pin =>
      intro x j g' hp'
      rw [newObs_pin] at hp'
      split at hp'
      · cases hp'
        exact ⟨y, hp⟩
      · exact ⟨x, hp'⟩
  refine h.spreads hspreads ?held ⟨h.mapped.ok, h.mapped.find, h.mapped.entry⟩ ?borrowed rfl
    (fun _ => id) ?obs h.unused.fut h.unused.futs fun _ hsafe _ => hsafe
  case held =>
    intro x
    rw [newObs_of, newObs_handle, h.held]
  case borrowed =>
    refine h.borrowed.mono (fun _ => Quieter.refl _) (fun j t o g' _ _ ho => ?_)
      (fun _ _ _ _ => id) (fun _ _ _ => id) (fun _ _ => rfl) fun _ _ => .inl
    -- a borrowed observation is an older one
    have hne : o ≠ w.nextObs := by
      rintro rfl
      rw [habs] at ho
      cases ho
    simpa [World.newObs, hne] using ho
  case obs =>
    intro o ho
    have hlt : w.nextObs < o := ho
    simpa [World.newObs, hlt.ne'] using h.unused.obs o hlt.le

/-- The next future is unknown to every slot. -/
theorem Inv.nextFut_new (h : w.Inv) (i : SlotId) :
    w.nextFut ∉ (w.slots i).futs ∧ ((w.slots i).fpc w.nextFut).active = false := by
  refine ⟨fun hf => absurd (h.unused.futs i _ hf) (Nat.lt_irrefl _), ?_⟩
  by_contra hact
  obtain ⟨g, hg⟩ := h.borrowed.fut i w.nextFut (by simpa using hact)
  rw [h.unused.fut w.nextFut le_rfl] at hg
  cases hg

section IntoFuture

variable (w) (o : ObsId) (i : SlotId) (g : Gen)

omit [WillWake W]

/-- The observation's handle has moved into the future. -/
theorem intoFuture_of (x : Owner) : (w.intoFuture o i g).arcs.of x =
    if x = .fut w.nextFut then some i else if x = .obs o then none else w.arcs.of x := by
  by_cases hx : x = .fut w.nextFut
  · simp [World.intoFuture, hx]
  · rw [if_neg hx, World.intoFuture, Lib.Handles.of_grab_of_ne _ hx]
    by_cases hxo : x = .obs o
    · rw [hxo, Lib.Handles.of_release_self, if_pos rfl]
    · rw [Lib.Handles.of_release_of_ne _ hxo, if_neg hxo]

/-- The future pins the slot in the observation's place. -/
theorem intoFuture_pin (x : Owner) : (w.intoFuture o i g).pin x =
    if x = .fut w.nextFut then some (i, g) else if x = .obs o then none else w.pin x := by
  cases x with
  | obs o' => by_cases ho : o' = o <;> simp [World.intoFuture, pin, ho, ObsState.at?]
  | fut f => by_cases hf : f = w.nextFut <;> simp [World.intoFuture, pin, hf, FutState.at?]
  | _ => rfl

theorem intoFuture_handle (x : Owner) : (w.intoFuture o i g).handle x =
    if x = .fut w.nextFut then some i else if x = .obs o then none else w.handle x := by
  cases x with
  | obs o' => by_cases ho : o' = o <;> simp [World.intoFuture, handle, ho, ObsState.at?]
  | fut f => by_cases hf : f = w.nextFut <;> simp [World.intoFuture, handle, hf, FutState.at?]
  | _ => rfl

theorem intoFuture_slots_self :
    (w.intoFuture o i g).slots i = (w.slots i).newFuture w.nextFut g := by
  simp [World.intoFuture]

variable {i} in
theorem intoFuture_slots_of_ne {j : SlotId} (hj : j ≠ i) :
    (w.intoFuture o i g).slots j = w.slots j := by
  simp [World.intoFuture, hj]

theorem intoFuture_futs_self : (w.intoFuture o i g).futs w.nextFut = .live i g := by
  simp [World.intoFuture]

variable {w} in
theorem intoFuture_futs_of_ne {f : FutId} (hf : f ≠ w.nextFut) :
    (w.intoFuture o i g).futs f = w.futs f := by
  simp [World.intoFuture, hf]

section Calls

variable (j : SlotId)

theorem intoFuture_gen : ((w.intoFuture o i g).slots j).gen = (w.slots j).gen := by
  by_cases hj : j = i
  · rw [hj, intoFuture_slots_self]
    rfl
  · rw [intoFuture_slots_of_ne w o g hj]

theorem intoFuture_thr : ((w.intoFuture o i g).slots j).thr = (w.slots j).thr := by
  by_cases hj : j = i
  · rw [hj, intoFuture_slots_self]
    rfl
  · rw [intoFuture_slots_of_ne w o g hj]

theorem intoFuture_via : ((w.intoFuture o i g).slots j).via = (w.slots j).via := by
  by_cases hj : j = i
  · rw [hj, intoFuture_slots_self]
    rfl
  · rw [intoFuture_slots_of_ne w o g hj]

theorem intoFuture_comp : ((w.intoFuture o i g).slots j).comp = (w.slots j).comp := by
  by_cases hj : j = i
  · rw [hj, intoFuture_slots_self]
    rfl
  · rw [intoFuture_slots_of_ne w o g hj]

end Calls

end IntoFuture

/-- The futures of slot `j` are those it had, and on slot `i` the new one. -/
theorem Inv.intoFuture_futs (h : w.Inv) (o : ObsId) (i : SlotId) (g : Gen) {j : SlotId} {f : FutId}
    (hf : f ∈ ((w.intoFuture o i g).slots j).futs) :
    f = w.nextFut ∧ j = i ∨
      f ≠ w.nextFut ∧ f ∈ (w.slots j).futs ∧
        ((w.intoFuture o i g).slots j).fpc f = (w.slots j).fpc f := by
  have hold (hmem : f ∈ (w.slots j).futs) : f ≠ w.nextFut := (h.unused.futs j f hmem).ne
  by_cases hj : j = i
  · subst hj
    rw [intoFuture_slots_self] at hf ⊢
    rcases Finset.mem_insert.mp hf with hnew | hmem
    · exact .inl ⟨hnew, rfl⟩
    · exact .inr ⟨hold hmem, hmem, by simp [SlotSys.newFuture, hold hmem]⟩
  · rw [intoFuture_slots_of_ne w o g hj] at hf ⊢
    exact .inr ⟨hold hf, hf, rfl⟩

/-- A future takes over from an observation that no call borrows. -/
theorem Inv.intoFuture_borrowed (h : w.Inv) {o : ObsId} {i : SlotId} {g : Gen}
    (hb : w.Unborrowed o) : (w.intoFuture o i g).Borrowed where
  thr j t hact := by
    rw [intoFuture_thr] at hact
    rw [intoFuture_via]
    have hne : ((w.slots j).via t).obs ≠ o := hb j t hact
    have hold := h.borrowed.thr j t hact
    simpa [World.intoFuture, hne] using hold
  alone j k t hj hk := by
    rw [intoFuture_thr] at hj hk
    exact h.borrowed.alone j k t hj hk
  fut j f hf := by
    have hold (hact : ((w.slots j).fpc f).active = true) :
        ∃ g', (w.intoFuture o i g).futs f = .live j g' := by
      have hne : f ≠ w.nextFut := by
        rintro rfl
        rw [(h.nextFut_new j).2] at hact
        cases hact
      rw [intoFuture_futs_of_ne o i g hne]
      exact h.borrowed.fut j f hact
    by_cases hj : j = i
    · subst hj
      rw [intoFuture_slots_self] at hf
      by_cases hfn : f = w.nextFut
      · exact ⟨g, by rw [hfn, intoFuture_futs_self]⟩
      · exact hold (by simpa [SlotSys.newFuture, hfn] using hf)
    · rw [intoFuture_slots_of_ne w o g hj] at hf
      exact hold hf
  mem j f g' hf := by
    by_cases hfn : f = w.nextFut
    · subst hfn
      rw [intoFuture_futs_self] at hf
      cases hf
      rw [intoFuture_slots_self]
      exact Finset.mem_insert_self _ _
    · rw [intoFuture_futs_of_ne o i g hfn] at hf
      have hmem := h.borrowed.mem j f g' hf
      by_cases hj : j = i
      · subst hj
        rw [intoFuture_slots_self]
        exact Finset.mem_insert_of_mem hmem
      · rwa [intoFuture_slots_of_ne w o g hj]
  gone j f hf := by
    rcases h.intoFuture_futs o i g hf with ⟨rfl, rfl⟩ | ⟨hne, hmem, hfpc⟩
    · exact .inr ⟨g, intoFuture_futs_self w o j g⟩
    · rw [hfpc, intoFuture_futs_of_ne o i g hne]
      exact h.borrowed.gone j f hmem
  comp j hj := by
    rw [intoFuture_comp] at hj
    rw [intoFuture_gen]
    exact h.borrowed.comp j hj
  idle g' j hg := by
    rw [intoFuture_comp]
    exact h.borrowed.idle g' j hg

theorem Inv.intoFuture (h : w.Inv) {o : ObsId} {i : SlotId} {g : Gen} (ho : w.obs o = .live i g)
    (hb : w.Unborrowed o) : (w.intoFuture o i g).Inv := by
  have hp := pin_obs ho
  have hspreads : w.Spreads (w.intoFuture o i g) := by
    refine ⟨rfl, List.Sublist.refl _, ?arcs, ?pin, intoFuture_gen w o i g⟩
    case arcs =>
      intro x j hx
      rw [intoFuture_of] at hx
      split at hx
      · -- the new future's handle is the observation's
        cases hx
        refine ⟨.obs o, ?_⟩
        rw [h.held]
        exact handle_of_pin hp
      · split at hx
        · cases hx
        · exact ⟨x, hx⟩
    case pin =>
      intro x j g' hp'
      rw [intoFuture_pin] at hp'
      split at hp'
      · cases hp'
        exact ⟨.obs o, hp⟩
      · split at hp'
        · cases hp'
        · exact ⟨x, hp'⟩
  refine h.spreads hspreads ?held ⟨h.mapped.ok, h.mapped.find, h.mapped.entry⟩
    (h.intoFuture_borrowed hb) rfl (fun _ => id) ?obs ?fut ?futs ?safe
  case held =>
    intro x
    rw [intoFuture_of, intoFuture_handle, h.held]
  case obs =>
    intro o' ho'
    have habs := h.unused.obs o' ho'
    have hne : o' ≠ o := by
      rintro rfl
      rw [ho] at habs
      cases habs
    simpa [World.intoFuture, hne] using habs
  case fut =>
    intro f hf
    have hlt : w.nextFut < f := hf
    rw [intoFuture_futs_of_ne o i g hlt.ne']
    exact h.unused.fut f hlt.le
  case futs =>
    intro j f hf
    rcases h.intoFuture_futs o i g hf with ⟨rfl, -⟩ | ⟨-, hmem, -⟩
    · exact Nat.lt_succ_self _
    · exact Nat.lt_succ_of_lt (h.unused.futs j f hmem)
  case safe =>
    rintro j hsafe -
    by_cases hj : j = i
    · subst hj
      have hnew := hsafe.newFuture (h.nextFut_new j).1 (h.nextFut_new j).2
      rw [h.pinned _ _ _ hp] at hnew
      rw [intoFuture_slots_self]
      exact hnew
    · rw [intoFuture_slots_of_ne w o g hj]
      exact hsafe

/-- Slot `i` is ready for the next generation, whose authority is still to be made. -/
structure Prepared (w : World K O W bits) (i : SlotId) : Prop where
  held : ∀ x, w.arcs.of x = w.handle x
  pinned : ∀ x j g, w.pin x = some (j, g) → (w.slots j).gen = g
  pooled : w.Pooled
  mapped : w.Mapped
  borrowed : w.Borrowed
  auth : ∀ g, w.nextGen ≤ g → w.auth g = .absent
  obs : ∀ o, w.nextObs ≤ o → w.obs o = .absent
  fut : ∀ f, w.nextFut ≤ f → w.futs f = .absent
  futs : ∀ j, ∀ f ∈ (w.slots j).futs, f < w.nextFut
  gen : (w.slots i).gen = w.nextGen
  genOther : ∀ j, j ≠ i → (w.slots j).gen < w.nextGen
  slot : i < w.nextSlot
  slotOther : ∀ j, w.nextSlot ≤ j → ∀ x, w.arcs.of x ≠ some j
  safe : ∀ x j, w.arcs.of x = some j → (w.slots j).Safe w.env
  ready : (w.slots i).Safe w.env
  free : ∀ x g, w.pin x ≠ some (i, g)
  notPooled : i ∉ w.pool
  idle : (w.slots i).comp = .idle

omit [WillWake W] in
/-- The new authority's handle, and the table's handle of a subject. -/
theorem claim_of {i : SlotId} {a : Authority K bits} (m : SmallMap K bits)
    (ha : a.table? = none ∨ a.table? = some i) (hnone : w.arcs.of (.table w.nextGen) = none)
    (x : Owner) : (w.claim i a m).arcs.of x =
      if x = .subject w.nextGen then some i
      else if x = .table w.nextGen then a.table? else w.arcs.of x := by
  rcases ha with ht | ht
  · by_cases hx : x = .subject w.nextGen
    · simp [World.claim, ht, hx]
    · rw [if_neg hx, World.claim, if_pos ht, Lib.Handles.of_grab_of_ne _ hx]
      split
      · rename_i hxt
        rw [hxt, hnone, ht]
      · rfl
  · have hne : ¬ a.table? = none := by simp [ht]
    rw [World.claim, if_neg hne]
    by_cases hxt : x = .table w.nextGen
    · simp [hxt, ht]
    · rw [Lib.Handles.of_grab_of_ne _ hxt, if_neg hxt]
      by_cases hx : x = .subject w.nextGen
      · simp [hx]
      · rw [Lib.Handles.of_grab_of_ne _ hx, if_neg hx]

omit [WillWake W] in
theorem claim_pin {i : SlotId} {a : Authority K bits} (m : SmallMap K bits)
    (ha : a.current? = some i) (x : Owner) : (w.claim i a m).pin x =
      if x = .subject w.nextGen then some (i, w.nextGen) else w.pin x := by
  cases x with
  | subject g => by_cases hg : g = w.nextGen <;> simp [World.claim, pin, hg, ha]
  | _ => rfl

omit [WillWake W] in
theorem claim_handle {i : SlotId} {a : Authority K bits} (m : SmallMap K bits)
    (ha : a.slot? = some i) (x : Owner) : (w.claim i a m).handle x =
      if x = .subject w.nextGen then some i
      else if x = .table w.nextGen then a.table? else w.handle x := by
  cases x with
  | subject g => by_cases hg : g = w.nextGen <;> simp [World.claim, handle, hg, ha]
  | table g => by_cases hg : g = w.nextGen <;> simp [World.claim, handle, hg]
  | _ => rfl

/-- Nothing is borrowed of a generation that is new. -/
theorem Prepared.claim_borrowed {i : SlotId} (h : w.Prepared i) {a : Authority K bits}
    (m : SmallMap K bits) (ha : a = .publisher i ∨ ∃ k n, a = .subject k n i false) :
    (w.claim i a m).Borrowed := by
  refine h.borrowed.mono (fun _ => Quieter.refl _) (fun _ _ _ _ _ _ => id) (fun _ _ _ _ => id)
    (fun _ _ _ => id) (fun j hj => ?_) fun g j hg => ?_
  · -- the completion in flight is of an older generation, on another slot
    have hji : j ≠ i := by
      rintro rfl
      rw [h.idle] at hj
      cases hj
    simp [World.claim, (h.genOther j hji).ne]
  · by_cases hgn : g = w.nextGen
    · have hji : j = i := by
        simp only [World.claim, hgn, Function.update_self] at hg
        rcases ha with rfl | ⟨k, n, rfl⟩ <;> rcases hg with hg | ⟨k', n', hg⟩ <;> cases hg <;> rfl
      rw [hji]
      exact .inr h.idle
    · exact .inl (by simpa [World.claim, hgn] using hg)

/-- A new generation on a prepared slot keeps the invariant. -/
theorem Prepared.claim {i : SlotId} (h : w.Prepared i) {a : Authority K bits}
    {m : SmallMap K bits}
    (ha : a = .publisher i ∨ ∃ k n, a = .subject k n i false) (hm : (w.claim i a m).Mapped) :
    (w.claim i a m).Inv := by
  have habs := h.auth w.nextGen le_rfl
  have hslot : a.slot? = some i := by rcases ha with rfl | ⟨k, n, rfl⟩ <;> rfl
  have hcur : a.current? = some i := by rcases ha with rfl | ⟨k, n, rfl⟩ <;> rfl
  have htab : a.table? = none ∨ a.table? = some i := by
    rcases ha with rfl | ⟨k, n, rfl⟩
    · exact .inl rfl
    · exact .inr rfl
  have hof := claim_of m htab (by rw [h.held]; simp [handle, habs, Authority.table?])
  have hthere (x : Owner) (j : SlotId) (hx : (w.claim i a m).arcs.of x = some j) :
      j = i ∨ w.arcs.of x = some j := by
    rw [hof] at hx
    split at hx
    · cases hx
      exact .inl rfl
    · split at hx
      · rcases htab with ht | ht <;> rw [ht] at hx <;> cases hx
        exact .inl rfl
      · exact .inr hx
  refine ⟨?held, ?pinned, ⟨h.pooled.nodup, h.pooled.length, ?free⟩, hm, h.claim_borrowed m ha,
    ⟨?auth, h.obs, h.fut, h.futs, ?gen, ?slot⟩, ?safe⟩
  case held =>
    intro x
    rw [hof, claim_handle m hslot, h.held]
  case pinned =>
    intro x j g hp
    rw [claim_pin m hcur] at hp
    split at hp
    · cases hp
      exact h.gen
    · exact h.pinned x j g hp
  case free =>
    intro j hj x g hp
    rw [claim_pin m hcur] at hp
    split at hp
    · cases hp
      exact h.notPooled hj
    · exact h.pooled.free j hj x g hp
  case auth =>
    intro g hg
    have hlt : w.nextGen < g := hg
    simpa [World.claim, hlt.ne'] using h.auth g hlt.le
  case gen =>
    intro j
    show (w.slots j).gen < w.nextGen + 1
    by_cases hji : j = i
    · rw [hji, h.gen]
      exact Nat.lt_succ_self _
    · exact Nat.lt_succ_of_lt (h.genOther j hji)
  case slot =>
    intro j hj x hx
    rcases hthere x j hx with rfl | hold
    · exact absurd h.slot (not_lt.mpr hj)
    · exact h.slotOther j hj x hold
  case safe =>
    intro x j hx
    rcases hthere x j hx with rfl | hold
    · exact h.ready
    · exact h.safe x j hold

/-- Slot `i`, which nothing pins, is made ready as `s'`. -/
theorem Inv.prepare (h : w.Inv) {i : SlotId} {s' : SlotSys O W}
    (hfree : ∀ x g, w.pin x ≠ some (i, g)) (hready : s'.Safe w.env) (hgen : s'.gen = w.nextGen)
    (hthr : ∀ t, (s'.thr t).active = false) (hfpc : ∀ f, (s'.fpc f).active = false)
    (hfuts : s'.futs = ∅) (hcomp : s'.comp = .idle) {pool : List SlotId}
    {arcs : Lib.Handles Owner SlotId} {nextSlot : SlotId} {drops : List (Dropped W × Bool)}
    (hpool : pool.Sublist w.pool) (hi : i ∉ pool) (hlt : i < nextSlot)
    (hle : w.nextSlot ≤ nextSlot) (hsub : ∀ x j, arcs.of x = some j → w.arcs.of x = some j)
    (hheld : ∀ x, arcs.of x = handle { w with pool := pool } x) :
    ({ w with
      slots := Function.update w.slots i s', pool := pool, arcs := arcs, nextSlot := nextSlot
      drops := drops } : World K O W bits).Prepared i := by
  have hb := h.borrowed.setSlot (i := i) (s := s') w.env
    (fun t ht => by rw [hthr t] at ht; cases ht) (fun t ht => by rw [hthr t] at ht; cases ht)
    (fun f hf => by rw [hfpc f] at hf; cases hf) (fun f g hf => absurd (pin_fut hf) (hfree _ _))
    (fun f hf => by rw [hfuts] at hf; cases hf) (fun hc => by rw [hcomp] at hc; cases hc)
    (fun _ _ => hcomp)
  have hother (j : SlotId) (hj : j ≠ i) : Function.update w.slots i s' j = w.slots j :=
    Function.update_of_ne hj _ _
  refine
    { held := fun x => (hheld x).trans (by cases x <;> rfl)
      pinned := ?pinned
      pooled := ⟨h.pooled.nodup.sublist hpool, hpool.length_le.trans h.pooled.length,
        fun j hj x g hp => h.pooled.free j (hpool.mem hj) x g (by cases x <;> exact hp)⟩
      mapped := ⟨h.mapped.ok, h.mapped.find, h.mapped.entry⟩
      borrowed := ⟨hb.thr, hb.alone, hb.fut, hb.mem, hb.gone, hb.comp, hb.idle⟩
      auth := h.unused.auth
      obs := h.unused.obs
      fut := h.unused.fut
      futs := ?futs
      gen := by simpa using hgen
      genOther := ?genOther
      slot := hlt
      slotOther := fun j hj x hx => h.unused.slot j (hle.trans hj) x (hsub x j hx)
      safe := ?safe
      ready := by simpa using hready
      free := fun x g hp => hfree x g (by cases x <;> exact hp)
      notPooled := hi
      idle := by simpa using hcomp }
  case pinned =>
    intro x j g hp
    have hold : w.pin x = some (j, g) := by cases x <;> exact hp
    have hj : j ≠ i := by
      rintro rfl
      exact hfree x g hold
    simp only [hother j hj]
    exact h.pinned x j g hold
  case futs =>
    intro j f hf
    by_cases hj : j = i
    · subst hj
      simp [hfuts] at hf
    · simp only [hother j hj] at hf
      exact h.unused.futs j f hf
  case genOther =>
    intro j hj
    simp only [hother j hj]
    exact h.unused.gen j
  case safe =>
    intro x j hx
    by_cases hj : j = i
    · subst hj
      simpa using hready
    · simp only [hother j hj]
      exact h.safe x j (hsub x j hx)

theorem Inv.newSlot (h : w.Inv) : w.newSlot.Prepared w.nextSlot := by
  have hof := h.unused.slot w.nextSlot le_rfl
  refine h.prepare (fun x g hp => hof x ?_) (SlotSys.Safe.fresh w.env w.nextGen) rfl
    (fun _ => rfl) (fun _ => rfl) rfl rfl (List.Sublist.refl _) (fun hmem => ?_)
    (Nat.lt_succ_self _) (Nat.le_succ _) (fun _ _ => id) fun x => ?_
  · rw [h.held]
    exact handle_of_pin hp
  · refine hof (.pool w.nextSlot) ?_
    rw [h.held]
    exact if_pos hmem
  · exact (h.held x).trans (by cases x <;> rfl)

/-- No call is in flight on a pooled slot. -/
theorem Inv.quiescent (h : w.Inv) {i : SlotId} (hi : i ∈ w.pool) : (w.slots i).Quiescent where
  thr t := by
    by_contra hact
    exact h.pooled.free i hi _ _ (h.pin_thr (by simpa using hact))
  fut f := by
    by_contra hact
    obtain ⟨g, hg⟩ := h.borrowed.fut i f (by simpa using hact)
    exact h.pooled.free i hi _ _ (pin_fut hg)
  futs f hf := by
    rcases h.borrowed.gone i f hf with hd | ⟨g, hg⟩
    · exact hd
    · exact absurd (pin_fut hg) (h.pooled.free i hi _ _)
  comp := by
    by_contra hrest
    exact h.pooled.free i hi _ _ (h.pin_comp (by simpa using hrest))

theorem Inv.safe_of_pooled (h : w.Inv) {i : SlotId} (hi : i ∈ w.pool) : (w.slots i).Safe w.env := by
  refine h.safe (.pool i) i ?_
  rw [h.held]
  exact if_pos hi

/-- A pooled slot that is reset is ready for its next generation. -/
theorem Inv.recycleSlot (h : w.Inv) {i : SlotId} {rest : List SlotId} (hp : w.pool = i :: rest) :
    (w.recycleSlot i rest).Prepared i := by
  have hmem : i ∈ w.pool := by rw [hp]; exact List.mem_cons_self
  have hrest : i ∉ rest := (List.nodup_cons.mp (hp ▸ h.pooled.nodup)).1
  have hq := h.quiescent hmem
  have hlt : i < w.nextSlot := by
    by_contra hge
    refine h.unused.slot i (not_lt.mp hge) (.pool i) ?_
    rw [h.held]
    exact if_pos hmem
  refine h.prepare (h.pooled.free i hmem)
    ((h.safe_of_pooled hmem).recycle hq (h.unused.gen i)) rfl hq.thr hq.fut rfl rfl
    (by rw [hp]; exact List.sublist_cons_self _ _) hrest hlt le_rfl (fun x j hx => ?_) fun x => ?_
  · by_cases hxp : x = .pool i
    · simp [hxp] at hx
    · rwa [Lib.Handles.of_release_of_ne _ hxp] at hx
  · by_cases hxp : x = .pool i
    · simp [hxp, handle, hrest]
    · rw [Lib.Handles.of_release_of_ne _ hxp, h.held]
      cases x with
      | pool j =>
        have hj : j ≠ i := fun he => hxp (by rw [he])
        simp [handle, hp, hj]
      | _ => rfl

/-- The new entry is the new generation's; every other key keeps its own. -/
theorem Prepared.mapped_enter {i : SlotId} (h : w.Prepared i) {key : K} {n : BitVec bits}
    (hv : w.map.get key = none) : (w.enter key n i).Mapped := by
  have hclone : (Key.clone key == key) = true := Key.clone_beq key
  have hv' : w.map.get (Key.clone key) = none := by rw [w.map.get_congr hclone, hv]
  have habs := h.auth w.nextGen le_rfl
  have hget (k : K) : (w.enter key n i).map.get k =
      if Key.clone key == k then some ⟨n, i, w.nextGen⟩ else w.map.get k :=
    SmallMap.get_insertVacant h.mapped.ok hv' _ k
  refine ⟨h.mapped.ok.insertVacant hv' _, fun k e he => ?_, fun g k n' i' c ha => ?_⟩
  · rw [hget] at he
    split at he
    · rename_i hk
      cases he
      exact ⟨key, false, BEq.trans (BEq.symm hclone) hk, by simp [World.enter, World.claim]⟩
    · obtain ⟨k', c, hk, ha⟩ := h.mapped.find k e he
      have hne : e.gen ≠ w.nextGen := by
        intro he'
        rw [he', habs] at ha
        cases ha
      exact ⟨k', c, hk, by simpa [World.enter, World.claim, hne] using ha⟩
  · rw [hget]
    by_cases hg : g = w.nextGen
    · subst hg
      simp only [World.enter, World.claim, Function.update_self] at ha
      cases ha
      rw [if_pos hclone]
    · have ha' : w.auth g = .subject k n' i' c := by
        simpa [World.enter, World.claim, hg] using ha
      have hold := h.mapped.entry g k n' i' c ha'
      rw [if_neg, hold]
      intro hk
      rw [← w.map.get_congr hk, hv'] at hold
      cases hold

theorem Inv.nextGeneration (h : w.Inv) (n : BitVec bits) :
    ({ w with nextGeneration := n } : World K O W bits).Inv :=
  h.shrinks { Shrinks.refl w with } fun x => (h.held x).trans (by cases x <;> rfl)

/-- `subject` keeps the invariant, whatever it finds. -/
theorem Inv.subject (h : w.Inv) (key : K) : (w.subject key).1.Inv := by
  have hdraw : w.drawNumber.Inv := h.nextGeneration _
  have hcases := w.subject_cases key
  generalize w.subject key = r at hcases ⊢
  cases hcases with
  | conflict _ => exact h
  | exhausted _ _ => exact hdraw.dropPopped true
  | recycled hkey _ hpool =>
    have hprep := hdraw.recycleSlot hpool
    exact hprep.claim (.inr ⟨_, _, rfl⟩) (hprep.mapped_enter ((w.map.isVacant_iff key).mp hkey))
  | fresh hkey _ _ =>
    have hprep := hdraw.newSlot
    exact hprep.claim (.inr ⟨_, _, rfl⟩) (hprep.mapped_enter ((w.map.isVacant_iff key).mp hkey))

theorem Inv.observe (h : w.Inv) (key : K) : (w.observe key).1.Inv := by
  unfold World.observe
  split
  · rename_i e he
    obtain ⟨k', c, -, ha⟩ := h.mapped.find key e he
    exact h.newObs (y := .subject e.gen) (by simp [pin, ha, Authority.current?])
  · exact h

/-- A publisher on the slot that is ready. -/
theorem Prepared.claimPublisher {i : SlotId} (h : w.Prepared i) :
    (w.claim i (.publisher i) w.map).Inv := by
  refine h.claim (.inl rfl) ⟨h.mapped.ok, fun k e he => ?_, fun g k n i' c ha => ?_⟩
  · obtain ⟨k', c, hk, ha⟩ := h.mapped.find k e he
    have hne : e.gen ≠ w.nextGen := by
      intro hg
      rw [hg, h.auth _ le_rfl] at ha
      cases ha
    exact ⟨k', c, hk, by simpa [World.claim, hne] using ha⟩
  · refine h.mapped.entry g k n i' c ?_
    by_cases hg : g = w.nextGen
    · simp [World.claim, hg] at ha
    · simpa [World.claim, hg] using ha

/-- `pair()` before its observation. -/
theorem Inv.claimPublisher (h : w.Inv) :
    (w.newSlot.claim w.nextSlot (.publisher w.nextSlot) w.map).Inv :=
  h.newSlot.claimPublisher

theorem Inv.pair (h : w.Inv) : w.pair.Inv :=
  h.claimPublisher.newObs (y := .subject w.nextGen)
    (by simp [pin, World.claim, World.newSlot, Authority.current?])

end Making

/-! ## The section of `Subject::drop` -/

/-- The entry of generation `g` is gone, and its handle with it; `a` is left of the subject. -/
def detach (w : World K O W bits) (g : Gen) (a : Authority K bits) (m : SmallMap K bits)
    (locked : Bool) : World K O W bits :=
  { w with auth := Function.update w.auth g a, map := m }.release (.table g) locked

def unlist (w : World K O W bits) (g : Gen) (key : K) (generation : BitVec bits) (i : SlotId) :
    World K O W bits :=
  w.detach g (.retired i) (w.map.removeIf key generation).1 true

def pushPool (w : World K O W bits) (i : SlotId) : World K O W bits :=
  { w with arcs := w.arcs.grab (.pool i) i, pool := i :: w.pool }

section Retiring

variable [WillWake W]

/-- A `Subject` is in the table until it is dropped, so its drop always finds its entry. -/
theorem Inv.removeIf_subject (h : w.Inv) {g : Gen} {k : K} {n : BitVec bits} {i : SlotId}
    {c : Bool} (ha : w.auth g = .subject k n i c) : (w.map.removeIf k n).2 = true := by
  rw [SmallMap.removeIf_snd, h.mapped.entry g k n i c ha]
  simp

/-- `Subject::drop` removes its entry, and pools the slot when it is alone and there is room. -/
theorem Inv.retire_eq (h : w.Inv) {g : Gen} {k : K} {n : BitVec bits} {i : SlotId} {c : Bool}
    (ha : w.auth g = .subject k n i c) :
    w.retire g k n i =
      if (w.unlist g k n i).arcs.count i = 1 ∧ w.pool.length < slotPoolCap then
        (w.unlist g k n i).pushPool i
      else w.unlist g k n i := by
  unfold World.retire
  simp only [h.removeIf_subject ha, if_true, h.mapped.entry g k n i c ha]
  rfl

section Detach

variable (w) (g : Gen) (a : Authority K bits) (m : SmallMap K bits) (l : Bool)

omit [WillWake W]

theorem detach_of (x : Owner) :
    (w.detach g a m l).arcs.of x = if x = .table g then none else w.arcs.of x := by
  by_cases hx : x = .table g
  · simp [detach, hx]
  · rw [detach, release_arcs, Lib.Handles.of_release_of_ne _ hx, if_neg hx]

theorem detach_auth_self : (w.detach g a m l).auth g = a := by simp [World.detach]

variable {w g} in
theorem detach_auth_of_ne {g' : Gen} (hg : g' ≠ g) : (w.detach g a m l).auth g' = w.auth g' := by
  simp [World.detach, hg]

end Detach

section Detached

variable {g : Gen} {a : Authority K bits} {m : SmallMap K bits} {k : K} {n : BitVec bits}
  {i : SlotId} {c : Bool}

/-- The subject still has its handle, so its slot survives the loss of the entry. -/
theorem Inv.lastHandle_table (h : w.Inv) (ha : w.auth g = .subject k n i c) :
    w.lastHandle (.table g) = none := by
  cases hl : w.lastHandle (.table g) with
  | none => rfl
  | some j =>
    exfalso
    obtain ⟨htab, hnone⟩ := w.lastHandle_eq_some _ hl
    rw [h.held] at htab
    simp only [handle, ha, Authority.table?, Option.some.injEq] at htab
    subst htab
    refine hnone (.subject g) ?_
    rw [Lib.Handles.of_release_of_ne _ (by simp)]
    exact (h.held (.subject g)).trans (by simp [handle, ha, Authority.slot?])

/-- An entry that goes is never the last handle. -/
theorem Inv.detach_slots (h : w.Inv) (ha : w.auth g = .subject k n i c) (l : Bool) :
    (w.detach g a m l).slots = w.slots := by
  have hl : lastHandle { w with auth := Function.update w.auth g a, map := m } (.table g) = none :=
    h.lastHandle_table ha
  simp only [World.detach, World.release, hl]

/-- An entry that goes drops nothing. -/
theorem Inv.detach_drops (h : w.Inv) (ha : w.auth g = .subject k n i c) (l : Bool) :
    (w.detach g a m l).drops = w.drops := by
  have hl : lastHandle { w with auth := Function.update w.auth g a, map := m } (.table g) = none :=
    h.lastHandle_table ha
  simp only [World.detach, World.release, hl]

omit [WillWake W] in
/-- Without its entry the subject pins its slot as before, or no more. -/
theorem detach_pin (hd : (w.auth g).Detached w.slots a) (l : Bool) {x : Owner}
    {p : SlotId × Gen} (hp : (w.detach g a m l).pin x = some p) : w.pin x = some p := by
  cases x with
  | subject g' =>
    by_cases hg : g' = g
    · subst hg
      simp only [pin, detach_auth_self, Option.map_eq_some_iff] at hp ⊢
      obtain ⟨j, hj, rfl⟩ := hp
      exact ⟨j, hd.current hj, rfl⟩
    · simpa [pin, detach_auth_of_ne a m l hg] using hp
  | _ => exact hp

theorem Inv.detach_held (h : w.Inv) (hd : (w.auth g).Detached w.slots a) (l : Bool) (x : Owner) :
    (w.detach g a m l).arcs.of x = (w.detach g a m l).handle x := by
  rw [detach_of]
  cases x with
  | table g' =>
    by_cases hg : g' = g
    · subst hg
      simp [handle, detach_auth_self, hd.table]
    · rw [if_neg (by simpa using hg), h.held]
      simp [handle, detach_auth_of_ne a m l hg]
  | subject g' =>
    rw [if_neg (by simp), h.held]
    by_cases hg : g' = g
    · subst hg
      simp [handle, detach_auth_self, hd.slot]
    · simp [handle, detach_auth_of_ne a m l hg]
  | _ => exact (if_neg (by simp)).trans (h.held _)

/-- The table without the entry is the map of the subjects that are left. -/
theorem Inv.detach_mapped (h : w.Inv) (ha : w.auth g = .subject k n i c)
    (hd : (w.auth g).Detached w.slots a) (hm : w.map.Without m k) (l : Bool) :
    (w.detach g a m l).Mapped := by
  refine ⟨hm.ok, ?find, ?entry⟩
  case find =>
    intro k' e he
    have hget : m.get k' = some e := he
    rw [hm.get] at hget
    split at hget
    · cases hget
    · rename_i hk
      obtain ⟨k₀, c₀, hk₀, hold⟩ := h.mapped.find k' e hget
      have hne : e.gen ≠ g := by
        intro hg
        rw [hg, ha] at hold
        cases hold
        exact hk hk₀
      exact ⟨k₀, c₀, hk₀, by rw [detach_auth_of_ne a m l hne]; exact hold⟩
  case entry =>
    intro g' k' n' i' c' ha'
    have hg : g' ≠ g := by
      rintro rfl
      rw [detach_auth_self] at ha'
      have htab := hd.table
      rw [ha'] at htab
      cases htab
    rw [detach_auth_of_ne a m l hg] at ha'
    have hold := h.mapped.entry g' k' n' i' c' ha'
    show m.get k' = _
    rw [hm.get, if_neg, hold]
    -- a second subject of the same key would have the entry of this one
    intro hk
    rw [← w.map.get_congr hk, h.mapped.entry g k n i c ha] at hold
    cases hold
    exact hg rfl

/-- Calls in flight do not borrow from an entry. -/
theorem Inv.detach_borrowed (h : w.Inv) (ha : w.auth g = .subject k n i c)
    (hd : (w.auth g).Detached w.slots a) (l : Bool) : (w.detach g a m l).Borrowed := by
  have hslots : (w.detach g a m l).slots = w.slots := h.detach_slots ha l
  have hcomp (j : SlotId) (hj : (w.slots j).comp.resting = false) :
      (w.detach g a m l).auth (w.slots j).gen = .publishing j ∨
        ∃ k n, (w.detach g a m l).auth (w.slots j).gen = .subject k n j true := by
    by_cases hg : (w.slots j).gen = g
    · -- a subject that completes goes on as a publisher that does
      rw [hg, detach_auth_self]
      rcases h.borrowed.comp j hj with hc | ⟨k', n', hc⟩ <;> rw [hg] at hc <;> rw [hc] at hd
      · cases hd
      · cases hd with
        | retired hrest | releasing hrest =>
          rw [hj] at hrest
          cases hrest
        | publishing => exact .inl rfl
    · rw [detach_auth_of_ne a m l hg]
      exact h.borrowed.comp j hj
  have hb := h.borrowed
  refine ⟨?_, ?_, ?_, ?_, ?_, ?_, ?_⟩
  all_goals rw [hslots]
  · exact hb.thr
  · exact hb.alone
  · exact hb.fut
  · exact hb.mem
  · exact hb.gone
  · exact hcomp
  · intro g' j hg'
    by_cases hg : g' = g
    · rw [hg, detach_auth_self] at hg'
      generalize hag : w.auth g = a' at hd
      rcases hg' with rfl | ⟨k', n', rfl⟩ <;> cases hd
      exact hb.idle g j (.inr ⟨_, _, hag⟩)
    · rw [detach_auth_of_ne a m l hg] at hg'
      exact hb.idle g' j hg'

/-- A subject loses its entry. -/
theorem Inv.detach (h : w.Inv) (ha : w.auth g = .subject k n i c)
    (hd : (w.auth g).Detached w.slots a) (hm : w.map.Without m k) (l : Bool) :
    (w.detach g a m l).Inv := by
  have hslots : (w.detach g a m l).slots = w.slots := h.detach_slots ha l
  have hspreads : w.Spreads (w.detach g a m l) := by
    refine ⟨rfl, List.Sublist.refl _, ?arcs, fun x j g' hp => ⟨x, detach_pin hd l hp⟩,
      fun j => by rw [hslots]⟩
    intro x j hx
    rw [detach_of] at hx
    split at hx
    · cases hx
    · exact ⟨x, hx⟩
  refine h.spreads hspreads (h.detach_held hd l) (h.detach_mapped ha hd hm l)
    (h.detach_borrowed ha hd l) rfl ?auth h.unused.obs h.unused.fut ?futs ?safe
  case auth =>
    intro g' habs
    have hg : g' ≠ g := by
      rintro rfl
      rw [ha] at habs
      cases habs
    rw [detach_auth_of_ne a m l hg]
    exact habs
  case futs =>
    rw [hslots]
    exact h.unused.futs
  case safe =>
    rintro j hsafe -
    rw [hslots]
    exact hsafe

omit [WillWake W] in
theorem unlist_of (w : World K O W bits) (g : Gen) (k : K) (n : BitVec bits) (i : SlotId)
    (x : Owner) : (w.unlist g k n i).arcs.of x = if x = .table g then none else w.arcs.of x :=
  detach_of ..

theorem Inv.unlist_slots (h : w.Inv) (ha : w.auth g = .subject k n i c) :
    (w.unlist g k n i).slots = w.slots :=
  h.detach_slots ha true

/-- A subject whose entry is gone keeps the invariant. -/
theorem Inv.unlist (h : w.Inv) (ha : w.auth g = .subject k n i c)
    (hrest : (w.slots i).comp.resting = true) : (w.unlist g k n i).Inv :=
  h.detach ha (ha ▸ .retired hrest) (h.mapped.ok.without_removeIf (h.removeIf_subject ha)) true

end Detached

section PushPool

omit [WillWake W]

theorem pushPool_of (w : World K O W bits) (i : SlotId) (x : Owner) :
    (w.pushPool i).arcs.of x = if x = .pool i then some i else w.arcs.of x := by
  by_cases hx : x = .pool i
  · simp [World.pushPool, hx]
  · rw [World.pushPool, Lib.Handles.of_grab_of_ne _ hx, if_neg hx]

theorem pushPool_pin (w : World K O W bits) (i : SlotId) (x : Owner) :
    (w.pushPool i).pin x = w.pin x := by
  cases x <;> rfl

theorem pushPool_handle (w : World K O W bits) (i : SlotId) (x : Owner) :
    (w.pushPool i).handle x = if x = .pool i then some i else w.handle x := by
  cases x with
  | pool j => by_cases hj : j = i <;> simp [World.pushPool, handle, hj]
  | _ => rfl

end PushPool

/-- A slot that only its retired `Subject` holds may be pooled. -/
theorem Inv.pushPool (h : w.Inv) {g : Gen} {i : SlotId} (hslot : (w.auth g).slot? = some i)
    (hcur : (w.auth g).current? = none) (hone : w.arcs.count i = 1)
    (hlen : w.pool.length < slotPoolCap) : (w.pushPool i).Inv := by
  have hsubject : w.arcs.of (.subject g) = some i := by
    rw [h.held]
    exact hslot
  have hsole := (Lib.Handles.count_eq_one_iff _ hsubject).mp hone
  have hnot : i ∉ w.pool := by
    intro hmem
    have hpool := hsole (.pool i) (by rw [h.held]; exact if_pos hmem)
    cases hpool
  have hfree (x : Owner) (g' : Gen) : w.pin x ≠ some (i, g') := by
    intro hp
    have hx := hsole x (by rw [h.held]; exact handle_of_pin hp)
    subst hx
    simp [pin, hcur] at hp
  -- the pool's handle is on the slot that the `Subject` still has
  have hthere (x : Owner) (j : SlotId) (hx : (w.pushPool i).arcs.of x = some j) :
      ∃ y, w.arcs.of y = some j := by
    rw [pushPool_of] at hx
    split at hx
    · cases hx
      exact ⟨_, hsubject⟩
    · exact ⟨x, hx⟩
  have hunused := h.unused
  have hb := h.borrowed
  refine ⟨?held, ?pinned, ⟨List.nodup_cons.mpr ⟨hnot, h.pooled.nodup⟩, hlen, ?free⟩,
    ⟨h.mapped.ok, h.mapped.find, h.mapped.entry⟩,
    ⟨hb.thr, hb.alone, hb.fut, hb.mem, hb.gone, hb.comp, hb.idle⟩,
    ⟨hunused.auth, hunused.obs, hunused.fut, hunused.futs, hunused.gen, ?slot⟩, ?safe⟩
  case held =>
    intro x
    rw [pushPool_of, pushPool_handle, h.held]
  case pinned =>
    intro x j g' hp
    rw [pushPool_pin] at hp
    exact h.pinned x j g' hp
  case free =>
    intro j hj x g' hp
    rw [pushPool_pin] at hp
    rcases List.mem_cons.mp hj with rfl | hmem
    · exact hfree x g' hp
    · exact h.pooled.free j hmem x g' hp
  case slot =>
    intro j hj x hx
    obtain ⟨y, hy⟩ := hthere x j hx
    exact hunused.slot j hj y hy
  case safe =>
    intro x j hx
    obtain ⟨y, hy⟩ := hthere x j hx
    exact h.safe y j hy

/-- `Subject::drop` keeps the invariant. -/
theorem Inv.retire (h : w.Inv) {g : Gen} {k : K} {n : BitVec bits} {i : SlotId} {c : Bool}
    (ha : w.auth g = .subject k n i c) (hrest : (w.slots i).comp.resting = true) :
    (w.retire g k n i).Inv := by
  have hunlist := h.unlist ha hrest
  rw [h.retire_eq ha]
  split
  · rename_i hpush
    have hauth : (w.unlist g k n i).auth g = .retired i := detach_auth_self ..
    exact hunlist.pushPool (by rw [hauth]; rfl) (by rw [hauth]; rfl) hpush.1 hpush.2
  · exact hunlist

end Retiring

/-! ## All steps -/

section All

variable [WillWake W]

/-- Time and tokens may change while no thread in a call loses its token. -/
theorem Inv.env (h : w.Inv) {e' : Env}
    (htok : ∀ t, ¬ w.Idle t → w.env.token t = true → e'.token t = true) :
    ({ w with env := e' } : World K O W bits).Inv :=
  ⟨fun x => (h.held x).trans (by cases x <;> rfl),
    fun x i g hp => h.pinned x i g (by cases x <;> exact hp),
    ⟨h.pooled.nodup, h.pooled.length, fun i hi x g hp => h.pooled.free i hi x g
      (by cases x <;> exact hp)⟩,
    ⟨h.mapped.ok, h.mapped.find, h.mapped.entry⟩,
    ⟨h.borrowed.thr, h.borrowed.alone, h.borrowed.fut, h.borrowed.mem, h.borrowed.gone,
      h.borrowed.comp, h.borrowed.idle⟩,
    ⟨h.unused.auth, h.unused.obs, h.unused.fut, h.unused.futs, h.unused.gen, h.unused.slot⟩,
    fun x i hx => (h.safe x i hx).env fun t hact => htok t fun hidle => by
      rw [hidle i] at hact
      cases hact⟩

theorem Inv.spaces (h : w.Inv) (n : Nat) : ({ w with spaces := n } : World K O W bits).Inv :=
  h.shrinks { Shrinks.refl w with } fun x => (h.held x).trans (by cases x <;> rfl)

/-- **Every step of the program keeps the invariant.** -/
theorem Inv.step (h : w.Inv) (hs : Step w w') : w'.Inv := by
  cases hs with
  | subject key => exact h.subject key
  | unwind => exact h.dropPopped true
  | observe key => exact h.observe key
  | cloneSpace => exact h.spaces _
  | dropSpace => exact h.spaces _
  | dropPooled => exact h.dropPopped false
  | @complete g k n i v ha =>
    have hset := h.setCompleted (g := g) (a := .subject k n i true) (ha ▸ .subject)
    exact hset.startComplete (.inr ⟨k, n, by simp⟩) (h.borrowed.idle g i (.inr ⟨k, n, ha⟩)) v
  | retire ha hrest => exact h.retire ha hrest
  | releaseInner ha => exact h.releaseInner ha
  | releaseSubject ha => exact h.releaseSubject ha false
  | pair => exact h.pair
  | @publish g i v ha =>
    have hset := h.setCompleted (g := g) (a := .publishing i) (ha ▸ .publisher)
    exact hset.startComplete (.inl (by simp)) (h.borrowed.idle g i (.inl ha)) v
  | published ha hrest => exact h.published (.inl ⟨ha, hrest⟩)
  | dropPublisher ha => exact h.published (.inr ha)
  | cloneObs ho => exact h.newObs (pin_obs ho)
  | call t c ho hidle => exact h.call t c ho hidle
  | callStep i hs => exact h.callStep hs
  | intoFuture ho hb => exact h.intoFuture ho hb
  | poll wk hf hrest => exact h.poll hf hrest wk
  | cancel hf hrest => exact h.cancel hf hrest
  | releaseFuture hf hdead => exact h.releaseFuture hf hdead
  | @dropObs o i g ho hb =>
    exact h.dropObs (by rw [ho]; rfl) hb rfl
  | intoOutcome ho hb => exact h.intoOutcome ho hb
  | dropRefused ho => exact h.dropRefused ho
  | unpark t =>
    refine h.env fun u _ hu => ?_
    by_cases hut : u = t
    · simp [hut]
    · simpa [hut] using hu
  | park t hidle =>
    refine h.env fun u hact hu => ?_
    have hut : u ≠ t := by
      rintro rfl
      exact hact hidle
    simpa [hut] using hu
  | tick n => exact h.env fun _ _ => id

theorem Inv.new (e : Env) : (World.new e : World K O W bits).Inv := by
  refine ⟨fun x => ?_, fun x i g hp => ?_, ⟨List.nodup_nil, Nat.zero_le _, by rintro _ ⟨⟩⟩,
    ⟨SmallMap.ok_empty, by rintro _ _ ⟨⟩, by rintro _ _ _ _ _ ⟨⟩⟩,
    ⟨by rintro _ _ ⟨⟩, by rintro _ _ _ ⟨⟩, by rintro _ _ ⟨⟩, by rintro _ _ _ ⟨⟩,
      by rintro _ _ ⟨⟩, by rintro _ ⟨⟩, fun _ _ _ => rfl⟩,
    ⟨fun _ _ => rfl, fun _ _ => rfl, fun _ _ => rfl, by rintro _ _ ⟨⟩,
      fun _ => Nat.zero_lt_one, by rintro _ _ _ ⟨⟩⟩, by rintro _ _ ⟨⟩⟩
  · cases x <;> rfl
  · cases x <;> cases hp

end All

end Observe.World
