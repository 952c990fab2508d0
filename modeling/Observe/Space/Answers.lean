import Observe.Space.History

/-!
# Where an outcome leaves the program

What `into_outcome` has returned, and what the crate has destroyed: every move of a value out of
its cell is the answer of one observation, and every destruction is one run of the destructor.
-/

namespace Observe

variable {K O W : Type} [Key K] {bits : Nat} {w w' : World K O W bits}

/-! ## What outlives a generation -/

/-- A part of a slot's history that only a call in flight or an exclusive take changes. -/
structure SlotSys.Lasting {α : Type} (φ : SlotSys O W → α) : Prop where
  fresh : ∀ s g, φ (s.fresh g) = φ s
  recycle : ∀ s g, φ (s.recycle g) = φ s
  finalDrop : ∀ s, φ s.finalDrop = φ s
  call : ∀ s t h c, φ (s.startCall t h c) = φ s
  newFuture : ∀ s f g, φ (s.newFuture f g) = φ s
  poll : ∀ s f wk, φ (s.startPoll f wk) = φ s
  cancel : ∀ s f, φ (s.startCancel f) = φ s
  complete : ∀ s g v, φ (s.startComplete g v) = φ s

theorem SlotSys.Lasting.published : Lasting (fun s : SlotSys O W => s.published) where
  fresh _ _ := rfl
  recycle _ _ := rfl
  finalDrop _ := rfl
  call _ _ _ _ := rfl
  newFuture _ _ _ := rfl
  poll _ _ _ := rfl
  cancel s f := by
    unfold SlotSys.startCancel
    split <;> rfl
  complete _ _ _ := rfl

theorem SlotSys.Lasting.moved : Lasting (fun s : SlotSys O W => s.moved) where
  fresh _ _ := rfl
  recycle _ _ := rfl
  finalDrop _ := rfl
  call _ _ _ _ := rfl
  newFuture _ _ _ := rfl
  poll _ _ _ := rfl
  cancel s f := by
    unfold SlotSys.startCancel
    split <;> rfl
  complete _ _ _ := rfl

namespace World

section Lasting

variable {α : Type} {φ : SlotSys O W → α}

theorem update_lasting (φ : SlotSys O W → α) {j : SlotId} {s : SlotSys O W}
    (hs : φ s = φ (w.slots j)) (i : SlotId) :
    φ (Function.update w.slots j s i) = φ (w.slots i) := by
  by_cases hij : i = j
  · subst hij
    rw [Function.update_self, hs]
  · rw [Function.update_of_ne hij]

/-- A release keeps what only a call or an exclusive take changes. -/
theorem release_lasting (hφ : SlotSys.Lasting φ) (v : World K O W bits) (x : Owner) (l : Bool)
    (j : SlotId) : φ ((v.release x l).slots j) = φ (v.slots j) := by
  rcases v.release_slots x l j with h | ⟨-, -, h⟩ <;> rw [h]
  exact hφ.finalDrop _

/-- The drop of a popped slot keeps what only a call or an exclusive take changes. -/
theorem dropPopped_lasting (hφ : SlotSys.Lasting φ) (v : World K O W bits) (l : Bool)
    (j : SlotId) : φ ((v.dropPopped l).slots j) = φ (v.slots j) := by
  unfold World.dropPopped
  split
  · rfl
  · exact release_lasting hφ _ _ _ j

variable [WillWake W]

/-- The lasting parts of every slot stay, except in a step of a call in flight and in an
`into_outcome` that gets the slot. -/
theorem Inv.lasting_step (h : w.Inv) (hh : w.History) (hφ : SlotSys.Lasting φ)
    (hs : Step w w') :
    (∀ i, φ (w'.slots i) = φ (w.slots i)) ∨
      (∃ i e' s', CallStep w.env (w.slots i) e' s' ∧ w' = { w.setSlot i s' with env := e' }) ∨
      ∃ o i g, w.obs o = .live i g ∧ w.arcs.count i = 1 ∧ w' = w.unwrapSlot o i g := by
  have hnew (g : Gen) : φ (SlotSys.blank.fresh g) = φ (w.slots w.nextSlot) := by
    rw [hh.unmade w.nextSlot le_rfl, hφ.fresh]
  cases hs with
  | callStep i h => exact .inr (.inl ⟨i, _, _, h, rfl⟩)
  | subject key =>
    left
    have hcases := w.subject_cases key
    generalize w.subject key = r at hcases ⊢
    cases hcases with
    | conflict _ => exact fun i => rfl
    | exhausted _ _ => exact dropPopped_lasting hφ w.drawNumber true
    | recycled _ _ _ => exact update_lasting φ (hφ.recycle _ _)
    | fresh _ _ _ => exact update_lasting φ (hnew _)
  | unwind => exact .inl (dropPopped_lasting hφ w true)
  | observe key =>
    left
    intro i
    unfold World.observe
    split <;> rfl
  | dropPooled => exact .inl (dropPopped_lasting hφ w false)
  | complete v ha => exact .inl (update_lasting φ (hφ.complete _ _ _))
  | @retire g k n j c ha hrest =>
    left
    intro i
    rw [h.retire_eq ha]
    split
    · show φ ((w.unlist g k n j).slots i) = _
      rw [h.unlist_slots ha]
    · rw [h.unlist_slots ha]
  | releaseSubject ha => exact .inl (release_lasting hφ _ _ _)
  | pair => exact .inl (update_lasting φ (hnew _))
  | publish v ha => exact .inl (update_lasting φ (hφ.complete _ _ _))
  | call t c ho hidle => exact .inl (update_lasting φ (hφ.call _ _ _ _))
  | intoFuture ho hb => exact .inl (update_lasting φ (hφ.newFuture _ _ _))
  | poll wk hf hrest => exact .inl (update_lasting φ (hφ.poll _ _ _))
  | cancel hf hrest => exact .inl (update_lasting φ (hφ.cancel _ _))
  | releaseFuture hf hdead => exact .inl (release_lasting hφ _ _ _)
  | dropObs ho hb => exact .inl (release_lasting hφ _ _ _)
  | @intoOutcome o i g ho hb =>
    unfold World.intoOutcome
    split
    · rename_i hone
      exact .inr (.inr ⟨o, i, g, ho, hone, rfl⟩)
    · exact .inl fun i => rfl
  | dropRefused ho => exact .inl (release_lasting hφ _ _ _)
  | _ => exact .inl fun i => rfl

end Lasting

/-! ## What `into_outcome` returns -/

/-- `into_outcome` has consumed the observation `o` of generation `g`, and has returned `v`. -/
def Took (w : World K O W bits) (o : ObsId) (g : Gen) (v : O) : Prop :=
  w.obs o = .gone g (some (some v))

/-- An observation that has not taken an outcome before or behind the step has taken none by it. -/
theorem took_update {o : ObsId} {a : ObsState O} (hobs : w'.obs = Function.update w.obs o a)
    (hold : ∀ g v, w.obs o ≠ .gone g (some (some v))) (hnew : ∀ g v, a ≠ .gone g (some (some v)))
    (o' : ObsId) (g : Gen) (v : O) : w'.Took o' g v ↔ w.Took o' g v := by
  unfold Took
  rw [hobs]
  by_cases ho : o' = o
  · subst ho
    rw [Function.update_self]
    exact iff_of_false (hnew g v) (hold g v)
  · rw [Function.update_of_ne ho]

section

variable [WillWake W]

/-- No other step answers an `into_outcome` with a value. -/
theorem Inv.took_step (h : w.Inv) (hs : Step w w') :
    (∀ o g v, w'.Took o g v ↔ w.Took o g v) ∨
      ∃ o i g, w.obs o = .live i g ∧ w.arcs.count i = 1 ∧ w' = w.unwrapSlot o i g := by
  have hnew (v : World K O W bits) (i : SlotId) (g : Gen) (hv : v.obs = w.obs)
      (hn : v.nextObs = w.nextObs) (o : ObsId) (g' : Gen) (a : O) :
      (v.newObs i g).Took o g' a ↔ w.Took o g' a := by
    refine took_update (o := w.nextObs) (a := .live i g) ?_ ?_ (by simp) o g' a
    · rw [← hn, ← hv]
      rfl
    · rw [h.unused.obs _ le_rfl]
      simp
  cases hs with
  | subject key =>
    left
    have hcases := w.subject_cases key
    generalize w.subject key = r at hcases ⊢
    cases hcases with
    | exhausted _ _ =>
      intro o g v
      show (w.drawNumber.dropPopped true).obs o = _ ↔ _
      unfold World.dropPopped
      split <;> exact Iff.rfl
    | _ => exact fun _ _ _ => Iff.rfl
  | unwind | dropPooled =>
    left
    intro o g v
    unfold Took World.dropPopped
    split <;> exact Iff.rfl
  | observe key =>
    left
    unfold World.observe
    split
    · exact hnew w _ _ rfl rfl
    · exact fun _ _ _ => Iff.rfl
  | retire ha hrest =>
    left
    rw [h.retire_eq ha]
    split <;> exact fun _ _ _ => Iff.rfl
  | pair => exact .inl (hnew (w.newSlot.claim _ _ _) _ _ rfl rfl)
  | cloneObs ho => exact .inl (hnew w _ _ rfl rfl)
  | intoFuture ho hb | dropObs ho hb | dropRefused ho =>
    exact .inl (took_update rfl (by simp [ho]) (by simp))
  | @intoOutcome o i g ho hb =>
    unfold World.intoOutcome
    split
    · rename_i hone
      exact .inr ⟨o, i, g, ho, hone, rfl⟩
    · exact .inl (took_update rfl (by simp [ho]) (by simp))
  | _ => exact .inl fun _ _ _ => Iff.rfl

omit [WillWake W] in
theorem published_unwrapSlot (w : World K O W bits) (o : ObsId) (i : SlotId) (g : Gen)
    (j : SlotId) : ((w.unwrapSlot o i g).slots j).published = (w.slots j).published := by
  refine update_lasting SlotSys.published ?_ j
  unfold World.takenSlot
  split <;> rfl

/-- The exclusive take: the value of the observation's own generation, once it is published. -/
theorem Inv.takenSlot_cases (h : w.Inv) {o : ObsId} {i : SlotId} {g : Gen}
    (ho : w.obs o = .live i g) :
    (w.unwrapped i = none ∧ w.takenSlot i = w.slots i) ∨
      ∃ v, (w.slots i).published g = some v ∧ w.unwrapped i = some v ∧
        w.takenSlot i = (w.slots i).takeOutcome ∧
        (w.takenSlot i).moved = g :: (w.slots i).moved := by
  cases hc : (w.slots i).slot.state.completed with
  | false => exact .inl ⟨by simp [World.unwrapped, hc], by simp [World.takenSlot, hc]⟩
  | true =>
    obtain ⟨v, hcell, hpub⟩ := (h.safe_of_pin (pin_obs ho)).wf.published.live hc
    rw [h.pinned _ _ _ (pin_obs ho)] at hcell hpub
    exact .inr ⟨v, hpub, by simp [World.unwrapped, hc, hcell], by simp [World.takenSlot, hc],
      by simp [World.takenSlot, hc, SlotSys.takeOutcome, hcell]⟩

end

end World

/-! ## What the crate destroys -/

def Dropped.outcome? : Dropped W → Option Gen
  | .outcome g => some g
  | .waker _ => none

namespace World

def destroyed (w : World K O W bits) : List Gen := w.drops.filterMap fun d => d.1.outcome?

end World

namespace Slot

theorem filterMap_waker (ws : List W) : (ws.map Dropped.waker).filterMap Dropped.outcome? = [] :=
  List.filterMap_eq_nil_iff.mpr (by simp [Dropped.outcome?])

theorem filterMap_outcome (gs : List Gen) :
    (gs.map (Dropped.outcome (W := W))).filterMap Dropped.outcome? = gs := by
  rw [List.filterMap_map]
  exact List.filterMap_some

/-- The final drop runs the destructor on what the slot then destroys. -/
theorem outcomes_finalDrops (s : Slot O W) :
    s.finalDrops.filterMap Dropped.outcome? = s.destroys := by
  rw [finalDrops, List.filterMap_append, filterMap_waker, filterMap_outcome, List.append_nil]

/-- A reset runs the destructor on what the slot then destroys. -/
theorem outcomes_resetDrops (s : Slot O W) :
    s.resetDrops.filterMap Dropped.outcome? = s.destroys := by
  rw [resetDrops, List.filterMap_append, filterMap_outcome]
  split
  · rw [filterMap_waker, List.append_nil]
  · exact List.append_nil _

end Slot

namespace World

/-- What is dropped is added to what has been destroyed. -/
theorem destroyed_append {ds : List (Dropped W)} {l : Bool}
    (hd : w'.drops = ds.map (·, l) ++ w.drops) :
    w'.destroyed = ds.filterMap Dropped.outcome? ++ w.destroyed := by
  rw [World.destroyed, hd, List.filterMap_append, List.filterMap_map]
  rfl

/-- What one slot is said to destroy is what the destructor has run on. -/
def Destroys (w w' : World K O W bits) : Prop :=
  ∃ i ds, (w'.slots i).destroyed = ds ++ (w.slots i).destroyed ∧
    (∀ j, j ≠ i → (w'.slots j).destroyed = (w.slots j).destroyed) ∧
      w'.destroyed = ds ++ w.destroyed

namespace Destroys

theorem of_same (hs : ∀ i, (w'.slots i).destroyed = (w.slots i).destroyed)
    (hd : w'.drops = w.drops) : Destroys w w' :=
  ⟨0, [], hs 0, fun j _ => hs j, by rw [World.destroyed, hd]; rfl⟩

theorem of_update {j : SlotId} {s : SlotSys O W}
    (hs : w'.slots = Function.update w.slots j s) (hd : s.destroyed = (w.slots j).destroyed)
    (hdrops : w'.drops = w.drops) : Destroys w w' :=
  .of_same (fun i => by rw [hs]; exact update_lasting SlotSys.destroyed hd i) hdrops

/-- A release that is the last one destroys what its slot does. -/
theorem release {v : World K O W bits} (x : Owner) (l : Bool) (hs : v.slots = w.slots)
    (hd : v.drops = w.drops) : Destroys w (v.release x l) := by
  cases hl : v.lastHandle x with
  | none => exact .of_same (fun i => by simp [World.release, hl, hs]) (by simp [World.release, hl, hd])
  | some i =>
    refine ⟨i, (w.slots i).slot.destroys, ?_, fun j hj => ?_, ?_⟩
    · simp [World.release, hl, hs, SlotSys.finalDrop]
    · simp [World.release, hl, hs, hj]
    · rw [← Slot.outcomes_finalDrops]
      exact destroyed_append (l := l) (by simp [World.release, hl, hs, hd])

/-- The drop of a popped slot that is the last one destroys what its slot does. -/
theorem dropPopped {v : World K O W bits} (l : Bool) (hs : v.slots = w.slots)
    (hd : v.drops = w.drops) : Destroys w (v.dropPopped l) := by
  unfold World.dropPopped
  split
  · exact .of_same (fun i => by rw [hs]) hd
  · exact .release _ l hs hd

/-- The drop behind an exclusive take destroys what the slot has left. -/
theorem unwrapSlot (w : World K O W bits) (o : ObsId) (i : SlotId) (g : Gen) :
    Destroys w (w.unwrapSlot o i g) := by
  have htaken : (w.takenSlot i).destroyed = (w.slots i).destroyed := by
    unfold World.takenSlot
    split <;> rfl
  refine ⟨i, (w.takenSlot i).slot.destroys, ?_, fun j hj => ?_, ?_⟩
  · simp [World.unwrapSlot, SlotSys.finalDrop, htaken]
  · simp [World.unwrapSlot, hj]
  · rw [← Slot.outcomes_finalDrops]
    exact destroyed_append rfl

end Destroys

/-- In every step the destructor runs on what the slots are said to destroy. -/
theorem Inv.destroys [WillWake W] (h : w.Inv) (hh : w.History) (hs : Step w w') :
    Destroys w w' := by
  have hnew (g : Gen) : (SlotSys.blank.fresh g : SlotSys O W).destroyed =
      (w.slots w.nextSlot).destroyed := by
    rw [hh.unmade w.nextSlot le_rfl]
    rfl
  cases hs with
  | subject key =>
    have hcases := w.subject_cases key
    generalize w.subject key = r at hcases ⊢
    cases hcases with
    | conflict _ => exact .of_same (fun _ => rfl) rfl
    | exhausted _ _ => exact .dropPopped (v := w.drawNumber) true rfl rfl
    | @recycled i rest _ _ _ =>
      refine ⟨i, (w.slots i).slot.destroys, ?_, fun j hj => ?_, ?_⟩
      · exact congrArg SlotSys.destroyed (Function.update_self i _ w.slots)
      · exact congrArg SlotSys.destroyed (Function.update_of_ne hj _ w.slots)
      · rw [← Slot.outcomes_resetDrops]
        exact destroyed_append rfl
    | fresh _ _ _ => exact .of_update (j := w.nextSlot) rfl (hnew _) rfl
  | unwind => exact .dropPopped true rfl rfl
  | observe key =>
    unfold World.observe
    split <;> exact .of_same (fun _ => rfl) rfl
  | dropPooled => exact .dropPopped false rfl rfl
  | complete v ha | publish v ha => exact .of_update rfl rfl rfl
  | @retire g k n i c ha hrest =>
    have hunlist : Destroys w (w.unlist g k n i) := .release _ true rfl rfl
    rw [h.retire_eq ha]
    split
    · exact hunlist
    · exact hunlist
  | releaseSubject ha => exact .release _ _ rfl rfl
  | pair => exact .of_update (j := w.nextSlot) rfl (hnew _) rfl
  | call t c ho hidle => exact .of_update rfl rfl rfl
  | callStep i hc =>
    refine .of_update rfl ?_ rfl
    cases hc with
    | thread t hc => exact hc.frame.destroyed
    | future f he hc => exact hc.frame.destroyed
    | complete hc => exact hc.frame.destroyed
  | intoFuture ho hb => exact .of_update rfl rfl rfl
  | poll wk hf hrest => exact .of_update rfl rfl rfl
  | cancel hf hrest =>
    refine .of_update rfl ?_ rfl
    unfold SlotSys.startCancel
    split <;> rfl
  | releaseFuture hf hdead => exact .release _ _ rfl rfl
  | dropObs ho hb => exact .release _ _ rfl rfl
  | @intoOutcome o i g ho hb =>
    unfold World.intoOutcome
    split
    · exact .unwrapSlot w o i g
    · exact .of_same (fun _ => rfl) rfl
  | dropRefused ho => exact .release _ _ rfl rfl
  | _ => exact .of_same (fun _ => rfl) rfl

/-! ## The invariant -/

/-- The answers account for the moves, and the runs of the destructor for the destructions. -/
structure Answers (w : World K O W bits) : Prop where
  value : ∀ o g v, w.Took o g v → ∃ i, (w.slots i).published g = some v ∧ g ∈ (w.slots i).moved
  taker : ∀ i, ∀ g ∈ (w.slots i).moved, ∃ o v, w.Took o g v
  sole : ∀ o o' g v v', w.Took o g v → w.Took o' g v' → o' = o
  nodup : w.destroyed.Nodup
  destroyed : ∀ g, g ∈ w.destroyed ↔ ∃ i, g ∈ (w.slots i).destroyed

/-- What has left its cell was published there. -/
theorem History.published_of_left (hh : w.History) {i : SlotId} {g : Gen}
    (hg : g ∈ (w.slots i).moved ∨ g ∈ (w.slots i).destroyed) : (w.slots i).published g ≠ none := by
  intro hnone
  have hset := (hh.past i).settled g
  rw [hnone] at hset
  have hzero : (w.slots i).moved.count g = 0 ∧ (w.slots i).destroyed.count g = 0 := by
    have hset' : _ + _ + _ = 0 := hset
    omega
  rcases hg with hg | hg
  · exact List.count_eq_zero.mp hzero.1 hg
  · exact List.count_eq_zero.mp hzero.2 hg

/-- A value leaves its cell once. -/
theorem History.left_le_one (hh : w.History) (i : SlotId) (g : Gen) :
    (w.slots i).moved.count g + (w.slots i).destroyed.count g ≤ 1 := by
  have hset := (hh.past i).settled g
  have hle := Bool.toNat_le ((w.slots i).published g).isSome
  omega

/-- A value of a slot that is gone was moved out or destroyed, and only once. -/
theorem History.left_once (hh : w.History) {i : SlotId} (hfree : ¬ w.arcs.Held i) {g : Gen}
    (hpub : (w.slots i).published g ≠ none) :
    (w.slots i).moved.count g + (w.slots i).destroyed.count g = 1 := by
  have hset := (hh.past i).settled g
  rw [hh.freed i hfree] at hset
  obtain ⟨v, hv⟩ := Option.ne_none_iff_exists'.mp hpub
  rw [hv] at hset
  exact hset

/-- The destructor runs on a value that nobody has destroyed before. -/
theorem Answers.destroys (ha : w.Answers) (h' : w'.History) (hh : w.History)
    (hd : Destroys w w') (hmono : ∀ i g, (w.slots i).published g ≠ none →
      (w'.slots i).published g ≠ none) :
    w'.destroyed.Nodup ∧ ∀ g, g ∈ w'.destroyed ↔ ∃ i, g ∈ (w'.slots i).destroyed := by
  obtain ⟨i, ds, hi, hother, hall⟩ := hd
  have hcount (g : Gen) : ds.count g + (w.slots i).destroyed.count g ≤ 1 := by
    have hle := h'.left_le_one i g
    rw [hi, List.count_append] at hle
    omega
  refine ⟨?nodup, fun g => ?mem⟩
  case nodup =>
    rw [hall, List.nodup_append']
    refine ⟨List.nodup_iff_count_le_one.mpr fun g => ?_, ha.nodup, fun g hg hold => ?_⟩
    · have hle := hcount g
      omega
    · -- it would have been destroyed before, in this slot or in another
      have hpos := List.count_pos_iff.mpr hg
      have hle := hcount g
      obtain ⟨j, hj⟩ := (ha.destroyed g).mp hold
      have hij : i = j := by
        refine h'.single i j g (h'.published_of_left (.inr ?_))
          (hmono j g (hh.published_of_left (.inr hj)))
        rw [hi]
        exact List.mem_append_left _ hg
      subst hij
      have hpos' := List.count_pos_iff.mpr hj
      omega
  case mem =>
    rw [hall, List.mem_append, ha.destroyed]
    constructor
    · rintro (hg | ⟨j, hj⟩)
      · exact ⟨i, by rw [hi]; exact List.mem_append_left _ hg⟩
      · by_cases hij : j = i
        · subst hij
          exact ⟨j, by rw [hi]; exact List.mem_append_right _ hj⟩
        · exact ⟨j, by rw [hother j hij]; exact hj⟩
    · rintro ⟨j, hj⟩
      by_cases hij : j = i
      · subst hij
        rw [hi, List.mem_append] at hj
        exact hj.imp_right fun hj => ⟨j, hj⟩
      · exact .inr ⟨j, by rwa [hother j hij] at hj⟩

/-- No answer, and no move out of a cell. -/
theorem Answers.keep (ha : w.Answers) (htook : ∀ o g v, w'.Took o g v ↔ w.Took o g v)
    (hmoved : ∀ i, (w'.slots i).moved = (w.slots i).moved)
    (hpub : ∀ i g v, (w.slots i).published g = some v → (w'.slots i).published g = some v)
    (hd : w'.destroyed.Nodup ∧ ∀ g, g ∈ w'.destroyed ↔ ∃ i, g ∈ (w'.slots i).destroyed) :
    w'.Answers := by
  refine ⟨fun o g v ht => ?_, fun i g hg => ?_, fun o o' g v v' ht ht' => ?_, hd.1, hd.2⟩
  · obtain ⟨i, hv, hg⟩ := ha.value o g v ((htook o g v).mp ht)
    exact ⟨i, hpub i g v hv, by rwa [hmoved]⟩
  · rw [hmoved] at hg
    obtain ⟨o, v, ht⟩ := ha.taker i g hg
    exact ⟨o, v, (htook o g v).mpr ht⟩
  · exact ha.sole o o' g v v' ((htook o g v).mp ht) ((htook o' g v').mp ht')

section

variable [WillWake W]

/-- The one step that moves a value out of its cell: the value is the call's answer. -/
theorem Answers.unwrapSlot (ha : w.Answers) (h : w.Inv) (hh : w.History) {o : ObsId} {i : SlotId}
    {g : Gen} (ho : w.obs o = .live i g) (h' : (w.unwrapSlot o i g).History)
    (hd : (w.unwrapSlot o i g).destroyed.Nodup ∧ ∀ g', g' ∈ (w.unwrapSlot o i g).destroyed ↔
      ∃ j, g' ∈ ((w.unwrapSlot o i g).slots j).destroyed) : (w.unwrapSlot o i g).Answers := by
  have hpub := published_unwrapSlot w o i g
  rcases h.takenSlot_cases ho with ⟨hnone, htaken⟩ | ⟨v, hv, hsome, -, hmoved⟩
  · refine ha.keep (took_update (o := o) (a := .gone g (some (w.unwrapped i))) rfl (by simp [ho])
      (by simp [hnone])) (fun j => ?_) (fun j g' v hv => by rw [hpub, hv]) hd
    refine update_lasting SlotSys.moved ?_ j
    rw [htaken]
    rfl
  have hold (v' : O) : ¬ w.Took o g v' := by simp [Took, ho]
  have htook (o' : ObsId) (g' : Gen) (v' : O) : (w.unwrapSlot o i g).Took o' g' v' ↔
      (o' = o ∧ g' = g ∧ v' = v) ∨ w.Took o' g' v' := by
    unfold Took
    by_cases hoo : o' = o
    · subst hoo
      simp [World.unwrapSlot, hsome, ho, eq_comm]
    · simp [World.unwrapSlot, hoo]
  have hi : ((w.unwrapSlot o i g).slots i).moved = g :: (w.slots i).moved := by
    have hslot : (w.unwrapSlot o i g).slots i = (w.takenSlot i).finalDrop :=
      Function.update_self ..
    rw [hslot, ← hmoved]
    rfl
  have hother (j : SlotId) (hj : j ≠ i) :
      ((w.unwrapSlot o i g).slots j).moved = (w.slots j).moved :=
    congrArg SlotSys.moved (Function.update_of_ne hj _ w.slots)
  -- nobody has taken it before
  have hfirst (o' : ObsId) (v' : O) : ¬ w.Took o' g v' := by
    intro ht
    obtain ⟨j, hv', hg⟩ := ha.value o' g v' ht
    have hij : i = j := hh.single i j g (by simp [hv]) (by simp [hv'])
    subst hij
    have hle := h'.left_le_one i g
    rw [hi, List.count_cons_self] at hle
    have hpos := List.count_pos_iff.mpr hg
    omega
  refine ⟨fun o' g' v' ht => ?_, fun j g' hg => ?_, fun o₁ o₂ g' v₁ v₂ ht₁ ht₂ => ?_, hd.1, hd.2⟩
  · rcases (htook o' g' v').mp ht with ⟨rfl, rfl, rfl⟩ | hold
    · exact ⟨i, by rw [hpub, hv], by rw [hi]; exact List.mem_cons_self⟩
    · obtain ⟨j, hv', hg⟩ := ha.value o' g' v' hold
      refine ⟨j, by rw [hpub, hv'], ?_⟩
      by_cases hj : j = i
      · subst hj
        rw [hi]
        exact List.mem_cons_of_mem _ hg
      · rwa [hother j hj]
  · have hgone : g' = g ∨ g' ∈ (w.slots j).moved := by
      by_cases hj : j = i
      · subst hj
        rwa [hi, List.mem_cons] at hg
      · exact .inr (by rwa [hother j hj] at hg)
    rcases hgone with rfl | hg
    · exact ⟨o, v, (htook o g' v).mpr (.inl ⟨rfl, rfl, rfl⟩)⟩
    · obtain ⟨o', v', ht⟩ := ha.taker j g' hg
      exact ⟨o', v', (htook o' g' v').mpr (.inr ht)⟩
  · rcases (htook o₁ g' v₁).mp ht₁ with ⟨rfl, rfl, rfl⟩ | h₁ <;>
      rcases (htook o₂ _ v₂).mp ht₂ with ⟨rfl, hg, rfl⟩ | h₂
    · rfl
    · exact absurd h₂ (hfirst o₂ v₂)
    · exact absurd (hg ▸ h₁) (hfirst o₁ v₁)
    · exact ha.sole o₁ o₂ g' v₁ v₂ h₁ h₂

/-- Every step keeps the account of the answers. -/
theorem Answers.step (ha : w.Answers) (h : w.Inv) (hh : w.History) (hs : Step w w') :
    w'.Answers := by
  have h' := hh.step h hs
  have hpub (i : SlotId) (g : Gen) (v : O) (hv : (w.slots i).published g = some v) :
      (w'.slots i).published g = some v := h.published_mono hh hs hv
  have hd := ha.destroys h' hh (h.destroys hh hs) fun i g hg => by
    obtain ⟨v, hv⟩ := Option.ne_none_iff_exists'.mp hg
    rw [hpub i g v hv]
    simp
  rcases h.took_step hs with htook | ⟨o, i, g, ho, -, rfl⟩
  · rcases h.lasting_step hh .moved hs with hmoved | ⟨i, e', s', hc, rfl⟩ | ⟨o, i, g, ho, -, rfl⟩
    · exact ha.keep htook hmoved hpub hd
    · refine ha.keep htook (fun j => update_lasting SlotSys.moved ?_ j) hpub hd
      cases hc with
      | thread t hc => exact hc.frame.moved
      | future f he hc => exact hc.frame.moved
      | complete hc => exact hc.frame.moved
    · exact ha.unwrapSlot h hh ho h' hd
  · exact ha.unwrapSlot h hh ho h' hd

end

theorem Answers.new (e : Env) : (World.new e : World K O W bits).Answers where
  value _ _ _ h := by cases h
  taker _ _ h := by cases h
  sole _ _ _ _ _ h := by cases h
  nodup := .nil
  destroyed g := by simp [World.destroyed, World.new, SlotSys.blank]

end World

/-- Every reachable state accounts for its answers. -/
theorem worldSystem_answers [WillWake W] (h : (worldSystem K O W bits).Reachable w) :
    w.Answers := by
  have hind : (worldSystem K O W bits).Inductive fun w => w.Sound ∧ w.Answers :=
    ⟨fun w ⟨e, hw⟩ => hw ▸ ⟨.new e, .new e⟩,
      fun _ _ ⟨hs, ha⟩ hst => ⟨hs.step hst, ha.step hs.inv hs.history hst⟩⟩
  exact (hind.reachable h).2

end Observe
