import Observe.Space.Steps

/-!
# What a step of the program does to one slot

Every slot that the program uses is an instance of the slot system: it is made fresh, it then
stutters or makes one of its own moves, and it ends with its last handle.  The facts about a slot's
past are derived from this, and so is the refinement: what holds in every reachable state of the
slot system holds of every slot of the program.
-/

namespace Observe.World

variable {K O W : Type} [Key K] {bits : Nat} [WillWake W] {w w' : World K O W bits}

/-- What one step of the program does to slot `i`. -/
inductive Touch (w w' : World K O W bits) (i : SlotId) : Prop where
  /-- The slot stutters; its environment may move. -/
  | same (hs : w'.slots i = w.slots i)
      (henv : w'.env = w.env ∨ SlotMove (w.env, w.slots i) (w'.env, w.slots i))
      (hheld : w'.arcs.Held i ↔ w.arcs.Held i)
  | moved (hx : w.arcs.Held i) (hy : w'.arcs.Held i)
      (hm : SlotMove (w.env, w.slots i) (w'.env, w'.slots i))
  | made (hi : i = w.nextSlot) (hy : w'.arcs.Held i)
      (hs : w'.slots i = SlotSys.blank.fresh w.nextGen)
  | dropped (hx : w.arcs.Held i) (hnone : ¬ w'.arcs.Held i)
      (hs : w'.slots i = (w.slots i).finalDrop ∨
        ((w.slots i).slot.state.completed = true ∧
          w'.slots i = (w.slots i).takeOutcome.finalDrop))

namespace Touch

variable {i : SlotId}

/-- No slot is touched, and the same slots are held. -/
theorem of_slots (hs : w'.slots = w.slots) (henv : w'.env = w.env)
    (harcs : w'.arcs.Held i ↔ w.arcs.Held i) : Touch w w' i :=
  .same (by rw [hs]) (.inl henv) harcs

/-- A release touches its own slot, when it is the last one. -/
theorem release {v : World K O W bits} (x : Owner) (l : Bool) (hs : v.slots = w.slots)
    (henv : v.env = w.env) (harcs : v.arcs = w.arcs) : Touch w (v.release x l) i := by
  have hheld : (v.release x l).arcs.Held i ↔ ∃ y, y ≠ x ∧ w.arcs.of y = some i := by
    rw [release_arcs, harcs]
    exact Lib.Handles.held_release _ x i
  cases hl : v.lastHandle x with
  | none =>
    refine .same ?_ (.inl henv) (hheld.trans ?_)
    · rw [← hs]
      simp only [World.release, hl]
    constructor
    · rintro ⟨y, -, hy⟩
      exact ⟨y, hy⟩
    · rintro ⟨y, hy⟩
      by_contra hnone
      have hyx : y = x := by
        by_contra hyx
        exact hnone ⟨y, hyx, hy⟩
      subst hyx
      have hzero : (w.arcs.release y).count i = 0 := by
        rw [Lib.Handles.count_eq_zero_iff]
        intro z hz
        exact hnone ((Lib.Handles.held_release _ y i).mp ⟨z, hz⟩)
      have hsome : v.lastHandle y = some i := by
        rw [lastHandle, harcs, hy, Option.filter_some, if_pos]
        simpa using hzero
      rw [hl] at hsome
      cases hsome
  | some j =>
    obtain ⟨hx, hlast⟩ := v.lastHandle_eq_some x hl
    rw [harcs] at hx
    by_cases hij : i = j
    · subst hij
      refine .dropped ⟨x, hx⟩ (not_exists.mpr hlast) (.inl ?_)
      rw [← hs]
      simp only [World.release, hl, Function.update_self]
    · refine .same ?_ (.inl henv) ?_
      · rw [← hs]
        simp only [World.release, hl, Function.update_of_ne hij]
      · rw [release_arcs, harcs]
        exact Lib.Handles.held_release_of_ne _ hx hij

/-- Slot `j` makes a move of its own. -/
theorem update {j : SlotId} {s : SlotSys O W} (hs : w'.slots = Function.update w.slots j s)
    (harcs : ∀ k, w'.arcs.Held k ↔ w.arcs.Held k) (hx : w.arcs.Held j)
    (hm : SlotMove (w.env, w.slots j) (w'.env, s))
    (henv : i ≠ j → w'.env = w.env ∨ SlotMove (w.env, w.slots i) (w'.env, w.slots i)) :
    Touch w w' i := by
  by_cases hij : i = j
  · subst hij
    exact .moved hx ((harcs i).mpr hx) (by rw [hs, Function.update_self]; exact hm)
  · exact .same (by rw [hs, Function.update_of_ne hij]) (henv hij) (harcs i)

/-- The drop of a popped slot touches that slot, when it is the last one. -/
theorem dropPopped {v : World K O W bits} (l : Bool) (hs : v.slots = w.slots)
    (henv : v.env = w.env) (harcs : v.arcs = w.arcs) (i : SlotId) :
    Touch w (v.dropPopped l) i := by
  unfold World.dropPopped
  split
  · exact .of_slots hs henv (by rw [harcs])
  · exact .release _ l hs henv harcs

end Touch

/-! ## New handles -/

/-- The next generation has no handle yet. -/
theorem Inv.nextGen_free (h : w.Inv) :
    w.arcs.of (.table w.nextGen) = none ∧ w.arcs.of (.subject w.nextGen) = none := by
  have habs := h.unused.auth w.nextGen le_rfl
  rw [h.held, h.held]
  simp [handle, habs, Authority.table?, Authority.slot?]

omit [WillWake W] in
/-- A new generation holds its own slot besides those that were held. -/
theorem held_claim {i : SlotId} {a : Authority K bits} (m : SmallMap K bits)
    (hfree : w.arcs.of (.table w.nextGen) = none ∧ w.arcs.of (.subject w.nextGen) = none)
    (j : SlotId) : (w.claim i a m).arcs.Held j ↔ j = i ∨ w.arcs.Held j := by
  unfold World.claim
  dsimp only
  split
  · exact Lib.Handles.held_grab _ hfree.2 i j
  · rw [Lib.Handles.held_grab _ ?_ i j, Lib.Handles.held_grab _ hfree.2 i j]
    · tauto
    · rw [Lib.Handles.of_grab_of_ne _ (by simp), hfree.1]

theorem Inv.held_newObs (h : w.Inv) {i : SlotId} (hi : w.arcs.Held i) (g : Gen) (j : SlotId) :
    (w.newObs i g).arcs.Held j ↔ w.arcs.Held j := by
  have hnone : w.arcs.of (.obs w.nextObs) = none := by
    rw [h.held]
    simp [handle, h.unused.obs w.nextObs le_rfl, ObsState.at?]
  rw [World.newObs, Lib.Handles.held_grab _ hnone, or_iff_right_of_imp]
  rintro rfl
  exact hi

theorem Inv.held_of_pin (h : w.Inv) {x : Owner} {i : SlotId} {g : Gen}
    (hp : w.pin x = some (i, g)) : w.arcs.Held i :=
  ⟨x, by rw [h.held]; exact handle_of_pin hp⟩

/-! ## The steps -/

/-- A fresh slot gets the next authority. -/
theorem Inv.touch_newSlot (h : w.Inv) {v : World K O W bits} {a : Authority K bits}
    (m : SmallMap K bits) (hs : v.slots = w.newSlot.slots) (harcs : v.arcs = w.arcs)
    (hgen : v.nextGen = w.nextGen) (henv : v.env = w.env) (i : SlotId) :
    Touch w (v.claim w.nextSlot a m) i := by
  have hheld := held_claim (w := v) (i := w.nextSlot) (a := a) m
    (by rw [harcs, hgen]; exact h.nextGen_free) i
  rw [harcs] at hheld
  by_cases hi : i = w.nextSlot
  · subst hi
    refine .made rfl (hheld.mpr (.inl rfl)) ?_
    show v.slots w.nextSlot = _
    rw [hs]
    exact Function.update_self _ _ _
  · refine .same ?_ (.inl henv) (hheld.trans (or_iff_right hi))
    show v.slots i = _
    rw [hs]
    exact Function.update_of_ne hi _ _

/-- The reset of a pooled slot touches that slot. -/
theorem Inv.touch_recycle (h : w.Inv) {i : SlotId} {rest : List SlotId} (hp : w.pool = i :: rest)
    (key : K) (n : BitVec bits) (j : SlotId) : Touch w ((w.recycleSlot i rest).enter key n i) j := by
  have hmem : i ∈ w.pool := by rw [hp]; exact List.mem_cons_self
  have hx : w.arcs.of (.pool i) = some i := by
    rw [h.held]
    exact if_pos hmem
  refine .update (j := i) (s := (w.slots i).recycle w.nextGen) rfl (fun k => ?_) ⟨_, hx⟩
    (.recycle w.nextGen (h.quiescent hmem) (h.unused.gen i)) fun _ => .inl rfl
  have hfree := h.nextGen_free
  rw [World.enter, held_claim (w := w.recycleSlot i rest)]
  · -- the pool's handle becomes the subject's
    have hmove := Lib.Handles.held_move w.arcs hx hfree.2 k
    rwa [Lib.Handles.held_grab _ ?_ i k] at hmove
    rw [Lib.Handles.of_release_of_ne _ (by simp), hfree.2]
  · simpa [World.recycleSlot, Lib.Handles.of_release_of_ne] using hfree

/-- `subject` touches the slot that it takes or makes. -/
theorem Inv.touch_subject (h : w.Inv) (key : K) (i : SlotId) : Touch w (w.subject key).1 i := by
  have hdraw : w.drawNumber.Inv := h.nextGeneration _
  have hcases := w.subject_cases key
  generalize w.subject key = r at hcases ⊢
  cases hcases with
  | conflict _ => exact .of_slots rfl rfl Iff.rfl
  | exhausted _ _ => exact Touch.dropPopped (w := w) (v := w.drawNumber) true rfl rfl rfl i
  | recycled _ _ hpool =>
    -- no slot is touched by the draw of the number
    have ht := hdraw.touch_recycle hpool key w.nextGeneration i
    cases ht with
    | same hs henv hheld => exact .same hs henv hheld
    | moved hx hy hm => exact .moved hx hy hm
    | made hi hy hs => exact .made hi hy hs
    | dropped hx hnone hs => exact .dropped hx hnone hs
  | fresh _ _ _ =>
    exact h.touch_newSlot (v := w.drawNumber.newSlot)
      (a := .subject key w.nextGeneration w.nextSlot false) _ rfl rfl rfl rfl i

theorem Inv.touch_observe (h : w.Inv) (key : K) (i : SlotId) : Touch w (w.observe key).1 i := by
  unfold World.observe
  split
  · rename_i e he
    obtain ⟨k', c, -, ha⟩ := h.mapped.find key e he
    have hheld : w.arcs.Held e.slot :=
      h.held_of_pin (x := .subject e.gen) (g := e.gen) (by simp [pin, ha, Authority.current?])
    exact .of_slots rfl rfl (h.held_newObs hheld _ i)
  · exact .of_slots rfl rfl Iff.rfl

theorem Inv.touch_pair (h : w.Inv) (i : SlotId) : Touch w w.pair i := by
  have ht := h.touch_newSlot (v := w.newSlot) (a := .publisher w.nextSlot) w.map rfl rfl rfl rfl i
  have hnew : (w.newSlot.claim w.nextSlot (.publisher w.nextSlot) w.map).arcs.Held w.nextSlot :=
    (held_claim (w := w.newSlot) w.map h.nextGen_free _).mpr (.inl rfl)
  have hheld := h.claimPublisher.held_newObs hnew w.nextGen i
  cases ht with
  | same hs henv hsame => exact .same hs henv (hheld.trans hsame)
  | moved hx hy hm => exact .moved hx (hheld.mpr hy) hm
  | made hi hy hs => exact .made hi (hheld.mpr hy) hs
  | dropped hx hnone hs => exact .dropped hx (fun hy => hnone (hheld.mp hy)) hs

/-- The slot of a retiring subject stays held by the subject's own handle. -/
theorem Inv.held_unlist (h : w.Inv) {g : Gen} {k : K} {n : BitVec bits} {i : SlotId} {c : Bool}
    (ha : w.auth g = .subject k n i c) (j : SlotId) :
    (w.unlist g k n i).arcs.Held j ↔ w.arcs.Held j := by
  have hrel : (w.unlist g k n i).arcs.Held j ↔ ∃ y, y ≠ .table g ∧ w.arcs.of y = some j :=
    Lib.Handles.held_release _ _ j
  refine hrel.trans ⟨fun ⟨y, _, hy⟩ => ⟨y, hy⟩, fun ⟨y, hy⟩ => ?_⟩
  by_cases hyt : y = .table g
  · -- the table's handle is not the only one
    subst hyt
    refine ⟨.subject g, by simp, ?_⟩
    rw [h.held] at hy ⊢
    simpa [handle, ha, Authority.table?, Authority.slot?] using hy
  · exact ⟨y, hyt, hy⟩

omit [WillWake W] in
/-- The pool's handle is on a slot that has another one. -/
theorem held_pushPool {i : SlotId} (hi : w.arcs.Held i)
    (hpool : ∀ j, w.arcs.of (.pool i) = some j → j = i) (j : SlotId) :
    (w.pushPool i).arcs.Held j ↔ w.arcs.Held j := by
  constructor
  · rintro ⟨y, hy⟩
    rw [pushPool_of] at hy
    split at hy
    · cases hy
      exact hi
    · exact ⟨y, hy⟩
  · rintro ⟨y, hy⟩
    by_cases hyp : y = .pool i
    · rw [hyp] at hy
      exact ⟨.pool i, by rw [pushPool_of, if_pos rfl, hpool j hy]⟩
    · exact ⟨y, by rw [pushPool_of, if_neg hyp, hy]⟩

theorem Inv.touch_retire (h : w.Inv) {g : Gen} {k : K} {n : BitVec bits} {i : SlotId} {c : Bool}
    (ha : w.auth g = .subject k n i c) (j : SlotId) : Touch w (w.retire g k n i) j := by
  have hheld := h.held_unlist ha
  have hi : w.arcs.Held i :=
    h.held_of_pin (x := .subject g) (g := g) (by simp [pin, ha, Authority.current?])
  have hpool (j' : SlotId) (hj : (w.unlist g k n i).arcs.of (.pool i) = some j') : j' = i := by
    rw [w.unlist_of, if_neg (by simp), h.held] at hj
    simp only [handle] at hj
    split at hj <;> cases hj
    rfl
  rw [h.retire_eq ha]
  split
  · refine .of_slots (h.unlist_slots ha) rfl ?_
    exact (held_pushPool ((hheld i).mpr hi) hpool j).trans (hheld j)
  · exact .of_slots (h.unlist_slots ha) rfl (hheld j)

/-- `into_outcome` touches the slot that it takes. -/
theorem Inv.touch_intoOutcome (h : w.Inv) {o : ObsId} {i : SlotId} {g : Gen}
    (ho : w.obs o = .live i g) (j : SlotId) : Touch w (w.intoOutcome o i g).1 j := by
  have hx : w.arcs.of (.obs o) = some i := by
    rw [h.held]
    simp [handle, ho, ObsState.at?]
  unfold World.intoOutcome
  split
  · rename_i hone
    have hsole := (Lib.Handles.count_eq_one_iff _ hx).mp hone
    by_cases hj : j = i
    · subst hj
      refine .dropped ⟨_, hx⟩ (fun hy => ?_) ?_
      · obtain ⟨y, hyo, hy⟩ := (Lib.Handles.held_release _ _ j).mp hy
        exact hyo (hsole y hy)
      · cases hc : (w.slots j).slot.state.completed with
        | false => exact .inl (by simp [World.unwrapSlot, World.takenSlot, hc])
        | true => exact .inr ⟨rfl, by simp [World.unwrapSlot, World.takenSlot, hc]⟩
    · exact .same (by simp [World.unwrapSlot, hj]) (.inl rfl)
        (Lib.Handles.held_release_of_ne _ hx hj)
  · exact .of_slots rfl rfl Iff.rfl

theorem Inv.touch_intoFuture (h : w.Inv) {o : ObsId} {i : SlotId} {g : Gen}
    (ho : w.obs o = .live i g) (j : SlotId) : Touch w (w.intoFuture o i g) j := by
  have hx : w.arcs.of (.obs o) = some i := by
    rw [h.held]
    simp [handle, ho, ObsState.at?]
  have hf : w.arcs.of (.fut w.nextFut) = none := by
    rw [h.held]
    simp [handle, h.unused.fut w.nextFut le_rfl, FutState.at?]
  obtain ⟨hnew, hquiet⟩ := h.nextFut_new i
  refine .update (j := i) (s := (w.slots i).newFuture w.nextFut g) rfl
    (Lib.Handles.held_move w.arcs hx hf) ⟨_, hx⟩ ?_ fun _ => .inl rfl
  rw [← h.pinned _ _ _ (pin_obs ho)]
  exact .intoFuture w.nextFut hnew hquiet

/-- A call on one slot is a move of the environment to the others. -/
theorem Inv.env_callStep (h : w.Inv) {i : SlotId} {e' : Env} {s' : SlotSys O W}
    (hs : CallStep w.env (w.slots i) e' s') {j : SlotId} (hj : j ≠ i) :
    e' = w.env ∨ SlotMove (w.env, w.slots j) (e', w.slots j) := by
  cases hs with
  | thread t hs =>
    have hidle : ((w.slots j).thr t).active = false := by
      by_contra hact
      exact hj (h.borrowed.alone j i t (by simpa using hact) hs.active)
    cases hs with
    | park_token hpc htok => exact .inr (.parkElsewhere t hidle)
    | _ => exact .inl rfl
  | future f he hs => exact .inl he
  | complete hs =>
    cases hs with
    | @unpark g t g' ws b hpc => exact .inr (.unparkElsewhere t)
    | _ => exact .inl rfl

/-- **A step of the program touches every slot in one of the four ways.** -/
theorem Inv.touch (h : w.Inv) (hs : Step w w') (i : SlotId) : Touch w w' i := by
  cases hs with
  | subject key => exact h.touch_subject key i
  | unwind => exact .dropPopped true rfl rfl rfl i
  | observe key => exact h.touch_observe key i
  | dropPooled => exact .dropPopped false rfl rfl rfl i
  | @complete g k n j v ha =>
    have hp : w.pin (.subject g) = some (j, g) := by simp [pin, ha, Authority.current?]
    refine .update rfl (fun _ => Iff.rfl) (h.held_of_pin hp) ?_ fun _ => .inl rfl
    rw [← h.pinned _ _ _ hp]
    exact .complete v (h.borrowed.idle g j (.inr ⟨k, n, ha⟩))
  | retire ha hrest => exact h.touch_retire ha i
  | releaseSubject ha => exact .release _ _ rfl rfl rfl
  | pair => exact h.touch_pair i
  | @publish g j v ha =>
    have hp : w.pin (.subject g) = some (j, g) := by simp [pin, ha, Authority.current?]
    refine .update rfl (fun _ => Iff.rfl) (h.held_of_pin hp) ?_ fun _ => .inl rfl
    rw [← h.pinned _ _ _ hp]
    exact .complete v (h.borrowed.idle g j (.inl ha))
  | cloneObs ho => exact .of_slots rfl rfl (h.held_newObs (h.held_of_pin (pin_obs ho)) _ i)
  | call t c ho hidle =>
    refine .update rfl (fun _ => Iff.rfl) (h.held_of_pin (pin_obs ho)) ?_ fun _ => .inl rfl
    exact .call t _ c (hidle _) (h.pinned _ _ _ (pin_obs ho)).symm
  | callStep j hs =>
    obtain ⟨x, g, hp⟩ := h.pin_callStep hs
    exact .update rfl (fun _ => Iff.rfl) (h.held_of_pin hp) (.step hs)
      fun hij => h.env_callStep hs hij
  | intoFuture ho hb => exact h.touch_intoFuture ho i
  | poll wk hf hrest =>
    refine .update rfl (fun _ => Iff.rfl) (h.held_of_pin (pin_fut hf)) ?_ fun _ => .inl rfl
    exact .poll _ wk (h.borrowed.mem _ _ _ hf) hrest
  | cancel hf hrest =>
    refine .update rfl (fun _ => Iff.rfl) (h.held_of_pin (pin_fut hf)) ?_ fun _ => .inl rfl
    exact .cancel _ (h.borrowed.mem _ _ _ hf) hrest
  | releaseFuture hf hdead => exact .release _ _ rfl rfl rfl
  | dropObs ho hb => exact .release _ _ rfl rfl rfl
  | intoOutcome ho hb => exact h.touch_intoOutcome ho i
  | dropRefused ho => exact .release _ _ rfl rfl rfl
  | unpark t => exact .same rfl (.inr (.unparkElsewhere t)) Iff.rfl
  | park t hidle => exact .same rfl (.inr (.parkElsewhere t (hidle i))) Iff.rfl
  | tick n hn => exact .same rfl (.inr (.tick n hn)) Iff.rfl
  | _ => exact .of_slots rfl rfl Iff.rfl

end Observe.World
