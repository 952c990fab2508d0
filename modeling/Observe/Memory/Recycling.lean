import Observe.Memory.Counts
import Observe.Memory.Views

/-!
# Stale counts

A load of a count may return an old value, so `Subject::drop` may leave a slot out of the pool and
`into_outcome` may refuse although nobody else has the slot.  It never happens the other way: who
reads one is alone.  The invariant of the program therefore holds with the counts in memory as well,
whatever the orderings of the accesses to the counts are.
-/

namespace Observe

open Lib

variable {K O W : Type} [Key K] {bits : Nat}

namespace World

variable {w w' : World K O W bits}

/-- The interleaved `into_outcome` has seen the count. -/
theorem intoOutcome_eq_seeing (w : World K O W bits) (o : ObsId) (i : SlotId) (g : Gen) :
    w.intoOutcome o i g = w.intoOutcomeSeeing o i g (w.arcs.count i) := rfl

variable [WillWake W]

theorem Aside.step (h : Aside w w') : Step w w' := by
  cases h with
  | cloneSpace hspace => exact .cloneSpace hspace
  | dropSpace hspace => exact .dropSpace hspace
  | complete v ha => exact .complete v ha
  | releaseInner ha => exact .releaseInner ha
  | publish v ha => exact .publish v ha
  | published ha hrest => exact .published ha hrest
  | dropPublisher ha => exact .dropPublisher ha
  | call t c ho hidle => exact .call t c ho hidle
  | poll wk hf hrest => exact .poll wk hf hrest
  | cancel hf hrest => exact .cancel hf hrest
  | unpark t => exact .unpark t
  | park t hidle => exact .park t hidle
  | tick n hn => exact .tick n hn

/-- `Subject::drop` pools its slot when it has seen a one and the pool has room. -/
theorem Inv.retireSeeing_eq (h : w.Inv) {g : Gen} {k : K} {n : BitVec bits} {i : SlotId} {c : Bool}
    (ha : w.auth g = .subject k n i c) (seen : Nat) :
    w.retireSeeing g k n i seen =
      if seen = 1 ∧ w.pool.length < slotPoolCap then (w.unlist g k n i).pushPool i
      else w.unlist g k n i := by
  unfold World.retireSeeing
  simp only [h.removeIf_subject ha, if_true, h.mapped.entry g k n i c ha]
  rfl

/-! ## Steps that an old count makes -/

omit [WillWake W] in
/-- A slot is given up, or kept, by somebody who does not know that he is alone. -/
inductive Stale : World K O W bits → World K O W bits → Prop where
  | retire {w g k n i c} (ha : w.auth g = .subject k n i c)
      (hrest : (w.slots i).comp.resting = true) : Stale w (w.unlist g k n i)
  | intoOutcome {w o i g} (ho : w.obs o = .live i g) (hb : w.Unborrowed o) :
      Stale w { w with obs := Function.update w.obs o (.refused i g) }

/-- A step on an old count keeps the invariant of the program. -/
theorem Inv.stale (h : w.Inv) (hs : Stale w w') : w'.Inv := by
  cases hs with
  | retire ha hrest => exact h.unlist ha hrest
  | intoOutcome ho hb => exact h.refuseOutcome ho hb

/-- No slot changes, and the same slots are held. -/
theorem Sound.of_slots (h : w.Sound) (hinv : w'.Inv) (hslots : w'.slots = w.slots)
    (henv : w'.env = w.env) (hheld : ∀ i, w'.arcs.Held i ↔ w.arcs.Held i)
    (hnext : w'.nextSlot = w.nextSlot) (hauth : ∀ g, (w'.auth g).slot? = (w.auth g).slot?) :
    w'.Sound := by
  have hh := h.history
  refine ⟨hinv, ⟨?_, ?_, ?_, ?_, ?_⟩, ?_⟩
  · rw [hslots]
    exact hh.past
  · intro i hi
    rw [hslots]
    exact hh.freed i ((hheld i).not.mp hi)
  · rw [hslots, hnext]
    exact hh.unmade
  · intro i g hpub j hj
    rw [hslots] at hpub
    rw [hauth] at hj
    exact hh.home i g hpub j hj
  · rw [hslots]
    exact hh.single
  · intro i hi
    rw [hslots, henv]
    exact h.refines i ((hheld i).mp hi)

/-- A step on an old count keeps the invariant and the history. -/
theorem Sound.stale (h : w.Sound) (hs : Stale w w') : w'.Sound := by
  have hinv := h.inv.stale hs
  cases hs with
  | @retire g k n i c ha hrest =>
    refine h.of_slots hinv (h.inv.unlist_slots ha) rfl (h.inv.held_unlist ha) rfl fun g' => ?_
    by_cases hg : g' = g
    · rw [hg, World.unlist, detach_auth_self, ha]
      rfl
    · rw [World.unlist, detach_auth_of_ne _ _ _ hg]
  | intoOutcome ho hb => exact h.of_slots hinv rfl rfl (fun _ => Iff.rfl) rfl fun _ => rfl

end World

open World

variable [WillWake W] {l : CountOrders} {a : ArcOrders} {x x' : ArcWorld K O W bits}
  {w w' : World K O W bits} {m m' : ArcMem Owner SlotId}

structure ArcWorld.Sound (x : ArcWorld K O W bits) (a : ArcOrders) : Prop where
  world : x.world.Sound
  ok : x.mem.Ok a x.world.arcs
  fresh : ∀ i, x.world.nextSlot ≤ i → x.mem.Fresh i

namespace ArcWorld.Sound

theorem inv (h : (⟨w, m⟩ : ArcWorld K O W bits).Sound a) : w.Inv := h.world.inv

theorem of_subject (h : (⟨w, m⟩ : ArcWorld K O W bits).Sound a) {g : Gen} {i : SlotId}
    (ha : (w.auth g).slot? = some i) : w.arcs.of (.subject g) = some i := by
  rw [h.inv.held]
  exact ha

theorem of_table (h : (⟨w, m⟩ : ArcWorld K O W bits).Sound a) {g : Gen} {i : SlotId}
    (ha : (w.auth g).table? = some i) : w.arcs.of (.table g) = some i := by
  rw [h.inv.held]
  exact ha

theorem of_obs (h : (⟨w, m⟩ : ArcWorld K O W bits).Sound a) {o : ObsId} {i : SlotId} {g : Gen}
    (ho : (w.obs o).at? = some (i, g)) : w.arcs.of (.obs o) = some i := by
  rw [h.inv.held]
  exact congrArg (Option.map Prod.fst) ho

theorem of_fut (h : (⟨w, m⟩ : ArcWorld K O W bits).Sound a) {f : FutId} {i : SlotId} {g : Gen}
    (hf : (w.futs f).at? = some (i, g)) : w.arcs.of (.fut f) = some i := by
  rw [h.inv.held]
  exact congrArg (Option.map Prod.fst) hf

theorem of_pool (h : (⟨w, m⟩ : ArcWorld K O W bits).Sound a) {i : SlotId} (hi : i ∈ w.pool) :
    w.arcs.of (.pool i) = some i := by
  rw [h.inv.held]
  exact if_pos hi

/-- What the next generation will hold is free. -/
theorem next_free (h : (⟨w, m⟩ : ArcWorld K O W bits).Sound a) :
    w.arcs.of (.subject w.nextGen) = none ∧ w.arcs.of (.table w.nextGen) = none ∧
      w.arcs.of (.obs w.nextObs) = none ∧ w.arcs.of (.fut w.nextFut) = none := by
  have hgen := h.inv.nextGen_free
  refine ⟨hgen.2, hgen.1, ?_, ?_⟩
  · rw [h.inv.held]
    simp [handle, h.inv.unused.obs w.nextObs le_rfl, ObsState.at?]
  · rw [h.inv.held]
    simp [handle, h.inv.unused.fut w.nextFut le_rfl, FutState.at?]

/-! ## What the two loads return -/

section Unlist

variable {g : Gen} {k : K} {n : BitVec bits} {i : SlotId} {c : Bool}

/-- Behind the drop of the entry the counts are those of the handles that are left. -/
theorem unlist_ok (h : (⟨w, m⟩ : ArcWorld K O W bits).Sound a) (ha : w.auth g = .subject k n i c) :
    (unlistMem m a g i).Ok a (w.unlist g k n i).arcs := by
  have htab := h.of_table (g := g) (i := i) (by rw [ha]; rfl)
  exact ((h.ok.join (.table g) (.subject g)).drop htab).join (.subject g) (.table g)

/-- The subject still has its own handle behind the drop of its entry. -/
theorem unlist_of_subject (h : (⟨w, m⟩ : ArcWorld K O W bits).Sound a)
    (ha : w.auth g = .subject k n i c) :
    (w.unlist g k n i).arcs.of (.subject g) = some i := by
  rw [w.unlist_of, if_neg (by simp)]
  exact h.of_subject (by rw [ha]; rfl)

end Unlist

/-- **Every step is one of the interleaved program, or one that an old count makes.** -/
theorem step_or_stale (h : (⟨w, m⟩ : ArcWorld K O W bits).Sound l.arc)
    (hs : CountedStep l ⟨w, m⟩ ⟨w', m'⟩) : Step w w' ∨ Stale w w' := by
  cases hs with
  | aside h => exact .inl h.step
  | subject key hspace => exact .inl (.subject key hspace)
  | unwind hspace => exact .inl (.unwind hspace)
  | observe key hspace => exact .inl (.observe key hspace)
  | dropPooled hinner => exact .inl (.dropPooled hinner)
  | @retire _ _ g key n i c k msg ha hrest hr =>
    by_cases hcount : msg.val = 1 ↔ (w.unlist g key n i).arcs.count i = 1
    · left
      have hsame : w.retireSeeing g key n i msg.val = w.retire g key n i := by
        rw [h.inv.retireSeeing_eq ha, h.inv.retire_eq ha]
        simp only [hcount]
      rw [hsame]
      exact .retire ha hrest
    · -- one would have been the count
      right
      have hne : msg.val ≠ 1 := by
        intro hone
        have hsole := (h.unlist_ok ha).sole_of_reads (h.unlist_of_subject ha) hr hone
        exact hcount (iff_of_true hone hsole)
      rw [h.inv.retireSeeing_eq ha, if_neg (fun hand => hne hand.1)]
      exact .retire ha hrest
  | releaseSubject ha => exact .inl (.releaseSubject ha)
  | pair => exact .inl .pair
  | cloneObs ho => exact .inl (.cloneObs ho)
  | callStep i p hstep => exact .inl (.callStep i hstep.callStep)
  | intoFuture ho hb => exact .inl (.intoFuture ho hb)
  | releaseFuture hf hdead => exact .inl (.releaseFuture hf hdead)
  | dropObs ho hb => exact .inl (.dropObs ho hb)
  | @intoOutcome _ _ o i g k msg ho hb hr =>
    by_cases hone : msg.val = 1
    · left
      have hof := h.of_obs (o := o) (i := i) (g := g) (by rw [ho]; rfl)
      have hsole : w.arcs.count i = 1 := h.ok.sole_of_reads hof hr hone
      rw [hone, ← hsole, ← w.intoOutcome_eq_seeing]
      exact .intoOutcome ho hb
    · right
      have hsame : (w.intoOutcomeSeeing o i g msg.val).1 =
          { w with obs := Function.update w.obs o (.refused i g) } := by
        simp only [intoOutcomeSeeing, if_neg hone]
      rw [hsame]
      exact .intoOutcome ho hb
  | dropRefused ho => exact .inl (.dropRefused ho)

/-! ## The counts follow the handles -/

omit [WillWake W] in
/-- The counts are those of the next state, and only those of one of its slots have moved. -/
structure Follows (a : ArcOrders) (m : ArcMem Owner SlotId) (w' : World K O W bits)
    (m' : ArcMem Owner SlotId) : Prop where
  ok : m'.Ok a w'.arcs
  touches : m' = m ∨ ∃ i < w'.nextSlot, m.Touches m' i

theorem lt_nextSlot (h : (⟨w, m⟩ : ArcWorld K O W bits).Sound a) {y : Owner} {i : SlotId}
    (hy : w.arcs.of y = some i) : i < w.nextSlot := by
  by_contra hi
  exact h.inv.unused.slot i (Nat.le_of_not_lt hi) y hy

/-- A handle is dropped. -/
theorem follows_drop (h : (⟨w, m⟩ : ArcWorld K O W bits).Sound a) {v : World K O W bits} {y : Owner}
    {i : SlotId} (hy : w.arcs.of y = some i) (b : Bool) (harcs : v.arcs = w.arcs)
    (hnext : v.nextSlot = w.nextSlot) : Follows a m (v.release y b) (m.drop a y i) where
  ok := by
    rw [release_arcs, harcs]
    exact h.ok.drop hy
  touches := .inr ⟨i, by rw [release_nextSlot, hnext]; exact h.lt_nextSlot hy, ArcMem.touches_drop⟩

theorem follows_dropPopped (h : (⟨w, m⟩ : ArcWorld K O W bits).Sound a) {v : World K O W bits}
    (b : Bool) (hpool : v.pool = w.pool) (harcs : v.arcs = w.arcs)
    (hnext : v.nextSlot = w.nextSlot) :
    Follows a m (v.dropPopped b) (w.dropPoppedMem m a) := by
  unfold World.dropPopped World.dropPoppedMem
  rw [hpool]
  cases hp : w.pool with
  | nil => exact ⟨harcs ▸ h.ok, .inl rfl⟩
  | cons i rest =>
    have hy : w.arcs.of (.pool i) = some i := h.of_pool (by rw [hp]; exact List.mem_cons_self)
    exact h.follows_drop hy b harcs hnext

theorem follows_subject (h : (⟨w, m⟩ : ArcWorld K O W bits).Sound a) (key : K) :
    Follows a m (w.subject key).1 (w.subjectMem m a key) := by
  obtain ⟨hsub, htab, -⟩ := h.next_free
  have hcases := w.subject_cases key
  unfold World.subjectMem
  generalize w.subject key = r at hcases ⊢
  cases hcases with
  | conflict hkey =>
    rw [hkey]
    exact ⟨h.ok, .inl rfl⟩
  | exhausted hkey hmax =>
    rw [hkey, if_pos rfl, if_pos hmax]
    exact h.follows_dropPopped (v := w.drawNumber) true rfl rfl rfl
  | @recycled i rest hkey hmax hpool =>
    rw [hkey, if_pos rfl, if_neg hmax, hpool]
    have hy : w.arcs.of (.pool i) = some i := h.of_pool (by rw [hpool]; exact List.mem_cons_self)
    have hmove := (h.ok.take fun _ => hy).move hy hsub
    have htab' : ((w.arcs.release (.pool i)).grab (.subject w.nextGen) i).of
        (.table w.nextGen) = none := by
      rw [Handles.of_grab_of_ne _ (by simp), Handles.of_release_of_ne _ (by simp), htab]
    refine ⟨hmove.clone (Handles.of_grab_self ..) htab', .inr ⟨i, h.lt_nextSlot hy, ?_⟩⟩
    exact ArcMem.touches_take.trans (ArcMem.touches_own.trans ArcMem.touches_clone)
  | fresh hkey hmax hpool =>
    rw [hkey, if_pos rfl, if_neg hmax, hpool]
    have hnew := h.inv.unused.slot w.nextSlot le_rfl
    have hmake := h.ok.make hsub (fun ⟨y, hy⟩ => hnew y hy) (h.fresh w.nextSlot le_rfl)
    have htab' : (w.arcs.grab (.subject w.nextGen) w.nextSlot).of (.table w.nextGen) = none := by
      rw [Handles.of_grab_of_ne _ (by simp), htab]
    refine ⟨hmake.clone (Handles.of_grab_self ..) htab', .inr ⟨w.nextSlot, Nat.lt_succ_self _, ?_⟩⟩
    exact ArcMem.touches_make.trans ArcMem.touches_clone

theorem follows_pair (h : (⟨w, m⟩ : ArcWorld K O W bits).Sound a) :
    Follows a m w.pair (w.pairMem m a) := by
  obtain ⟨hsub, -, hobs, -⟩ := h.next_free
  have hnew := h.inv.unused.slot w.nextSlot le_rfl
  have hmake := h.ok.make hsub (fun ⟨y, hy⟩ => hnew y hy) (h.fresh w.nextSlot le_rfl)
  have hobs' : (w.arcs.grab (.subject w.nextGen) w.nextSlot).of (.obs w.nextObs) = none := by
    rw [Handles.of_grab_of_ne _ (by simp), hobs]
  refine ⟨hmake.clone (Handles.of_grab_self ..) hobs', .inr ⟨w.nextSlot, Nat.lt_succ_self _, ?_⟩⟩
  exact ArcMem.touches_make.trans ArcMem.touches_clone

theorem follows_newObs (h : (⟨w, m⟩ : ArcWorld K O W bits).Sound a) {y : Owner} {i : SlotId}
    (hy : w.arcs.of y = some i) (g : Gen) :
    Follows a m (w.newObs i g) (m.clone a y (.obs w.nextObs) i) :=
  ⟨h.ok.clone hy h.next_free.2.2.1, .inr ⟨i, h.lt_nextSlot hy, ArcMem.touches_clone⟩⟩

/-- The counts follow `Subject::drop`, whatever it has read. -/
theorem follows_retire (h : (⟨w, m⟩ : ArcWorld K O W bits).Sound a) {g : Gen} {key : K}
    {n : BitVec bits} {i : SlotId} {c : Bool} (ha : w.auth g = .subject key n i c) {o : MemOrder}
    {k : Nat} {msg : Message (ArcLoc Owner SlotId) Nat}
    (hr : ((unlistMem m a g i).count i).Reads (.count i) ((unlistMem m a g i).view (.subject g)) k
      msg) :
    Follows a m (w.retireSeeing g key n i msg.val) (w.retireMem m a g i o k msg) := by
  have hload := (h.unlist_ok ha).load o hr
  have hof := h.unlist_of_subject ha
  have hlt : i < w.nextSlot := h.lt_nextSlot (h.of_subject (g := g) (by rw [ha]; rfl))
  have htouch : m.Touches ((unlistMem m a g i).load (.subject g) i o k msg) i :=
    ArcMem.touches_own.trans (ArcMem.touches_drop.trans
      (ArcMem.touches_own.trans ArcMem.touches_own))
  rw [h.inv.retireSeeing_eq ha]
  unfold World.retireMem
  split
  · rename_i hpush
    -- the pool has no handle of a slot that only its subject has
    have hsole := (h.unlist_ok ha).sole_of_reads hof hr hpush.1
    have hpool : (w.unlist g key n i).arcs.of (.pool i) = none := by
      by_contra hne
      obtain ⟨j, hj⟩ := Option.ne_none_iff_exists'.mp hne
      have hj' := hj
      rw [w.unlist_of, if_neg (by simp), h.inv.held] at hj'
      simp only [handle] at hj'
      split at hj'
      · cases hj'
        have heq := ((w.unlist g key n i).arcs.count_eq_one_iff hof).mp hsole (.pool i) hj
        cases heq
      · cases hj'
    exact ⟨hload.clone hof hpool, .inr ⟨i, hlt, htouch.trans ArcMem.touches_clone⟩⟩
  · exact ⟨hload, .inr ⟨i, hlt, htouch⟩⟩

/-- The counts follow `into_outcome`, whatever it has read. -/
theorem follows_intoOutcome (h : (⟨w, m⟩ : ArcWorld K O W bits).Sound a) {o : ObsId} {i : SlotId}
    {g : Gen} (ho : w.obs o = .live i g) {ord : MemOrder} {k : Nat}
    {msg : Message (ArcLoc Owner SlotId) Nat}
    (hr : (m.count i).Reads (.count i) (m.view (.obs o)) k msg) :
    Follows a m (w.intoOutcomeSeeing o i g msg.val).1 (intoOutcomeMem m o i ord k msg) := by
  have hof := h.of_obs (o := o) (i := i) (g := g) (by rw [ho]; rfl)
  have hload := h.ok.load ord hr
  have hlt := h.lt_nextSlot hof
  unfold intoOutcomeSeeing intoOutcomeMem
  split
  · rename_i hone
    have hsole := (w.arcs.count_eq_one_iff hof).mp (h.ok.sole_of_reads hof hr hone)
    exact ⟨(hload.take fun _ => hof).forget hof hsole,
      .inr ⟨i, hlt, ArcMem.touches_own.trans ArcMem.touches_take⟩⟩
  · exact ⟨hload, .inr ⟨i, hlt, ArcMem.touches_own⟩⟩

/-- The owner of a call in flight has a handle. -/
theorem of_owner (h : (⟨w, m⟩ : ArcWorld K O W bits).Sound a) {i : SlotId} {p : Proc} {e' : Env}
    {s' : SlotSys O W} (hs : ProcStep p w.env (w.slots i) e' s') :
    ∃ g, w.pin (p.owner (w.slots i)) = some (i, g) := by
  cases p with
  | thread t => exact ⟨_, h.inv.pin_thr (ThreadStep.active hs)⟩
  | future f =>
    obtain ⟨g, hg⟩ := h.inv.borrowed.fut i f hs.2.active
    exact ⟨g, pin_fut hg⟩
  | completer => exact ⟨_, h.inv.pin_comp (CompStep.notResting hs)⟩

theorem of_pin (h : (⟨w, m⟩ : ArcWorld K O W bits).Sound a) {y : Owner} {i : SlotId} {g : Gen}
    (hp : w.pin y = some (i, g)) : w.arcs.of y = some i := by
  rw [h.inv.held]
  exact handle_of_pin hp

/-- The counts follow every step. -/
theorem follows (h : (⟨w, m⟩ : ArcWorld K O W bits).Sound l.arc)
    (hs : CountedStep l ⟨w, m⟩ ⟨w', m'⟩) : Follows l.arc m w' m' := by
  cases hs with
  | aside haside =>
    refine ⟨?_, .inl rfl⟩
    cases haside <;> exact h.ok
  | subject key => exact h.follows_subject key
  | unwind => exact h.follows_dropPopped true rfl rfl rfl
  | observe key =>
    unfold World.observe World.observeMem
    cases he : w.map.get key with
    | none => exact ⟨h.ok, .inl rfl⟩
    | some e =>
      obtain ⟨k', c, -, ha⟩ := h.inv.mapped.find key e he
      exact h.follows_newObs (h.of_table (by rw [ha]; rfl)) e.gen
  | dropPooled => exact h.follows_dropPopped false rfl rfl rfl
  | retire ha hrest hr => exact h.follows_retire ha hr
  | @releaseSubject _ _ g i ha =>
    exact h.follows_drop (h.of_subject (by rw [ha]; rfl)) false rfl rfl
  | pair => exact h.follows_pair
  | cloneObs ho => exact h.follows_newObs (h.of_obs (by rw [ho]; rfl)) _
  | callStep i p hstep =>
    obtain ⟨g, hp⟩ := h.of_owner hstep
    have hof := h.of_pin hp
    exact ⟨h.ok.use hof, .inr ⟨i, h.lt_nextSlot hof, ArcMem.touches_use⟩⟩
  | intoFuture ho hb =>
    have hof := h.of_obs (by rw [ho]; rfl)
    exact ⟨h.ok.move hof h.next_free.2.2.2, .inr ⟨_, h.lt_nextSlot hof, ArcMem.touches_own⟩⟩
  | releaseFuture hf hdead => exact h.follows_drop (h.of_fut (by rw [hf]; rfl)) false rfl rfl
  | dropObs ho hb => exact h.follows_drop (h.of_obs (by rw [ho]; rfl)) false rfl rfl
  | intoOutcome ho hb hr => exact h.follows_intoOutcome ho hr
  | dropRefused ho => exact h.follows_drop (h.of_obs (by rw [ho]; rfl)) false rfl rfl

/-- A step keeps the invariant, counts included. -/
theorem step (h : (⟨w, m⟩ : ArcWorld K O W bits).Sound l.arc)
    (hs : CountedStep l ⟨w, m⟩ ⟨w', m'⟩) : (⟨w', m'⟩ : ArcWorld K O W bits).Sound l.arc := by
  have hnext : w.nextSlot ≤ w'.nextSlot ∧ w'.Sound := by
    rcases h.step_or_stale hs with hstep | hstale
    · exact ⟨(h.inv.next_le hstep).2, h.world.step hstep⟩
    · refine ⟨?_, h.world.stale hstale⟩
      cases hstale <;> exact le_rfl
  obtain ⟨hok, htouches⟩ := h.follows hs
  refine ⟨hnext.2, hok, fun j hj => ?_⟩
  have hfresh := h.fresh j (hnext.1.trans hj)
  rcases htouches with heq | ⟨i, hi, htouch⟩
  · rw [heq]
    exact hfresh
  · exact hfresh.of_touches htouch (Nat.lt_of_lt_of_le hi hj).ne'

theorem new (e : Env) : (⟨World.new e, .empty⟩ : ArcWorld K O W bits).Sound a where
  world := .new e
  ok := .empty
  fresh _ _ := ⟨rfl, fun _ _ => rfl⟩

end ArcWorld.Sound

/-- Every reachable state is sound, whatever the orderings are. -/
theorem countedSystem_sound (h : (countedSystem K O W bits l).Reachable x) : x.Sound l.arc := by
  have hind : (countedSystem K O W bits l).Inductive fun x => x.Sound l.arc := by
    refine ⟨fun x hx => ?_, fun x x' hx hs => hx.step hs⟩
    obtain ⟨e, rfl⟩ := hx
    exact .new e
  exact hind.reachable h

/-! ## Memory only adds refusals -/

namespace ArcWorld.Sound

/-- Loads that return the newest count do what the interleaved program does. -/
theorem exists_step (h : (⟨w, m⟩ : ArcWorld K O W bits).Sound l.arc) (hs : Step w w') :
    ∃ m', CountedStep l ⟨w, m⟩ ⟨w', m'⟩ := by
  cases hs with
  | subject key hspace => exact ⟨_, .subject key hspace⟩
  | unwind hspace => exact ⟨_, .unwind hspace⟩
  | observe key hspace => exact ⟨_, .observe key hspace⟩
  | cloneSpace hspace => exact ⟨m, .aside (.cloneSpace hspace)⟩
  | dropSpace hspace => exact ⟨m, .aside (.dropSpace hspace)⟩
  | dropPooled hinner => exact ⟨_, .dropPooled hinner⟩
  | complete v ha => exact ⟨m, .aside (.complete v ha)⟩
  | @retire g key n i c ha hrest =>
    have hok := h.unlist_ok ha
    have hr := History.reads_last (hok.bounded (.subject g) i)
    have hval := hok.counted i ⟨_, h.unlist_of_subject ha⟩
    have hsame : w.retire g key n i =
        w.retireSeeing g key n i ((unlistMem m l.arc g i).count i).last.val := by
      rw [h.inv.retireSeeing_eq ha, h.inv.retire_eq ha, hval]
    rw [hsame]
    exact ⟨_, .retire ha hrest hr⟩
  | releaseInner ha => exact ⟨m, .aside (.releaseInner ha)⟩
  | releaseSubject ha => exact ⟨_, .releaseSubject ha⟩
  | pair => exact ⟨_, .pair⟩
  | publish v ha => exact ⟨m, .aside (.publish v ha)⟩
  | published ha hrest => exact ⟨m, .aside (.published ha hrest)⟩
  | dropPublisher ha => exact ⟨m, .aside (.dropPublisher ha)⟩
  | cloneObs ho => exact ⟨_, .cloneObs ho⟩
  | call t c ho hidle => exact ⟨m, .aside (.call t c ho hidle)⟩
  | callStep i hcall =>
    obtain ⟨p, hp⟩ := hcall.procStep
    exact ⟨_, .callStep i p hp⟩
  | intoFuture ho hb => exact ⟨_, .intoFuture ho hb⟩
  | poll wk hf hrest => exact ⟨m, .aside (.poll wk hf hrest)⟩
  | cancel hf hrest => exact ⟨m, .aside (.cancel hf hrest)⟩
  | releaseFuture hf hdead => exact ⟨_, .releaseFuture hf hdead⟩
  | dropObs ho hb => exact ⟨_, .dropObs ho hb⟩
  | @intoOutcome o i g ho hb =>
    have hr := History.reads_last (h.ok.bounded (.obs o) i)
    have hval := h.ok.counted i ⟨_, h.of_obs (o := o) (i := i) (g := g) (by rw [ho]; rfl)⟩
    rw [w.intoOutcome_eq_seeing, ← hval]
    exact ⟨_, .intoOutcome ho hb hr⟩
  | dropRefused ho => exact ⟨_, .dropRefused ho⟩
  | unpark t => exact ⟨m, .aside (.unpark t)⟩
  | park t hidle => exact ⟨m, .aside (.park t hidle)⟩
  | tick n hn => exact ⟨m, .aside (.tick n hn)⟩

/-- Every run of the interleaved program can be made with the counts in memory. -/
theorem exists_run (l : CountOrders) (h : (worldSystem K O W bits).Reachable w) :
    ∃ m, (countedSystem K O W bits l).Reachable ⟨w, m⟩ := by
  induction h with
  | init hw =>
    obtain ⟨e, rfl⟩ := hw
    exact ⟨.empty, .init ⟨e, rfl⟩⟩
  | step _ hs ih =>
    obtain ⟨m, hm⟩ := ih
    obtain ⟨m', hstep⟩ := (countedSystem_sound hm).exists_step hs
    exact ⟨m', hm.step hstep⟩

end ArcWorld.Sound

/-- **Memory only adds refusals.** Whatever the orderings are, every step of the interleaved program
can be made with the counts in memory, in each of their reachable states, so that every state that
the program reaches is reached with them; and every step with the counts in memory is one of the
interleaved program, or a slot is not pooled, or not unwrapped, by somebody who is alone with it and
does not know. -/
theorem counted_adds_refusals (l : CountOrders) :
    (∀ x w', (countedSystem K O W bits l).Reachable x → World.Step x.world w' →
      ∃ m', CountedStep l x ⟨w', m'⟩) ∧
    (∀ w, (worldSystem K O W bits).Reachable w →
      ∃ m, (countedSystem K O W bits l).Reachable ⟨w, m⟩) ∧
    ∀ x x', (countedSystem K O W bits l).Reachable x → CountedStep l x x' →
      World.Step x.world x'.world ∨ World.Stale x.world x'.world :=
  ⟨fun _ _ hx hs => (countedSystem_sound hx).exists_step hs,
    fun _ hw => ArcWorld.Sound.exists_run l hw,
    fun _ _ hx hs => (countedSystem_sound hx).step_or_stale hs⟩

/-- **Old counts do no harm.** Whatever the orderings are, the newest count of a slot is the number
of its handles; who can read a one is the only holder; nothing observes, publishes or waits on a
pooled slot; and every slot in use is in a state that the slot system reaches. -/
theorem old_counts_harmless (h : (countedSystem K O W bits l).Reachable x) :
    (∀ i, x.world.arcs.Held i → (x.mem.count i).last.val = x.world.arcs.count i) ∧
    (∀ y i k msg, x.world.arcs.of y = some i →
      (x.mem.count i).Reads (.count i) (x.mem.view y) k msg → msg.val = 1 →
      ∀ z, x.world.arcs.of z = some i → z = y) ∧
    (∀ i ∈ x.world.pool, ∀ y g, x.world.pin y ≠ some (i, g)) ∧
    ∀ i, x.world.arcs.Held i → (slotSystem O W).Reachable (x.world.env, x.world.slots i) := by
  have hx := countedSystem_sound h
  refine ⟨hx.ok.counted, fun y i k msg hy hr hone => ?_, hx.world.inv.pooled.free,
    hx.world.refines⟩
  exact (x.world.arcs.count_eq_one_iff hy).mp (hx.ok.sole_of_reads hy hr hone)

/-- A subject whose observation has come and gone. -/
theorem dropped_observation_counted : ∃ x : ArcWorld Nat Nat Nat 64, x.world.obs 0 = .gone 1 none ∧
    (x.mem.count 0).last.val = x.world.arcs.count 0 := by
  have h₀ : (countedSystem Nat Nat Nat 64 ⟨.standard, .relaxed, .acquire⟩).Reachable _ :=
    .init ⟨⟨fun _ => false, 0⟩, rfl⟩
  have h₁ := h₀.step (.subject 7 (by decide))
  have h₂ := h₁.step (.observe 7 (by decide))
  have h₃ := h₂.step (.dropObs (o := 0) rfl fun i t hact => by
    rcases i with _ | i <;> cases hact)
  exact ⟨_, rfl, (old_counts_harmless h₃).1 0 ⟨.subject 1, rfl⟩⟩

/-- **Who is refused although it is alone.** An observation that is the only holder of its slot can
be refused by `into_outcome` exactly when it has not seen the drop of the last other handle. -/
theorem sole_refused_iff (h : (countedSystem K O W bits l).Reachable x) {o : ObsId} {i : SlotId}
    {g : Gen} (ho : x.world.obs o = .live i g) (hone : x.world.arcs.count i = 1) :
    (∃ k msg, (x.mem.count i).Reads (.count i) (x.mem.view (.obs o)) k msg ∧
      (x.world.intoOutcomeSeeing o i g msg.val).1.obs o = .refused i g) ↔
    x.mem.view (.obs o) (.count i) < (x.mem.count i).top := by
  have hx := countedSystem_sound h
  have hof := hx.of_obs (o := o) (i := i) (g := g) (by rw [ho]; rfl)
  have hbound := hx.ok.bounded (.obs o) i
  constructor
  · intro hread
    obtain ⟨k, msg, hr, hrefused⟩ := hread
    by_contra hge
    -- only the newest message is left to read, and it is one
    have hle := hr.le_top
    have hfresh := hr.fresh
    have htop : k = (x.mem.count i).top := by omega
    have hmsg := hr.mem
    rw [htop, History.getElem?_top] at hmsg
    have hval : msg.val = 1 := by
      rw [← Option.some.inj hmsg, hx.ok.counted i ⟨_, hof⟩, hone]
    rw [hval] at hrefused
    simp [intoOutcomeSeeing, World.unwrapSlot] at hrefused
  · intro hlt
    have hsome : x.mem.view (.obs o) (.count i) < (x.mem.count i).messages.length := by
      rw [History.length_messages]
      omega
    have hget := List.getElem?_eq_getElem hsome
    have htwo := hx.ok.many _ i hof _ _ le_rfl hlt hget
    refine ⟨_, _, ⟨le_rfl, hget⟩, ?_⟩
    rw [intoOutcomeSeeing, if_neg (by omega)]
    exact Function.update_self ..

/-- The publisher is gone, and the observation has not heard of it. -/
theorem sole_refused : ∃ x : ArcWorld Nat Nat Nat 64, x.world.arcs.count 0 = 1 ∧
    ∃ k msg, (x.mem.count 0).Reads (.count 0) (x.mem.view (.obs 0)) k msg ∧
      (x.world.intoOutcomeSeeing 0 0 1 msg.val).1.obs 0 = .refused 0 1 := by
  have h₀ : (countedSystem Nat Nat Nat 64 ⟨.standard, .acquire, .acquire⟩).Reachable _ :=
    .init ⟨⟨fun _ => false, 0⟩, rfl⟩
  have h₁ := h₀.step .pair
  have h₂ := h₁.step (.aside (.dropPublisher (g := 1) rfl))
  have h₃ := h₂.step (.releaseSubject (g := 1) rfl)
  exact ⟨_, rfl, (sole_refused_iff h₃ rfl rfl).mpr (by decide)⟩

end Observe
