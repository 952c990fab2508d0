import Observe.Memory
import Observe.Protocol.Safety

/-!
# Loads that miss the publication

A load may return a pending word behind the publication.  The call goes on as it would have before
the publication, and the invariants of the interleaved model survive that: nothing is stored behind
the drain as long as a recheck does not miss it, and a future that has missed the publication has
recorded its wakers as on a pending slot.
-/

namespace Observe

variable {O W : Type}

/-! ## Where a call goes that has missed the publication -/

inductive ThreadPc.Missed : ThreadPc O W → ThreadPc O W → Prop where
  | tryGet : Missed .tryGet (.returned .none)
  | check (c : Section W) : Missed (.check c) (.setBit c)
  | recheckWait : Missed (.recheck (.wait none)) (.unlock .park)
  | recheckTimed (d : Nat) : Missed (.recheck (.wait (some d))) (.unlock (.clock d))
  | recheckRegister (w : W) : Missed (.recheck (.register w)) (.store w)

namespace ThreadPc.Missed

variable {k k' : ThreadPc O W}

theorem active (h : k.Missed k') : k.active = true := by
  cases h <;> rfl

/-- A miss neither takes nor gives back the mutex. -/
theorem holds (h : k.Missed k') : k'.holds = k.holds := by
  cases h <;> rfl

theorem announced (h : k.Missed k') : k'.announced = true → k.announced = true := by
  cases h <;> simp [ThreadPc.announced]

theorem announced_of_holds (h : k.Missed k') (hh : k.holds = true) : k.announced = true := by
  cases h <;> first | rfl | cases hh

/-- Whoever misses the publication goes on neither to the cell nor to a new entry. -/
theorem unseen (h : k.Missed k') : k'.seen = false ∧ k'.faulty = false ∧ k'.enqueued = false := by
  cases h <;> exact ⟨rfl, rfl, rfl⟩

theorem holds_of_rechecked (h : k.Missed k') (hr : k'.rechecked = true) : k.holds = true := by
  rw [← h.holds]
  exact ThreadPc.holds_of_rechecked hr

theorem enqueued_of_parked (h : k.Missed k') (hp : k'.parked = true) : k.enqueued = true := by
  cases h <;> first | rfl | cases hp

theorem waiting (h : k.Missed k') (hw : k.waiting = true) : k'.waiting = true := by
  cases h with
  | check c => cases c <;> first | rfl | cases hw
  | _ => first | rfl | cases hw

/-- `register_waker` does not answer by a miss. -/
theorem not_answer (h : k.Missed k') (w : W) : k' ≠ .unlock (.returned (.registered w false)) := by
  cases h <;> simp

end ThreadPc.Missed

/-- What a future has registered is recorded or about to be, as on a pending slot. -/
structure Fut.Unseen [WillWake W] (pc : FutPc O W) (x : Fut W) : Prop where
  kept : ∀ a, known x.stored a = true →
    known x.wakers a = true ∨ ∃ w, pc.unrecorded = some w ∧ willWake w a = true
  settled : ∀ w, pc.unrecorded = some w → known x.stored w = true

section Loads

variable [WillWake W] {t : Tid} {f : FutId} {e e' : Env} {s s' : SlotSys O W} {b : StateWord}
  {o : Lib.MemOrder}

/-- A load by a thread moves the thread only, and by the bit that it has read. -/
theorem ThreadStep.load (h : ThreadStep t e (Weak.present s b) e' s')
    (ha : (s.thr t).access = .load o) :
    e' = e ∧ ∃ k, Weak.present s' s.slot.state = s.goThr t k ∧
      ((b.completed = false ∧ (s.thr t).Missed k) ∨
        (b.completed = true ∧
          (s.slot.state.completed = true → ThreadStep t e s e (s.goThr t k)))) := by
  have ha' : ((Weak.present s b).thr t).access = .load o := ha
  clear ha
  cases h with
  | tryGet_pending hk hc =>
    exact ⟨rfl, _, rfl, .inl ⟨hc, by rw [show s.thr t = _ from hk]; exact .tryGet⟩⟩
  | tryGet_done hk hc => exact ⟨rfl, _, rfl, .inr ⟨hc, .tryGet_done hk⟩⟩
  | check_pending hk hc =>
    exact ⟨rfl, _, rfl, .inl ⟨hc, by rw [show s.thr t = _ from hk]; exact .check _⟩⟩
  | check_wait_done hk hc => exact ⟨rfl, _, rfl, .inr ⟨hc, .check_wait_done hk⟩⟩
  | check_register_done hk hc => exact ⟨rfl, _, rfl, .inr ⟨hc, .check_register_done hk⟩⟩
  | recheck_wait_pending hk hc =>
    exact ⟨rfl, _, rfl, .inl ⟨hc, by rw [show s.thr t = _ from hk]; exact .recheckWait⟩⟩
  | recheck_timed_pending hk hc =>
    exact ⟨rfl, _, rfl, .inl ⟨hc, by rw [show s.thr t = _ from hk]; exact .recheckTimed _⟩⟩
  | recheck_register_pending hk hc =>
    exact ⟨rfl, _, rfl, .inl ⟨hc, by rw [show s.thr t = _ from hk]; exact .recheckRegister _⟩⟩
  | recheck_wait_done hk hc => exact ⟨rfl, _, rfl, .inr ⟨hc, .recheck_wait_done hk⟩⟩
  | recheck_register_done hk hc => exact ⟨rfl, _, rfl, .inr ⟨hc, .recheck_register_done hk⟩⟩
  -- the other steps do not load the state word
  | _ => simp_all [ThreadPc.access]

inductive Fut.Missed (x : Fut W) : FutPc O W → FutPc O W → Fut W → Prop where
  | pollKnown (w : W) (hk : known x.wakers w = true) : Missed x (.poll w) (.poll2 w true) x
  | pollNew (w : W) (hk : known x.wakers w = false) : Missed x (.poll w) (.check w) x
  | check (w : W) : Missed x (.check w) (.setBit w) x
  | recheck (w : W) : Missed x (.recheck w) (.store w) x
  | poll2 (w : W) (b : Bool) : Missed x (.poll2 w b) .pending
      { x with wakers := if b then x.wakers else x.wakers ++ [WillWake.clone w], last := some w }

/-- A load by a future moves the future only, and by the bit that it has read. -/
theorem FutStep.load (h : FutStep f (Weak.present s b) s') (ha : (s.fpc f).access = .load o) :
    ∃ k x, Weak.present s' s.slot.state = (s.setFut f x).goFut f k ∧
      ((b.completed = false ∧ (s.fut f).Missed (s.fpc f) k x) ∨
        (b.completed = true ∧
          (s.slot.state.completed = true → FutStep f s ((s.setFut f x).goFut f k)))) := by
  have ha' : ((Weak.present s b).fpc f).access = .load o := ha
  clear ha
  -- most loads leave the record as it is
  have hsame (k : FutPc O W) : s.goFut f k = (s.setFut f (s.fut f)).goFut f k := by simp
  cases h with
  | poll_done hk hc =>
    exact ⟨_, s.fut f, hsame _, .inr ⟨hc, fun hd => hsame _ ▸ .poll_done hk hd⟩⟩
  | poll_known hk hc hw =>
    exact ⟨_, s.fut f, hsame _, .inl ⟨hc, by rw [show s.fpc f = _ from hk]; exact .pollKnown _ hw⟩⟩
  | poll_new hk hc hw =>
    exact ⟨_, s.fut f, hsame _, .inl ⟨hc, by rw [show s.fpc f = _ from hk]; exact .pollNew _ hw⟩⟩
  | check_pending hk hc =>
    exact ⟨_, s.fut f, hsame _, .inl ⟨hc, by rw [show s.fpc f = _ from hk]; exact .check _⟩⟩
  | check_done hk hc =>
    exact ⟨_, s.fut f, hsame _, .inr ⟨hc, fun hd => hsame _ ▸ .check_done hk hd⟩⟩
  | recheck_pending hk hc =>
    exact ⟨_, s.fut f, hsame _, .inl ⟨hc, by rw [show s.fpc f = _ from hk]; exact .recheck _⟩⟩
  | recheck_done hk hc =>
    exact ⟨_, s.fut f, hsame _, .inr ⟨hc, fun hd => hsame _ ▸ .recheck_done hk hd⟩⟩
  | poll2_done hk hc =>
    exact ⟨_, s.fut f, hsame _, .inr ⟨hc, fun hd => hsame _ ▸ .poll2_done hk hd⟩⟩
  | poll2_pending hk hc =>
    exact ⟨_, _, rfl, .inl ⟨hc, by rw [show s.fpc f = _ from hk]; exact .poll2 _ _⟩⟩
  | _ => simp_all [FutPc.access]

/-- Nothing is on its way to the record, so the record is complete. -/
theorem Fut.Unseen.complete {pc k : FutPc O W} {x : Fut W} (hu : Fut.Unseen pc x)
    (hpc : pc.unrecorded = none) (hk : k.unrecorded = none) : Fut.Unseen k x where
  kept a ha := by
    rcases hu.kept a ha with hrec | ⟨w, hw, -⟩
    · exact .inl hrec
    · rw [hpc] at hw
      cases hw
  settled w hw := by
    rw [hk] at hw
    cases hw

/-- A future that reads pending words only keeps its record in order. -/
theorem FutStep.unseen (h : FutStep f s s')
    (hload : ∀ o, (s.fpc f).access = .load o → s.slot.state.completed = false)
    (hu : Fut.Unseen (s.fpc f) (s.fut f)) : Fut.Unseen (s'.fpc f) (s'.fut f) := by
  have hdone (o : Lib.MemOrder) (ho : (s.fpc f).access = .load o)
      (hc : s.slot.state.completed = true) : False := by
    rw [hload o ho] at hc
    cases hc
  cases h with
  | poll_done hpc hc => exact (hdone .acquire (by rw [hpc]; rfl) hc).elim
  | check_done hpc hc => exact (hdone .acquire (by rw [hpc]; rfl) hc).elim
  | recheck_done hpc hc => exact (hdone .seqCst (by rw [hpc]; rfl) hc).elim
  | poll2_done hpc hc => exact (hdone .acquire (by rw [hpc]; rfl) hc).elim
  -- the waker that is stored now is recorded at the end of the poll
  | @store w ws hpc hr =>
    rw [hpc] at hu
    simp only [SlotSys.goFut, SlotSys.setFut, SlotSys.noteStored, SlotSys.setRegistry,
      Function.update_self]
    refine ⟨fun a ha => ?_, fun w' hw' => ?_⟩
    · rw [known_cons, Bool.or_eq_true] at ha
      rcases ha with ha | ha
      · exact .inr ⟨w, rfl, ha⟩
      · rcases hu.kept a ha with hrec | ⟨w', hw', -⟩
        · exact .inl hrec
        · cases hw'
    · cases hw'
      simp [WillWake.refl]
  | @unlock_poll2 w hpc =>
    rw [hpc] at hu
    simp only [SlotSys.goFut, SlotSys.letGo, Function.update_self]
    exact ⟨hu.kept, hu.settled⟩
  | @poll2_pending w b hpc hc =>
    rw [hpc] at hu
    simp only [SlotSys.goFut, SlotSys.setFut, Function.update_self]
    refine ⟨fun a ha => .inl ?_, fun w' hw' => by cases hw'⟩
    rcases hu.kept a ha with hrec | ⟨w', hw', hwa⟩
    · cases b <;> simp [hrec]
    · cases b with
      | true => cases hw'
      | false =>
        cases hw'
        simp [hwa]
  | @loadReg_null c hpc hn =>
    rw [hpc] at hu
    simpa using hu.complete (k := .casReg c) (by cases c <;> rfl) (by cases c <;> rfl)
  | @loadReg_some c hpc hn =>
    rw [hpc] at hu
    simpa using hu.complete (k := .acquire c) (by cases c <;> rfl) (by cases c <;> rfl)
  | @casReg c hpc =>
    rw [hpc] at hu
    simpa using hu.complete (k := .acquire c) (by cases c <;> rfl) (by cases c <;> rfl)
  | store_overflow hpc hr =>
    rw [hpc] at hu
    have hnext := hu.complete (k := (.unlock .panicked : FutPc O W)) rfl rfl
    simp only [SlotSys.goFut, SlotSys.setFut, Function.update_self]
    exact ⟨hnext.kept, hnext.settled⟩
  | @read g v hpc hv =>
    rw [hpc] at hu
    have hnext := hu.complete (k := .ready v) rfl rfl
    simp only [SlotSys.goFut, SlotSys.setFut, Function.update_self]
    exact ⟨hnext.kept, hnext.settled⟩
  | remove hpc =>
    rw [hpc] at hu
    have hnext := hu.complete (k := (.unlock .dead : FutPc O W)) rfl rfl
    simp only [SlotSys.goFut, SlotSys.setFut, SlotSys.setRegistry, Function.update_self]
    exact ⟨hnext.kept, hnext.settled⟩
  -- the other steps leave the record alone, and nothing is on its way there
  | _ hpc =>
    rw [hpc] at hu
    simp only [SlotSys.goFut, SlotSys.letGo, SlotSys.hold, SlotSys.setState, Function.update_self]
    exact hu.complete rfl rfl

end Loads

/-! ## The invariants of the interleaved model -/

namespace SlotSys

variable {s : SlotSys O W} {t : Tid} {f : FutId}

/-- A thread may go where it holds the mutex as before and has announced no more than before. -/
theorem Wf.moveThr (hw : s.Wf) {k : ThreadPc O W} (hh : k.holds = (s.thr t).holds)
    (ha : k.announced = true → (s.thr t).announced = true) (hs : k.seen = false)
    (hf : k.faulty = false) (hr : k.rechecked = true → s.comp.taken = false)
    (hp : s.comp.taken = true → (s.thr t).pushed = true → k.pushed = true) :
    (s.goThr t k).Wf := by
  have hall (P : Tid → ThreadPc O W → Prop) (hk : P t k) (h : ∀ u, P u (s.thr u)) :
      ∀ u, P u (Function.update s.thr t k u) :=
    (Function.forall_update_iff s.thr P).mpr ⟨hk, fun u _ => h u⟩
  refine ⟨⟨?mutex, hw.mutex.fut, hw.mutex.comp⟩,
    ⟨hw.published.completed, hw.published.outcomeValid, hw.published.cell, ?seen,
      hw.published.fut, ?live, hw.published.futLive⟩,
    ⟨?announced, hw.announced.fut, hw.announced.registry⟩, ⟨?rechecked, hw.drained.fut, ?pushed⟩⟩
  case mutex =>
    apply hall (fun u k => k.holds = true ↔ s.held = some (.thread u)) _ hw.mutex.thr
    rw [hh]
    exact hw.mutex.thr t
  case seen =>
    apply hall (fun _ k => k.seen = true → s.slot.state.completed = true) _ hw.published.thr
    rw [hs]
    intro h
    cases h
  case live => exact hall (fun _ k => k.faulty = false) hf hw.published.thrLive
  case announced =>
    apply hall (fun _ k => k.announced = true → s.slot.state.hasWaiter = true) _ hw.announced.thr
    intro h
    exact hw.announced.thr t (ha h)
  case rechecked =>
    exact hall (fun _ k => k.rechecked = true → s.comp.taken = false) hr hw.drained.thr
  case pushed =>
    intro htk x hx
    obtain ⟨u, hxu, hu⟩ := hw.drained.registry htk x hx
    refine ⟨u, hxu, ?_⟩
    by_cases hut : u = t
    · subst hut
      simpa using hp htk hu
    · simpa [hut] using hu

/-- A future that goes on at `k` keeps the slot well formed. -/
theorem Wf.moveFut (hw : s.Wf) {k : FutPc O W} (hh : k.holds = (s.fpc f).holds)
    (ha : k.announced = true → (s.fpc f).announced = true) (hs : k.seen = false)
    (hf : k.faulty = false) (hr : k.rechecked = true → s.comp.taken = false) :
    (s.goFut f k).Wf := by
  have hall (P : FutId → FutPc O W → Prop) (hk : P f k) (h : ∀ i, P i (s.fpc i)) :
      ∀ i, P i (Function.update s.fpc f k i) :=
    (Function.forall_update_iff s.fpc P).mpr ⟨hk, fun i _ => h i⟩
  refine ⟨⟨hw.mutex.thr, ?mutex, hw.mutex.comp⟩,
    ⟨hw.published.completed, hw.published.outcomeValid, hw.published.cell, hw.published.thr,
      ?seen, hw.published.thrLive, ?live⟩,
    ⟨hw.announced.thr, ?announced, hw.announced.registry⟩,
    ⟨hw.drained.thr, ?rechecked, hw.drained.registry⟩⟩
  case mutex =>
    apply hall (fun i k => k.holds = true ↔ s.held = some (.future i)) _ hw.mutex.fut
    rw [hh]
    exact hw.mutex.fut f
  case seen =>
    apply hall (fun _ k => k.seen = true → s.slot.state.completed = true) _ hw.published.fut
    rw [hs]
    intro h
    cases h
  case live => exact hall (fun _ k => k.faulty = false) hf hw.published.futLive
  case announced =>
    apply hall (fun _ k => k.announced = true → s.slot.state.hasWaiter = true) _ hw.announced.fut
    intro h
    exact hw.announced.fut f (ha h)
  case rechecked =>
    exact hall (fun _ k => k.rechecked = true → s.comp.taken = false) hr hw.drained.fut

/-- A thread goes to park, or stays on its way through the loop, with its entry where it was. -/
theorem Awake.moveThr {e : Env} (ha : s.Awake e) {k : ThreadPc O W}
    (henq : k.enqueued = false)
    (hpark : k.parked = true → (s.thr t).enqueued = true ∧ s.comp.taken = false)
    (hwait : (s.thr t).waiting = true → k.waiting = true) : (s.goThr t k).Awake e := by
  have hall (P : Tid → ThreadPc O W → Prop) (hk : P t k) (h : ∀ u, P u (s.thr u)) :
      ∀ u, P u (Function.update s.thr t k u) :=
    (Function.forall_update_iff s.thr P).mpr ⟨hk, fun u _ => h u⟩
  constructor
  case pushed =>
    apply hall (fun u k => k.enqueued = true → s.slot.registry.queued u = true) _ ha.pushed
    rw [henq]
    intro h
    cases h
  case parked =>
    apply hall (fun u k => k.parked = true → s.comp.taken = false →
      s.slot.registry.queued u = true) _ ha.parked
    intro h _
    exact ha.pushed t (hpark h).1
  case token =>
    apply hall (fun u k => k.parked = true → s.comp.taken = true →
      e.token u = true ∨ s.comp.rest.queued u = true) _ ha.token
    intro h htk
    rw [(hpark h).2] at htk
    cases htk
  case inside =>
    apply hall (fun u k => s.slot.registry.queued u = true →
      k.waiting = true ∨ (s.slot.state.completed = true ∧ s.comp.taken = false)) _ ha.inside
    intro hq
    exact (ha.inside t hq).imp_left hwait

variable [WillWake W] {e : Env}

/-- A thread that misses the publication, in its recheck only while the drain is still to come. -/
theorem Safe.missThr (hs : s.Safe e) {k : ThreadPc O W} (hk : (s.thr t).Missed k)
    (hdrain : (s.thr t).holds = true → s.comp.taken = false) : (s.goThr t k).Safe e := by
  obtain ⟨hw, hr, ha, ht, hwk, hn⟩ := hs
  obtain ⟨hseen, hfaulty, henq⟩ := hk.unseen
  have hwf : (s.goThr t k).Wf := by
    apply hw.moveThr hk.holds hk.announced hseen hfaulty
    · intro h
      exact hdrain (hk.holds_of_rechecked h)
    · intro htk hp
      rw [hdrain (ThreadPc.holds_of_pushed hp)] at htk
      cases htk
  have htags : (s.goThr t k).Tags := by
    refine ht.congr (fun u hu => ?_) rfl rfl rfl rfl rfl rfl
    by_cases hut : u = t
    · rw [hut]
      exact ht.via t hk.active
    · exact ht.via u (by simpa [hut] using hu)
  have hawake : (s.goThr t k).Awake e := by
    apply hwk.moveThr henq _ hk.waiting
    intro hp
    have hq := hk.enqueued_of_parked hp
    exact ⟨hq, hdrain (ThreadPc.holds_of_enqueued hq)⟩
  have hanswered : (s.goThr t k).Answered := by
    refine ⟨hn.answered, fun u w hu => ?_⟩
    by_cases hut : u = t
    · exact absurd (by simpa [hut] using hu) (hk.not_answer w)
    · exact hn.thr u w (by simpa [hut] using hu)
  exact ⟨hwf, hr.congr rfl rfl rfl rfl rfl, ha.congr rfl rfl rfl rfl rfl fun _ => rfl, htags,
    hawake, hanswered⟩

end SlotSys

/-! ## Futures -/

section Futures

variable [WillWake W]

namespace Fut.Missed

variable {x x' : Fut W} {k k' : FutPc O W}

/-- A future's miss neither takes nor gives back the mutex. -/
theorem holds (h : x.Missed k k' x') : k'.holds = k.holds := by
  cases h <;> rfl

theorem announced (h : x.Missed k k' x') : k'.announced = true → k.announced = true := by
  cases h <;> simp [FutPc.announced]

theorem announced_of_holds (h : x.Missed k k' x') (hh : k.holds = true) :
    k.announced = true := by
  cases h <;> first | rfl | cases hh

/-- A future that misses the publication does not go on to the cell. -/
theorem unseen (h : x.Missed k k' x') : k'.seen = false ∧ k'.faulty = false := by
  cases h <;> exact ⟨rfl, rfl⟩

theorem holds_of_rechecked (h : x.Missed k k' x') (hr : k'.rechecked = true) :
    k.holds = true := by
  rw [← h.holds]
  exact FutPc.holds_of_rechecked hr

theorem active (h : x.Missed k k' x') : k.active = true := by
  cases h <;> rfl

/-- A future that misses the publication has not left the registry. -/
theorem gone (h : x.Missed k k' x') : k.gone = false ∧ k'.gone = false := by
  cases h <;> exact ⟨rfl, rfl⟩

theorem frame (h : x.Missed k k' x') : x'.gen = x.gen ∧ x'.stored = x.stored := by
  cases h <;> exact ⟨rfl, rfl⟩

end Fut.Missed

/-- The waker of a pending poll is recorded, on a slot that has completed in the meantime. -/
theorem Fut.Ok.recordLate {x : Fut W} {w : W} {b : Bool} (h : x.Ok true (.poll2 w b : FutPc O W))
    (hst : known x.stored w = true) :
    { x with wakers := if b then x.wakers else x.wakers ++ [WillWake.clone w], last := some w }.Ok true
      (.pending : FutPc O W) where
  recorded a ha := by
    have hor : known x.wakers a = true ∨ willWake w a = true := by
      cases b with
      | true => exact .inl ha
      | false => simpa using ha
    rcases hor with hrec | hwa
    · exact h.recorded a hrec
    · show known x.stored a = true
      rw [← known_congr hwa]
      exact hst
  kept hc := by cases hc
  new w' hw' := by cases hw'
  settled w' hw' := by cases hw'
  repeated w' hw' := by cases hw'
  cancelled := h.cancelled
  early := h.early
  prompt hp := by
    -- a future that has left does not poll
    have hleft := h.early (h.prompt hp).1
    rw [h.cancelled] at hleft
    cases hleft
  left hc := by cases hc
  last w' hw' := by
    cases hw'
    exact hst

/-- What a future records when it misses the publication is in order. -/
theorem Fut.Missed.ok {x x' : Fut W} {k k' : FutPc O W} {c : Bool} (h : x.Missed k k' x')
    (hok : x.Ok c k) (hu : Fut.Unseen k x) : x'.Ok c k' := by
  cases h with
  | pollKnown w hk =>
    refine hok.move (.inr (.inr rfl)) (fun w' hw' => ?_) (fun w' hw' => ?_) (fun w' hw' => ?_) rfl
    · cases hw'
    · cases hw'
    · cases hw'
      exact hk
  | pollNew w hk =>
    -- the waker is not recorded, so it is not registered either
    have hnew : known x.stored w = false := by
      by_contra hst
      rcases hu.kept w (by simpa using hst) with hrec | ⟨w', hw', -⟩
      · rw [hrec] at hk
        cases hk
      · cases hw'
    refine hok.move (.inr (.inr rfl)) (fun w' hw' => ?_) (fun w' hw' => ?_) (fun w' hw' => ?_) rfl
    · cases hw'
      exact hnew
    · cases hw'
    · cases hw'
  | check w => exact hok.moveOn rfl rfl (fun w' hw' => by cases hw') rfl
  | recheck w => exact hok.moveOn rfl rfl (fun w' hw' => by cases hw') rfl
  | poll2 w b =>
    cases c with
    | false => exact hok.record
    | true =>
      apply hok.recordLate
      cases b with
      | true => exact hok.recorded w (hok.repeated w rfl)
      | false => exact hu.settled w rfl

/-- A future that misses the publication, in its recheck only while the drain is still to come. -/
theorem SlotSys.Safe.missFut {e : Env} {s : SlotSys O W} {f : FutId} (hs : s.Safe e)
    {k : FutPc O W} {x : Fut W} (hk : (s.fut f).Missed (s.fpc f) k x)
    (hu : Fut.Unseen (s.fpc f) (s.fut f))
    (hdrain : (s.fpc f).holds = true → s.comp.taken = false) :
    ((s.setFut f x).goFut f k).Safe e := by
  obtain ⟨hw, hr, ha, ht, hwk, hn⟩ := hs
  obtain ⟨hseen, hfaulty⟩ := hk.unseen
  have hf : f ∈ s.futs := hr.mem f hk.active
  have hok := hr.ok f hf
  have hok' : x.Ok s.slot.state.completed k := hk.ok hok hu
  have hwf : (s.goFut f k).Wf := by
    apply hw.moveFut hk.holds hk.announced hseen hfaulty
    intro h
    exact hdrain (hk.holds_of_rechecked h)
  have hown (w : W) : ((s.setFut f x).goFut f k).owners w = s.owners w := by
    refine SlotSys.owners_congr rfl fun i _ => ?_
    by_cases hif : i = f
    · subst hif
      rw [SlotSys.Accounts.owns_of_not_gone hok hk.gone.1]
      show (Function.update s.fut i x i).owns w = _
      rw [Function.update_self, SlotSys.Accounts.owns_of_not_gone hok' hk.gone.2, hk.frame.2]
    · simp [hif]
  exact ⟨hwf.congr rfl rfl rfl rfl rfl rfl rfl, hr.goFut hf hok' hk.frame.1,
    ha.congr rfl rfl rfl rfl rfl hown, ht.congr ht.via rfl rfl rfl rfl rfl rfl,
    hwk.congr (fun _ => .inl rfl) (fun _ _ => id) rfl rfl rfl rfl, hn.congr rfl rfl fun _ => .inl rfl⟩

end Futures

/-! ## The registry pointer -/

section Pointer

variable [WillWake W] {t : Tid} {f : FutId} {e e' : Env} {s s' : SlotSys O W} {b : Bool}
  {o : Lib.MemOrder}

namespace SlotSys.Safe

/-- A thread that is still to look up the registry does so by its compare-exchange. -/
theorem casThr (hs : s.Safe e) {c : Section W} (hpc : s.thr t = .loadReg c) :
    (s.goThr t (.casReg c)).Safe e := by
  obtain ⟨hw, hr, ha, ht, hwk, hn⟩ := hs
  have hwf : (s.goThr t (.casReg c)).Wf := by
    apply hw.moveThr
    · rw [hpc]; rfl
    · intro _
      rw [hpc]; rfl
    · rfl
    · rfl
    · intro h
      cases h
    · intro _ hp
      rw [hpc] at hp
      cases hp
  have htags : (s.goThr t (.casReg c)).Tags := by
    refine ht.congr (fun u hu => ?_) rfl rfl rfl rfl rfl rfl
    by_cases hut : u = t
    · rw [hut]
      exact ht.via t (by rw [hpc]; rfl)
    · exact ht.via u (by simpa [hut] using hu)
  have hawake : (s.goThr t (.casReg c)).Awake e := by
    apply hwk.moveThr rfl
    · intro h
      cases h
    · intro h
      rw [hpc] at h
      cases c <;> first | rfl | cases h
  refine ⟨hwf, hr.congr rfl rfl rfl rfl rfl, ha.congr rfl rfl rfl rfl rfl fun _ => rfl, htags,
    hawake, hn.congr rfl rfl fun u => ?_⟩
  by_cases hut : u = t
  · exact .inr (by simp [hut, ThreadPc.holds])
  · exact .inl (by simp [hut])

/-- A future that has read an old null pointer goes on to its compare-exchange, and the slot stays
safe. -/
theorem casFut (hs : s.Safe e) {c : FutSection W} (hpc : s.fpc f = .loadReg c) :
    (s.goFut f (.casReg c)).Safe e := by
  obtain ⟨hw, hr, ha, ht, hwk, hn⟩ := hs
  have hf : f ∈ s.futs := hr.mem f (by rw [hpc]; rfl)
  have hok := hr.ok f hf
  rw [hpc] at hok
  have hwf : (s.goFut f (.casReg c)).Wf := by
    apply hw.moveFut
    · rw [hpc]; rfl
    · intro h
      rw [hpc]
      cases c <;> first | rfl | cases h
    · rfl
    · rfl
    · intro h
      cases h
  have hok' : (s.fut f).Ok s.slot.state.completed (.casReg c : FutPc O W) := by
    apply hok.moveOn
    · cases c <;> rfl
    · cases c <;> rfl
    · intro w hw'
      cases hw'
    · cases c <;> rfl
  have hrec : (s.goFut f (.casReg c)).Records := by simpa using hr.goFut hf hok' rfl
  exact ⟨hwf, hrec, ha.congr rfl rfl rfl rfl rfl fun _ => rfl,
    ht.congr ht.via rfl rfl rfl rfl rfl rfl,
    hwk.congr (fun _ => .inl rfl) (fun _ _ => id) rfl rfl rfl rfl, hn.congr rfl rfl fun _ => .inl rfl⟩

/-- A completion that has read an old null pointer goes on to its compare-exchange, and the slot
stays safe. -/
theorem casComp (hs : s.Safe e) {g : Gen} (hpc : s.comp = .loadReg g) :
    (s.goComp (.casReg g)).Safe e := by
  -- as the compare-exchange of a slot whose pointer is not set
  obtain ⟨hw, hr, ha, ht, hwk, hn⟩ := hs
  have hcell := hw.published.cell
  have hcomp := hw.published.completed
  have hvalid := hw.published.outcomeValid
  have hmutex := hw.mutex.comp
  have hntk : s.comp.taken = false := by rw [hpc]; rfl
  rw [hpc] at hcell hcomp hvalid hmutex
  have hwf : (s.goComp (.casReg g)).Wf :=
    ⟨⟨hw.mutex.thr, hw.mutex.fut, hmutex⟩,
      ⟨hcomp, hvalid, hcell, hw.published.thr, hw.published.fut, hw.published.thrLive,
        hw.published.futLive⟩,
      ⟨hw.announced.thr, hw.announced.fut, hw.announced.registry⟩,
      ⟨fun _ _ => rfl, fun _ _ => rfl, fun h => by cases h⟩⟩
  exact ⟨hwf, hr.congr rfl rfl rfl rfl rfl,
    ha.congr rfl (by rw [hpc]; rfl) (by rw [hpc]; rfl) rfl rfl fun _ => rfl,
    ht.congr ht.via rfl rfl (by rw [hpc]; rfl) rfl rfl rfl,
    hwk.congr (fun _ => .inl rfl) (fun _ _ => id) rfl rfl (by rw [hpc]; rfl) (by rw [hpc]; rfl),
    hn.congr rfl rfl fun _ => .inl rfl⟩

end SlotSys.Safe

omit [WillWake W] in
/-- The pointer that a process is presented with is the one in the slot, or null. -/
theorem presentPtr_waiters (h : (Weak.presentPtr s b).slot.waiters ≠ none) :
    b = true ∧ s.slot.waiters ≠ none := by
  cases b with
  | false => exact absurd rfl h
  | true => exact ⟨rfl, h⟩

/-- A load that misses the pointer is made good by the compare-exchange. -/
theorem SlotSys.Safe.loadPtr {p : Proc} (hs : s.Safe e) (ha : s.access p = .loadPtr o)
    (h : ProcStep p e (Weak.presentPtr s b) e' s') :
    ({ s' with slot := s.slot } : SlotSys O W).Safe e' := by
  cases p with
  | thread t =>
    have ha' : ((Weak.presentPtr s b).thr t).access = .loadPtr o := ha
    have h : ThreadStep t e (Weak.presentPtr s b) e' s' := h
    clear ha
    cases h with
    | loadReg_null hpc hn => exact hs.casThr hpc
    | loadReg_some hpc hn =>
      exact hs.callStep (.thread t (.loadReg_some hpc (presentPtr_waiters hn).2))
    | _ => simp_all [ThreadPc.access]
  | future f =>
    have ha' : ((Weak.presentPtr s b).fpc f).access = .loadPtr o := ha
    obtain ⟨rfl, h⟩ := h
    clear ha
    cases h with
    | loadReg_null hpc hn => exact hs.casFut hpc
    | loadReg_some hpc hn =>
      exact hs.callStep (.future f rfl (.loadReg_some hpc (presentPtr_waiters hn).2))
    | _ => simp_all [FutPc.access]
  | completer =>
    have ha' : (Weak.presentPtr s b).comp.access = .loadPtr o := ha
    have h : CompStep e (Weak.presentPtr s b) e' s' := h
    clear ha
    cases h with
    | loadReg_null hpc hn => exact hs.casComp hpc
    | loadReg_some hpc hn =>
      exact hs.callStep (.complete (.loadReg_some hpc (presentPtr_waiters hn).2))
    | _ => simp_all [CompPc.access]

end Pointer

end Observe
