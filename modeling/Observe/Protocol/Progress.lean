import Observe.Protocol.Safety

/-!
# Progress

The calls of a slot never block each other for good.  A state in which no call can move has no call
in flight but threads that wait for an outcome still to come; and once the outcome is published the
calls have a bounded number of steps left, whatever the schedule, and the last of them leaves nobody
inside.
-/

namespace Observe

variable {O W : Type}

/-! ## The sections of the loop -/

def Section.looping : Section W → Bool
  | .timeout => false
  | _ => true

/-- `wait_timeout` looks at the state word before its deadline only. -/
def ThreadPc.looping : ThreadPc O W → Bool
  | .check c | .setBit c | .recheck c => c.looping
  | _ => true

section Looping

variable [WillWake W] {t : Tid} {e e' : Env} {s s' : SlotSys O W}

/-- A call that deregisters after its timeout does not look at the state word again. -/
theorem ThreadStep.looping (h : ThreadStep t e s e' s') (hl : (s.thr t).looping = true) :
    (s'.thr t).looping = true := by
  cases h <;> simp_all [ThreadPc.looping, Section.looping]

theorem SlotMove.looping {x x' : Env × SlotSys O W} (h : SlotMove x x')
    (hl : ∀ t, (x.2.thr t).looping = true) (t : Tid) : (x'.2.thr t).looping = true := by
  cases h with
  | step h =>
    cases h with
    | thread u h =>
      by_cases hut : t = u
      · subst hut
        exact h.looping (hl t)
      · rw [h.frame.thr t hut]
        exact hl t
    | future f he h =>
      rw [h.frame.thr]
      exact hl t
    | complete h =>
      rw [h.frame.thr]
      exact hl t
  | call u h c hidle hg =>
    by_cases hut : t = u
    · subst hut
      cases c <;> simp [SlotSys.startCall, Call.entry, ThreadPc.looping, Section.looping]
    · simpa [SlotSys.startCall, hut] using hl t
  | @cancel e s f hf hrest =>
    rw [(s.startCancel_frame f).1]
    exact hl t
  | _ => exact hl t

/-- In every reachable state no call looks at the state word behind its timeout. -/
theorem slotSystem_looping {x : Env × SlotSys O W} (h : (slotSystem O W).Reachable x) (t : Tid) :
    (x.2.thr t).looping = true := by
  have hind : (slotSystem O W).Inductive fun x => ∀ t, (x.2.thr t).looping = true := by
    constructor
    · intro x hx u
      obtain ⟨g, hg⟩ := hx
      rw [hg]
      rfl
    · intro x x' hl h
      exact h.looping hl
  exact hind.reachable h t

end Looping

/-! ## Calls that can move -/

section Enabled

variable [WillWake W] {t : Tid} {f : FutId} {e : Env} {s : SlotSys O W}

/-- A thread inside a call can move unless it waits for the mutex or is parked. -/
theorem ThreadStep.enabled (hact : (s.thr t).active = true) (hl : (s.thr t).looping = true)
    (hfree : ∀ c, s.thr t = .acquire c → s.held = none) (hpark : ∀ d, s.thr t ≠ .park d) :
    ∃ e' s', ThreadStep t e s e' s' := by
  cases hpc : s.thr t with
  | tryGet =>
    cases hc : s.slot.state.completed with
    | false => exact ⟨_, _, .tryGet_pending hpc hc⟩
    | true => exact ⟨_, _, .tryGet_done hpc hc⟩
  | check c =>
    cases hc : s.slot.state.completed with
    | false => exact ⟨_, _, .check_pending hpc hc⟩
    | true =>
      cases c with
      | wait d => exact ⟨_, _, .check_wait_done hpc hc⟩
      | register w => exact ⟨_, _, .check_register_done hpc hc⟩
      | timeout => rw [hpc] at hl; cases hl
  | setBit c => exact ⟨_, _, .setBit hpc⟩
  | loadReg c =>
    by_cases hn : s.slot.waiters = none
    · exact ⟨_, _, .loadReg_null hpc hn⟩
    · exact ⟨_, _, .loadReg_some hpc hn⟩
  | casReg c => exact ⟨_, _, .casReg hpc⟩
  | acquire c =>
    have hheld := hfree c hpc
    cases c with
    | wait d => exact ⟨_, _, .acquire_wait hpc hheld⟩
    | register w => exact ⟨_, _, .acquire_register hpc hheld⟩
    | timeout => exact ⟨_, _, .acquire_timeout hpc hheld⟩
  | push d => exact ⟨_, _, .push hpc⟩
  | recheck c =>
    cases hc : s.slot.state.completed with
    | false =>
      cases c with
      | wait d =>
        cases d with
        | none => exact ⟨_, _, .recheck_wait_pending hpc hc⟩
        | some d => exact ⟨_, _, .recheck_timed_pending hpc hc⟩
      | register w => exact ⟨_, _, .recheck_register_pending hpc hc⟩
      | timeout => rw [hpc] at hl; cases hl
    | true =>
      cases c with
      | wait d => exact ⟨_, _, .recheck_wait_done hpc hc⟩
      | register w => exact ⟨_, _, .recheck_register_done hpc hc⟩
      | timeout => rw [hpc] at hl; cases hl
  | store w => exact ⟨_, _, .store hpc⟩
  | dereg => exact ⟨_, _, .dereg hpc⟩
  | readLocked =>
    cases hv : s.slot.outcome with
    | none => exact ⟨_, _, .readLocked_dead hpc hv⟩
    | some gv => exact ⟨_, _, .readLocked hpc hv⟩
  | unlock next =>
    cases next with
    | park => exact ⟨_, _, .unlock_park hpc⟩
    | clock d => exact ⟨_, _, .unlock_clock hpc⟩
    | returned r => exact ⟨_, _, .unlock_return hpc⟩
    | fault => exact ⟨_, _, .unlock_fault hpc⟩
  | clock d =>
    by_cases hnow : e.now < d
    · exact ⟨_, _, .clock_running hpc hnow⟩
    · exact ⟨_, _, .clock_expired hpc (by omega)⟩
  | park d => exact absurd hpc (hpark d)
  | expire => exact ⟨_, _, .expire hpc⟩
  | read =>
    cases hv : s.slot.outcome with
    | none => exact ⟨_, _, .read_dead hpc hv⟩
    | some gv => exact ⟨_, _, .read hpc hv⟩
  | idle => rw [hpc] at hact; cases hact
  | returned r => rw [hpc] at hact; cases hact
  | fault => rw [hpc] at hact; cases hact

/-- A future inside a call can move unless it waits for the mutex. -/
theorem FutStep.enabled (hact : (s.fpc f).active = true)
    (hfree : ∀ c, s.fpc f = .acquire c → s.held = none) : ∃ s', FutStep f s s' := by
  cases hpc : s.fpc f with
  | poll w =>
    cases hc : s.slot.state.completed with
    | true => exact ⟨_, .poll_done hpc hc⟩
    | false =>
      cases hk : known (s.fut f).wakers w with
      | true => exact ⟨_, .poll_known hpc hc hk⟩
      | false => exact ⟨_, .poll_new hpc hc hk⟩
  | check w =>
    cases hc : s.slot.state.completed with
    | false => exact ⟨_, .check_pending hpc hc⟩
    | true => exact ⟨_, .check_done hpc hc⟩
  | setBit w => exact ⟨_, .setBit hpc⟩
  | loadReg c =>
    by_cases hn : s.slot.waiters = none
    · exact ⟨_, .loadReg_null hpc hn⟩
    · exact ⟨_, .loadReg_some hpc hn⟩
  | casReg c => exact ⟨_, .casReg hpc⟩
  | acquire c =>
    have hheld := hfree c hpc
    cases c with
    | register w => exact ⟨_, .acquire_register hpc hheld⟩
    | cancel => exact ⟨_, .acquire_cancel hpc hheld⟩
  | recheck w =>
    cases hc : s.slot.state.completed with
    | false => exact ⟨_, .recheck_pending hpc hc⟩
    | true => exact ⟨_, .recheck_done hpc hc⟩
  | store w =>
    cases hr : s.slot.registry.registerFutureWaker w (s.fut f).gen with
    | none => exact ⟨_, .store_overflow hpc hr⟩
    | some ws => exact ⟨_, .store hpc hr⟩
  | unlock next =>
    cases next with
    | poll2 w => exact ⟨_, .unlock_poll2 hpc⟩
    | panicked => exact ⟨_, .unlock_panicked hpc⟩
    | dead => exact ⟨_, .unlock_dead hpc⟩
  | poll2 w b =>
    cases hc : s.slot.state.completed with
    | true => exact ⟨_, .poll2_done hpc hc⟩
    | false => exact ⟨_, .poll2_pending hpc hc⟩
  | read =>
    cases hv : s.slot.outcome with
    | none => exact ⟨_, .read_dead hpc hv⟩
    | some gv => exact ⟨_, .read hpc hv⟩
  | remove => exact ⟨_, .remove hpc⟩
  | idle => rw [hpc] at hact; cases hact
  | ready v => rw [hpc] at hact; cases hact
  | pending => rw [hpc] at hact; cases hact
  | panicked => rw [hpc] at hact; cases hact
  | dead => rw [hpc] at hact; cases hact
  | fault => rw [hpc] at hact; cases hact

omit [WillWake W] in
/-- A running completion can move unless it waits for the mutex. -/
theorem CompStep.enabled (hrun : s.comp.resting = false)
    (hfree : ∀ g, s.comp = .acquire g → s.held = none) : ∃ e' s', CompStep e s e' s' := by
  cases hpc : s.comp with
  | write g v => exact ⟨_, _, .write hpc⟩
  | publish g v =>
    cases hw : s.slot.state.hasWaiter with
    | false => exact ⟨_, _, .publish_alone hpc hw⟩
    | true => exact ⟨_, _, .publish_waiters hpc hw⟩
  | loadReg g =>
    by_cases hn : s.slot.waiters = none
    · exact ⟨_, _, .loadReg_null hpc hn⟩
    · exact ⟨_, _, .loadReg_some hpc hn⟩
  | casReg g => exact ⟨_, _, .casReg hpc⟩
  | acquire g => exact ⟨_, _, .acquire hpc (hfree g hpc)⟩
  | take g => exact ⟨_, _, .take hpc⟩
  | unlock g ws => exact ⟨_, _, .unlock hpc⟩
  | notify g ws b =>
    cases ws with
    | nil => exact ⟨_, _, .finish hpc⟩
    | cons x ws =>
      cases x with
      | thread t g' => exact ⟨_, _, .unpark hpc⟩
      | waker w p n g' => exact ⟨_, _, .wake false hpc⟩
  | idle => rw [hpc] at hrun; cases hrun
  | returned g b => rw [hpc] at hrun; cases hrun

/-- A step of some call in which no thread leaves its `park` without a token. -/
def RealStep (e : Env) (s : SlotSys O W) (e' : Env) (s' : SlotSys O W) : Prop :=
  CallStep e s e' s' ∧
    ∀ t d, s.thr t = .park d → e.token t = false → s'.thr t = s.thr t

def SlotSys.Stuck (e : Env) (s : SlotSys O W) : Prop := ∀ e' s', ¬ RealStep e s e' s'

namespace SlotSys.Stuck

/-- A stuck call of a thread is parked without its token. -/
theorem thread (hst : s.Stuck e) (hact : (s.thr t).active = true)
    (hl : (s.thr t).looping = true) (hfree : s.held = none ∨ (s.thr t).holds = true) :
    ∃ d, s.thr t = .park d ∧ e.token t = false := by
  have hreal {e' : Env} {s' : SlotSys O W} (h : ThreadStep t e s e' s')
      (hp : ∀ d, s.thr t = .park d → e.token t = true) : False := by
    refine hst e' s' ⟨.thread t h, fun u d hu htok => ?_⟩
    by_cases hut : u = t
    · subst hut
      rw [hp d hu] at htok
      cases htok
    · exact h.frame.thr u hut
  by_cases hpark : ∃ d, s.thr t = .park d
  · obtain ⟨d, hd⟩ := hpark
    refine ⟨d, hd, ?_⟩
    by_contra htok
    exact hreal (.park_token hd (by simpa using htok)) fun _ _ => by simpa using htok
  · have hacq (c : Section W) (hc : s.thr t = .acquire c) : s.held = none := by
      rcases hfree with hfree | hh
      · exact hfree
      · rw [hc] at hh
        cases hh
    obtain ⟨e', s', h⟩ := ThreadStep.enabled (e := e) hact hl hacq fun d hd => hpark ⟨d, hd⟩
    exact (hreal h fun d hd => absurd ⟨d, hd⟩ hpark).elim

/-- No poll and no drop is ever stuck with the mutex free. -/
theorem future (hst : s.Stuck e) (hfree : s.held = none ∨ (s.fpc f).holds = true) :
    (s.fpc f).active = false := by
  by_contra hact
  have hacq (c : FutSection W) (hc : s.fpc f = .acquire c) : s.held = none := by
    rcases hfree with hfree | hh
    · exact hfree
    · rw [hc] at hh
      cases hh
  obtain ⟨s', h⟩ := FutStep.enabled (by simpa using hact) hacq
  exact hst e s' ⟨.future f rfl h, fun u d _ _ => congrFun h.frame.thr u⟩

/-- The completion is never stuck with the mutex free. -/
theorem complete (hst : s.Stuck e) (hfree : s.held = none ∨ s.comp.holds = true) :
    s.comp.resting = true := by
  by_contra hrun
  have hacq (g : Gen) (hc : s.comp = .acquire g) : s.held = none := by
    rcases hfree with hfree | hh
    · exact hfree
    · rw [hc] at hh
      cases hh
  obtain ⟨e', s', h⟩ := CompStep.enabled (e := e) (by simpa using hrun) hacq
  exact hst e' s' ⟨.complete h, fun u d _ _ => congrFun h.frame.thr u⟩

/-- Whoever holds the mutex can move. -/
theorem free (hst : s.Stuck e) (hm : s.Mutex) (hl : ∀ t, (s.thr t).looping = true) :
    s.held = none := by
  cases hheld : s.held with
  | none => rfl
  | some p =>
    cases p with
    | thread t =>
      have hh := (hm.thr t).mpr hheld
      have hact : (s.thr t).active = true := by
        by_contra hidle
        rw [ThreadPc.not_holds_of_inactive (by simpa using hidle)] at hh
        cases hh
      obtain ⟨d, hd, -⟩ := hst.thread hact (hl t) (.inr hh)
      rw [hd] at hh
      cases hh
    | future f =>
      have hh := (hm.fut f).mpr hheld
      rw [FutPc.not_holds_of_inactive (hst.future (.inr hh))] at hh
      cases hh
    | completer =>
      have hh := hm.comp.mpr hheld
      rw [CompPc.not_holds_of_resting (hst.complete (.inr hh))] at hh
      cases hh

end SlotSys.Stuck

/-- A stuck slot, with nobody in its way. -/
theorem SlotSys.Safe.stuck (hs : s.Safe e) (hl : ∀ t, (s.thr t).looping = true)
    (hst : s.Stuck e) :
    s.held = none ∧ s.comp.resting = true ∧ (∀ f, (s.fpc f).active = false) ∧
      ∀ t, (s.thr t).active = true →
        (∃ d, s.thr t = .park d) ∧ e.token t = false ∧ s.slot.state.completed = false := by
  have hfree := hst.free hs.wf.mutex hl
  have hrest := hst.complete (.inl hfree)
  refine ⟨hfree, hrest, fun f => hst.future (.inl hfree), fun t hact => ?_⟩
  obtain ⟨d, hd, htok⟩ := hst.thread hact (hl t) (.inl hfree)
  refine ⟨⟨d, hd⟩, htok, ?_⟩
  -- behind a completion that has returned a parked thread has its token
  by_contra hc
  have hp : s.comp.published = true := by
    rw [← hs.wf.published.completed]
    simpa using hc
  have htk : s.comp.taken = true ∧ s.comp.rest = [] := by
    cases hk : s.comp with
    | returned g b => exact ⟨rfl, rfl⟩
    | idle => rw [hk] at hp; cases hp
    | _ => rw [hk] at hrest; cases hrest
  rcases hs.awake.token t (by rw [hd]; rfl) htk.1 with htok' | hq
  · rw [htok] at htok'
    cases htok'
  · rw [htk.2] at hq
    cases hq

end Enabled

/-- Nothing but spurious wake-ups moves parked threads. -/
theorem SlotSys.stuck_of_parked [WillWake W] {e : Env} {s : SlotSys O W}
    (hcomp : s.comp.resting = true) (hfut : ∀ f, (s.fpc f).active = false)
    (hthr : ∀ t, (s.thr t).active = true → (∃ d, s.thr t = .park d) ∧ e.token t = false) :
    s.Stuck e := by
  intro e' s' h
  obtain ⟨hstep, hreal⟩ := h
  cases hstep with
  | thread t h =>
    obtain ⟨⟨d, hd⟩, htok⟩ := hthr t h.active
    have hsame := hreal t d hd htok
    cases h <;> simp_all
  | future f he h =>
    have hact := h.active
    rw [hfut f] at hact
    cases hact
  | complete h =>
    cases h <;> simp_all [CompPc.resting]

/-- **No deadlock.** When no call of a slot can move any more, spurious wake-ups apart: the mutex is
free, the completion has not begun or has returned, no future is inside a poll or a drop, and every
thread inside a call is parked without a token on a slot whose outcome is still to come. -/
theorem no_deadlock [WillWake W] {e : Env} {s : SlotSys O W}
    (h : (slotSystem O W).Reachable (e, s)) (hst : s.Stuck e) :
    s.held = none ∧ s.comp.resting = true ∧ (∀ f, (s.fpc f).active = false) ∧
      ∀ t, (s.thr t).active = true →
        (∃ d, s.thr t = .park d) ∧ e.token t = false ∧ s.slot.state.completed = false :=
  (slotSystem_safe h).stuck (slotSystem_looping h) hst

/-- Thread 0 waits for an outcome that nobody is about to publish. -/
theorem waiting_run : ∃ (e : Env) (s : SlotSys Nat Nat),
    (slotSystem Nat Nat).Reachable (e, s) ∧ s.thr 0 = .park none ∧ s.Stuck e := by
  have h₀ : (slotSystem Nat Nat).Reachable (⟨fun _ => false, 0⟩, SlotSys.blank.fresh 1) :=
    .init ⟨1, rfl⟩
  have h₁ := h₀.step (.call 0 ⟨0, 1⟩ (.wait none) rfl rfl)
  have h₂ := h₁.step (.step (.thread 0 (.check_pending rfl rfl)))
  have h₃ := h₂.step (.step (.thread 0 (.setBit rfl)))
  have h₄ := h₃.step (.step (.thread 0 (.loadReg_null rfl rfl)))
  have h₅ := h₄.step (.step (.thread 0 (.casReg rfl)))
  have h₆ := h₅.step (.step (.thread 0 (.acquire_wait rfl rfl)))
  have h₇ := h₆.step (.step (.thread 0 (.push rfl)))
  have h₈ := h₇.step (.step (.thread 0 (.recheck_wait_pending rfl rfl)))
  have h₉ := h₈.step (.step (.thread 0 (.unlock_park rfl)))
  refine ⟨_, _, h₉, rfl, SlotSys.stuck_of_parked rfl (fun _ => rfl) fun t hact => ?_⟩
  by_cases ht : t = 0
  · subst ht
    exact ⟨⟨none, rfl⟩, rfl⟩
  · simp [ht, SlotSys.startCall, SlotSys.fresh, SlotSys.blank, ThreadPc.active] at hact

/-- The mutex is free while thread 0 is parked. -/
theorem waiting_thread_undisturbed : ∃ s : SlotSys Nat Nat,
    s.thr 0 = .park none ∧ s.held = none ∧ s.slot.state.completed = false := by
  obtain ⟨e, s, h, hpc, hst⟩ := waiting_run
  obtain ⟨hheld, -, -, hthr⟩ := no_deadlock h hst
  exact ⟨s, hpc, hheld, (hthr 0 (by rw [hpc]; rfl)).2.2⟩

end Observe
