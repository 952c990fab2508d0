import Observe.Protocol

/-!
# What one step can change

Every invariant of a slot is derived from the facts here: which parts of the slot a step of each
kind of call leaves alone, who may change the mutex, and what may happen to the registry.
-/

namespace Observe

variable {O W : Type}

/-! ## Classes of program counters -/

def ThreadPc.holds : ThreadPc O W → Bool
  | .push _ | .recheck _ | .store _ | .dereg | .readLocked | .unlock _ | .expire => true
  | _ => false

def FutPc.holds : FutPc O W → Bool
  | .recheck _ | .store _ | .unlock _ | .remove => true
  | _ => false

def CompPc.holds : CompPc O W → Bool
  | .take _ | .unlock .. => true
  | _ => false

/-! ## Completion -/

structure CompFrame (s s' : SlotSys O W) : Prop where
  thr : s'.thr = s.thr
  via : s'.via = s.via
  fpc : s'.fpc = s.fpc
  fut : s'.fut = s.fut
  gen : s'.gen = s.gen
  futs : s'.futs = s.futs
  direct : s'.direct = s.direct
  answered : s'.answered = s.answered
  stored : s'.stored = s.stored
  moved : s'.moved = s.moved
  destroyed : s'.destroyed = s.destroyed
  hasWaiter : s'.slot.state.hasWaiter = s.slot.state.hasWaiter

variable {e e' : Env} {s s' : SlotSys O W}

theorem CompStep.frame (h : CompStep e s e' s') : CompFrame s s' := by
  cases h <;> constructor <;> simp [Slot.setOutcome]

/-- `COMPLETED` stays set. -/
theorem CompStep.completed (h : CompStep e s e' s') :
    s.slot.state.completed = true → s'.slot.state.completed = true := by
  cases h <;> simp [Slot.setOutcome]

/-- The completion takes the mutex when it is free, and gives it back. -/
theorem CompStep.held (h : CompStep e s e' s') :
    s'.held = s.held ∨
      (s.held = none ∧ s'.held = some .completer) ∨
      (s.comp.holds = true ∧ s'.held = none) := by
  cases h with
  -- taken when free, and dropped by the completer itself
  | acquire hpc hfree => exact .inr (.inl ⟨hfree, rfl⟩)
  | unlock hpc => exact .inr (.inr ⟨by rw [hpc]; rfl, rfl⟩)
  | _ => exact .inl rfl

/-- The completion touches the registry only to take it. -/
theorem CompStep.registry (h : CompStep e s e' s') :
    s'.slot.registry = s.slot.registry ∨
      ∃ g, s.comp = .take g ∧ s'.slot.registry = [] ∧ s'.comp = .unlock g s.slot.registry := by
  cases h with
  -- the vector leaves the mutex whole
  | take hpc => exact .inr ⟨_, hpc, rfl, rfl⟩
  | _ => exact .inl rfl

/-! ## Threads -/

structure ThreadFrame (t : Tid) (s s' : SlotSys O W) : Prop where
  thr : ∀ u, u ≠ t → s'.thr u = s.thr u
  via : s'.via = s.via
  fpc : s'.fpc = s.fpc
  fut : s'.fut = s.fut
  comp : s'.comp = s.comp
  gen : s'.gen = s.gen
  futs : s'.futs = s.futs
  notified : s'.notified = s.notified
  published : s'.published = s.published
  moved : s'.moved = s.moved
  destroyed : s'.destroyed = s.destroyed
  outcome : s'.slot.outcome = s.slot.outcome
  completed : s'.slot.state.completed = s.slot.state.completed
  outcomeValid : s'.slot.state.outcomeValid = s.slot.state.outcomeValid

variable [WillWake W] {t : Tid} {f : FutId}

theorem ThreadStep.frame (h : ThreadStep t e s e' s') : ThreadFrame t s s' := by
  cases h <;> constructor <;> simp +contextual

theorem ThreadStep.hasWaiter (h : ThreadStep t e s e' s') :
    s.slot.state.hasWaiter = true → s'.slot.state.hasWaiter = true := by
  cases h <;> simp

/-- The mutex of a thread step: taken when free, or dropped by its holder. -/
theorem ThreadStep.held (h : ThreadStep t e s e' s') :
    s'.held = s.held ∨
      (s.held = none ∧ s'.held = some (.thread t)) ∨
      ((s.thr t).holds = true ∧ s'.held = none) := by
  cases h with
  -- the three sections take the mutex, and each way out drops it
  | acquire_wait hpc hfree => exact .inr (.inl ⟨hfree, rfl⟩)
  | acquire_register hpc hfree => exact .inr (.inl ⟨hfree, rfl⟩)
  | acquire_timeout hpc hfree => exact .inr (.inl ⟨hfree, rfl⟩)
  | unlock_park hpc => exact .inr (.inr ⟨by rw [hpc]; rfl, rfl⟩)
  | unlock_clock hpc => exact .inr (.inr ⟨by rw [hpc]; rfl, rfl⟩)
  | unlock_return hpc => exact .inr (.inr ⟨by rw [hpc]; rfl, rfl⟩)
  | unlock_fault hpc => exact .inr (.inr ⟨by rw [hpc]; rfl, rfl⟩)
  | _ => exact .inl rfl

/-- What a thread step does to the registry and to the wakers stored in it. -/
inductive ThreadEdit (t : Tid) (s s' : SlotSys O W) : Prop where
  | none (hpc : s.thr t ≠ .dereg) (hr : s'.slot.registry = s.slot.registry)
      (hd : s'.direct = s.direct) (hs : s'.stored = s.stored)
  | push (d : Option Nat) (hpc : s.thr t = .push d) (hpc' : s'.thr t = .recheck (.wait d))
      (hr : s'.slot.registry = s.slot.registry.pushThread t (s.via t).gen)
      (hd : s'.direct = s.direct) (hs : s'.stored = s.stored)
  | store (w : W) (hpc : s.thr t = .store w)
      (hpc' : s'.thr t = .unlock (.returned (.registered w false)))
      (hr : s'.slot.registry = s.slot.registry.registerWaker w (s.via t).gen)
      (hd : s'.direct = w :: s.direct) (hs : s'.stored = ((s.via t).gen, WillWake.clone w) :: s.stored)
  | retain (hpc : s.thr t = .dereg ∨ s.thr t = .expire)
      (hpc' : s'.thr t = .readLocked ∨ s'.thr t = .unlock (.returned .none))
      (hr : s'.slot.registry = s.slot.registry.retainOthers t)
      (hd : s'.direct = s.direct) (hs : s'.stored = s.stored)

/-- The registry changes by a push, a direct registration or a removal of the thread's own entries.
-/
theorem ThreadStep.edit (h : ThreadStep t e s e' s') : ThreadEdit t s s' := by
  cases h with
  | push hpc => exact .push _ hpc (by simp) rfl rfl rfl
  | store hpc => exact .store _ hpc (by simp) rfl rfl rfl
  | dereg hpc => exact .retain (.inl hpc) (.inl (by simp)) rfl rfl rfl
  | expire hpc => exact .retain (.inr hpc) (.inr (by simp)) rfl rfl rfl
  | _ => exact .none (by simp_all) rfl rfl rfl

/-- Only the release of the mutex answers, and it answers what the thread returns. -/
theorem ThreadStep.answered (h : ThreadStep t e s e' s') :
    s'.answered = s.answered ∨
      ∃ r, s.thr t = .unlock (.returned r) ∧ s'.answered = r.promised ++ s.answered := by
  cases h with
  | unlock_return hpc => exact .inr ⟨_, hpc, rfl⟩
  | _ => exact .inl rfl

/-- A thread step in a call never starts one. -/
theorem ThreadStep.active (h : ThreadStep t e s e' s') : (s.thr t).active = true := by
  cases h <;> simp_all [ThreadPc.active]

/-! ## Futures -/

structure FutFrame (f : FutId) (s s' : SlotSys O W) : Prop where
  fpc : ∀ i, i ≠ f → s'.fpc i = s.fpc i
  fut : ∀ i, i ≠ f → s'.fut i = s.fut i
  futGen : (s'.fut f).gen = (s.fut f).gen
  thr : s'.thr = s.thr
  via : s'.via = s.via
  comp : s'.comp = s.comp
  gen : s'.gen = s.gen
  futs : s'.futs = s.futs
  direct : s'.direct = s.direct
  answered : s'.answered = s.answered
  notified : s'.notified = s.notified
  published : s'.published = s.published
  moved : s'.moved = s.moved
  destroyed : s'.destroyed = s.destroyed
  outcome : s'.slot.outcome = s.slot.outcome
  completed : s'.slot.state.completed = s.slot.state.completed
  outcomeValid : s'.slot.state.outcomeValid = s.slot.state.outcomeValid

theorem FutStep.frame (h : FutStep f s s') : FutFrame f s s' := by
  cases h <;> constructor <;> simp +contextual

theorem FutStep.hasWaiter (h : FutStep f s s') :
    s.slot.state.hasWaiter = true → s'.slot.state.hasWaiter = true := by
  cases h <;> simp

/-- A future takes the mutex when it is free, and gives it back. -/
theorem FutStep.held (h : FutStep f s s') :
    s'.held = s.held ∨
      (s.held = none ∧ s'.held = some (.future f)) ∨
      ((s.fpc f).holds = true ∧ s'.held = none) := by
  cases h with
  | acquire_register hpc hfree => exact .inr (.inl ⟨hfree, rfl⟩)
  | acquire_cancel hpc hfree => exact .inr (.inl ⟨hfree, rfl⟩)
  | unlock_poll2 hpc => exact .inr (.inr ⟨by rw [hpc]; rfl, rfl⟩)
  | unlock_panicked hpc => exact .inr (.inr ⟨by rw [hpc]; rfl, rfl⟩)
  | unlock_dead hpc => exact .inr (.inr ⟨by rw [hpc]; rfl, rfl⟩)
  | _ => exact .inl rfl

/-- What a step of a future does to the registry and to its own record. -/
inductive FutEdit (f : FutId) (s s' : SlotSys O W) : Prop where
  | none (hr : s'.slot.registry = s.slot.registry) (hs : s'.stored = s.stored)
      (hw : (s'.fut f).wakers = (s.fut f).wakers) (hst : (s'.fut f).stored = (s.fut f).stored)
      (he : (s'.fut f).early = (s.fut f).early)
      (hl : (s'.fut f).last = (s.fut f).last ∨ (s'.fut f).last = Option.none)
  | store (w : W) (hpc : s.fpc f = .store w) (hpc' : s'.fpc f = .unlock (.poll2 w))
      (hr : s.slot.registry.registerFutureWaker w (s.fut f).gen = some s'.slot.registry)
      (hs : s'.stored = ((s.fut f).gen, WillWake.clone w) :: s.stored)
      (hf : s'.fut f = { s.fut f with stored := w :: (s.fut f).stored })
  | record (w : W) (b : Bool) (hpc : s.fpc f = .poll2 w b) (hpc' : s'.fpc f = .pending)
      (hc : s.slot.state.completed = false)
      (hr : s'.slot.registry = s.slot.registry) (hs : s'.stored = s.stored)
      (hf : s'.fut f = { s.fut f with
        wakers := if b then (s.fut f).wakers else (s.fut f).wakers ++ [WillWake.clone w], last := some w })
  | remove (hpc : s.fpc f = .remove) (hpc' : s'.fpc f = .unlock .dead)
      (hr : s'.slot.registry = s.slot.registry.cancel (s.fut f).wakers)
      (hs : s'.stored = s.stored)
      (hf : s'.fut f = (s.fut f).leave s.slot.state.completed s.comp.taken)

/-- The registry changes by a registration of the future's waker or by its cancellation. -/
theorem FutStep.edit (h : FutStep f s s') : FutEdit f s s' := by
  cases h with
  -- the four steps of a future that leave a trace outside its program counter
  | store hpc hr => exact .store _ hpc (by simp) (by simpa [Slot.registry] using hr) rfl (by simp)
  | poll2_pending hpc hc => exact .record _ _ hpc (by simp) hc rfl rfl (by simp)
  | remove hpc => exact .remove hpc (by simp) rfl rfl (by simp)
  | read hpc hv => exact .none rfl rfl (by simp) (by simp) (by simp) (.inr (by simp))
  | store_overflow hpc hr =>
    exact .none rfl rfl (by simp) (by simp) (by simp) (.inr (by simp))
  | _ => exact .none rfl rfl rfl rfl rfl (.inl rfl)

theorem FutStep.active (h : FutStep f s s') : (s.fpc f).active = true := by
  cases h <;> simp_all [FutPc.active]

omit [WillWake W] in
/-- The drop of a future starts without a look at the registry. -/
theorem SlotSys.startCancel_frame (s : SlotSys O W) (f : FutId) :
    (s.startCancel f).thr = s.thr ∧ (s.startCancel f).slot = s.slot ∧
      (s.startCancel f).comp = s.comp ∧ (s.startCancel f).notified = s.notified := by
  unfold SlotSys.startCancel
  split <;> exact ⟨rfl, rfl, rfl, rfl⟩

/-- A thread in a call moves by its own steps only. -/
theorem SlotMove.threadStep {x x' : Env × SlotSys O W} (h : SlotMove x x')
    (hact : (x.2.thr t).active = true) (hne : x'.2.thr t ≠ x.2.thr t) :
    ThreadStep t x.1 x.2 x'.1 x'.2 := by
  cases h with
  | step h =>
    cases h with
    | thread u h =>
      -- a step of another thread does not move `t`
      by_cases hut : t = u
      · rwa [hut]
      · exact absurd (h.frame.thr t hut) hne
    | future f he h => exact absurd (congrFun h.frame.thr t) hne
    | complete h => exact absurd (congrFun h.frame.thr t) hne
  | call u h c hidle hg =>
    by_cases hut : t = u
    -- a call starts in an idle thread only, and `t` is not idle
    · rw [hut, hidle] at hact
      cases hact
    · exact absurd (Function.update_of_ne hut ..) hne
  | @cancel e s f hf hrest => exact absurd (congrFun (s.startCancel_frame f).1 t) hne
  | _ => exact absurd rfl hne

end Observe
