import Observe.Protocol.Safety
import Mathlib.Algebra.BigOperators.Group.Finset.Piecewise
import Mathlib.Algebra.Order.BigOperators.Group.Finset

/-!
# Threads in the registry

Whose thread entries a registry can hold, and how many.  An entry has a live owner: a thread leaves
`wait` or `wait_timeout` only after it has taken its entries back, or when a drain that is still to
come will take them.  How often one thread is in the registry depends on the others: the search for
an entry of its own looks at the last one only.
-/

namespace Observe

variable {O W : Type}

/-! ## The entries of one thread -/

namespace Registry

def entriesOf (t : Tid) (ws : Registry W) : Registry W := ws.filter (Waiter.isThread t)

/-- The last entry is thread `t`'s: `matches!(waiters.last(), Some(Waiter::Thread(t)) if ..)`. -/
def endsWith (t : Tid) (ws : Registry W) : Bool := ws.getLast?.any (Waiter.isThread t)

theorem isThread_other {t u : Tid} (h : u ≠ t) {x : Waiter W} (hx : x.isThread u = true) :
    x.isThread t = false := by
  by_contra ht
  exact h (Waiter.thread_unique hx (by simpa using ht))

theorem entriesOf_append (u : Tid) (ws : Registry W) (x : Waiter W) :
    entriesOf u (ws ++ [x]) = entriesOf u ws ++ entriesOf u [x] :=
  List.filter_append ..

/-- A push leaves the entries of other threads alone. -/
theorem entriesOf_pushThread {t u : Tid} (h : u ≠ t) (g : Gen) (ws : Registry W) :
    entriesOf u (pushThread t g ws) = entriesOf u ws := by
  unfold pushThread
  split
  · rfl
  · have hx : entriesOf u [(.thread t g : Waiter W)] = [] := by
      simp [entriesOf, Waiter.isThread, Ne.symm h]
    rw [entriesOf_append, hx, List.append_nil]

theorem entriesOf_retainOthers {t u : Tid} (h : u ≠ t) (ws : Registry W) :
    entriesOf u (retainOthers t ws) = entriesOf u ws := by
  unfold entriesOf retainOthers
  rw [List.filter_filter]
  apply List.filter_congr
  intro x _
  cases hx : x.isThread u with
  | false => rfl
  | true => rw [isThread_other h hx]; rfl

/-- A thread that takes its entries out has none left. -/
theorem entriesOf_retainOthers_self (t : Tid) (ws : Registry W) :
    entriesOf t (retainOthers t ws) = [] := by
  unfold entriesOf retainOthers
  rw [List.filter_filter]
  simp

theorem entriesOf_cancel [WillWake W] (u : Tid) (mine : List W) (ws : Registry W) :
    entriesOf u (cancel mine ws) = entriesOf u ws := by
  induction ws with
  | nil => rfl
  | cons x ws ih =>
    cases x with
    | thread t g =>
      unfold entriesOf at ih ⊢
      rw [cancel_thread, List.filter_cons, List.filter_cons, ih]
    | waker e p n g =>
      unfold entriesOf at ih ⊢
      rw [cancel_waker, List.filter_cons_of_neg (by simp [Waiter.isThread])]
      split
      · split
        · rw [List.filter_cons_of_neg (by simp [Waiter.isThread]), ih]
        · exact ih
      · rw [List.filter_cons_of_neg (by simp [Waiter.isThread]), ih]

theorem entriesOf_registerWaker [WillWake W] (u : Tid) (w : W) (g : Gen) (ws : Registry W) :
    entriesOf u (registerWaker w g ws) = entriesOf u ws := by
  induction ws with
  | nil => rfl
  | cons x ws ih =>
    unfold entriesOf at ih ⊢
    cases x with
    | thread t g' => rw [registerWaker, List.filter_cons, List.filter_cons, ih]
    | waker e p n g' =>
      rw [registerWaker]
      split
      · rfl
      · rw [List.filter_cons_of_neg (by simp [Waiter.isThread]), ih]
        rfl

end Registry

/-! ## Entries of a thread that has given up -/

def ThreadPc.returnsNone : ThreadPc O W → Bool
  | .unlock (.returned .none) | .returned .none => true
  | _ => false

section Steps

variable [WillWake W] {t : Tid} {f : FutId} {e e' : Env} {s s' : SlotSys O W}

/-- A thread that returns nothing has left the registry, or was never in it. -/
def SlotSys.NoneLeft (s : SlotSys O W) : Prop :=
  ∀ t, (s.thr t).returnsNone = true → s.slot.registry.queued t = false

/-- A thread that is to return nothing has no entry. -/
theorem ThreadStep.noneLeft_self (h : ThreadStep t e s e' s') (ha : s.Awake e) (hn : s.NoneLeft)
    (hr : (s'.thr t).returnsNone = true) : s'.slot.registry.queued t = false := by
  have hold := hn t
  cases h with
  | tryGet_pending hpc hc =>
    -- the slot is pending and the thread is not waiting, so it cannot be queued
    show s.slot.registry.queued t = false
    by_contra hq
    rcases ha.inside t (by simpa using hq) with hw | ⟨hdone, _⟩
    · rw [hpc] at hw
      cases hw
    · rw [hc] at hdone
      cases hdone
  | expire hpc => simp [Slot.registry, Registry.queued_retainOthers]
  | @unlock_return r hpc => cases r <;> simp_all [ThreadPc.returnsNone, Slot.registry]
  | _ => simp_all [ThreadPc.returnsNone]

/-- A thread that returns nothing gets no entry by the steps of others. -/
theorem SlotSys.NoneLeft.callStep (hn : s.NoneLeft) (ha : s.Awake e) (h : CallStep e s e' s') :
    s'.NoneLeft := by
  intro u hr
  cases h with
  | thread t h =>
    by_cases hut : u = t
    · subst hut
      exact h.noneLeft_self ha hn hr
    · rw [h.queued u hut]
      apply hn
      rwa [h.frame.thr u hut] at hr
  | future f he h =>
    rw [h.queued u]
    apply hn
    rwa [h.frame.thr] at hr
  | complete h =>
    rw [h.frame.thr] at hr
    rcases h.registry with heq | ⟨g, _, hnil, _⟩
    · rw [heq]
      exact hn u hr
    · rw [hnil]
      rfl

theorem SlotSys.NoneLeft.move {x x' : Env × SlotSys O W} (hn : x.2.NoneLeft)
    (hs : x.2.Safe x.1) (h : SlotMove x x') : x'.2.NoneLeft := by
  cases h with
  | step h => exact hn.callStep hs.awake h
  | call t h c hidle hg =>
    intro u hr
    by_cases hut : u = t
    · subst hut
      cases c <;> simp [SlotSys.startCall, Call.entry, ThreadPc.returnsNone] at hr
    · exact hn u (by simpa [SlotSys.startCall, hut] using hr)
  | @cancel e s f hf hrest =>
    obtain ⟨hthr, hslot, -⟩ := s.startCancel_frame f
    intro u hr
    rw [hthr] at hr
    rw [hslot]
    exact hn u hr
  | recycle g hq hg =>
    intro u _
    show (Slot.reset _).registry.queued u = false
    rw [Slot.reset_registry hs.wf.announced.registry]
    rfl
  | _ => exact hn

/-- In every reachable state a thread that returns nothing has no entry. -/
theorem slotSystem_noneLeft {x : Env × SlotSys O W} (h : (slotSystem O W).Reachable x) :
    x.2.NoneLeft := by
  induction h with
  | init hi =>
    have ⟨g, hg⟩ := hi
    rw [hg]
    intro u hr
    cases hr
  | step hx hs ih => exact ih.move (slotSystem_safe hx) hs

/-! ## A thread that stays away -/

structure SlotSys.Away (t : Tid) (s : SlotSys O W) : Prop where
  waiting : (s.thr t).waiting = false
  registry : s.slot.registry.queued t = false
  rest : s.comp.rest.queued t = false

def AwayMove (t : Tid) (x x' : Env × SlotSys O W) : Prop :=
  SlotMove x x' ∧ (x'.2.thr t).waiting = false

omit [WillWake W] in
theorem not_queued_iff {ws : Registry W} :
    ws.queued t = false ↔ ∀ x ∈ ws, x.isThread t = false := by
  simp [Registry.queued]

/-- Outside `wait` a thread gets no entry and no unpark of its own. -/
theorem SlotSys.Away.callStep (ha : s.Away t) (hs : s.Safe e) (h : CallStep e s e' s')
    (hw : (s'.thr t).waiting = false) :
    s'.Away t ∧ ∀ p ∈ s'.notified, p.2.isThread t = true → p ∈ s.notified := by
  cases h with
  | thread u h =>
    have hfr := h.frame
    have hreg : s'.slot.registry.queued t = false := by
      by_cases htu : t = u
      · subst htu
        by_contra hq
        rcases h.inside_self (by simpa using hq) with hin | ⟨hold, _⟩
        · rw [hw] at hin
          cases hin
        · rw [ha.registry] at hold
          cases hold
      · rw [h.queued t htu]
        exact ha.registry
    refine ⟨⟨hw, hreg, by rw [hfr.comp]; exact ha.rest⟩, ?_⟩
    intro p hp _
    rwa [hfr.notified] at hp
  | future f he h =>
    have hfr := h.frame
    refine ⟨⟨hw, by rw [h.queued]; exact ha.registry, by rw [hfr.comp]; exact ha.rest⟩, ?_⟩
    intro p hp _
    rwa [hfr.notified] at hp
  | complete h =>
    -- the drain hands on what it finds, and none of that is the thread's
    have ⟨hreg, hrest, hnot⟩ := h.handOn hs.wf.published
    have hreg₀ := not_queued_iff.mp ha.registry
    have hrest₀ := not_queued_iff.mp ha.rest
    refine ⟨⟨hw, not_queued_iff.mpr fun x hx => hreg₀ x (hreg x hx), not_queued_iff.mpr ?_⟩, ?_⟩
    · intro x hx
      exact (hrest x hx).elim (hrest₀ x) (hreg₀ x)
    · intro p hp ht
      rcases hnot p hp with hold | ⟨_, hmem, _⟩
      · exact hold
      · rw [hrest₀ _ hmem] at ht
        cases ht

/-- What happens to a slot while a thread is outside `wait` gives it no entry and no unpark. -/
theorem SlotSys.Away.move {x x' : Env × SlotSys O W} (ha : x.2.Away t) (hs : x.2.Safe x.1)
    (h : AwayMove t x x') :
    x'.2.Away t ∧ ∀ p ∈ x'.2.notified, p.2.isThread t = true → p ∈ x.2.notified := by
  have ⟨hmove, hw⟩ := h
  cases hmove with
  | step hcall => exact ha.callStep hs hcall hw
  | complete v hidle => exact ⟨⟨hw, ha.registry, rfl⟩, fun p hp _ => hp⟩
  | @cancel e s f hf hrest =>
    have ⟨hthr, hslot, hcomp, hnot⟩ := s.startCancel_frame f
    refine ⟨⟨hw, by rw [hslot]; exact ha.registry, by rw [hcomp]; exact ha.rest⟩, ?_⟩
    intro p hp _
    rwa [hnot] at hp
  | @recycle e s g hq hg =>
    refine ⟨⟨hw, ?_, rfl⟩, fun p hp _ => hp⟩
    show s.slot.reset.registry.queued t = false
    rw [Slot.reset_registry hs.wf.announced.registry]
    rfl
  | _ => exact ⟨⟨hw, ha.registry, ha.rest⟩, fun p hp _ => hp⟩

/-- A thread that stays away is not unparked. -/
theorem SlotSys.Away.run {x x' : Env × SlotSys O W} (hx : (slotSystem O W).Reachable x)
    (ha : x.2.Away t) (h : Relation.ReflTransGen (AwayMove t) x x') :
    (slotSystem O W).Reachable x' ∧ x'.2.Away t ∧
      ∀ p ∈ x'.2.notified, p.2.isThread t = true → p ∈ x.2.notified := by
  induction h with
  | refl => exact ⟨hx, ha, fun p hp _ => hp⟩
  | tail _ hs ih =>
    have ⟨hreach, haway, hnot⟩ := ih
    have ⟨haway', hnot'⟩ := haway.move (slotSystem_safe hreach) hs
    exact ⟨hreach.step hs.1, haway', fun p hp ht => hnot p (hnot' p hp ht) ht⟩

/-! ## Live owners -/

structure SlotSys.ThreadsOwned (e : Env) (s : SlotSys O W) : Prop where
  live : s.held = none → ∀ x ∈ s.slot.registry, ∀ t, x.isThread t = true →
    (s.thr t).waiting = true ∨ (s.slot.state.completed = true ∧ s.comp.taken = false)
  /-- A call that returns nothing leaves no entry of its thread behind, -/
  timedOut : ∀ t, s.thr t = .returned .none → ∀ x ∈ s.slot.registry, x.isThread t = false
  /-- so a completion that takes the registry later does not unpark it. -/
  later : ∀ t, s.thr t = .returned .none → s.comp.taken = false →
    ∀ x, Relation.ReflTransGen (AwayMove t) (e, s) x →
      ∀ p ∈ x.2.notified, p.2.isThread t = true → p ∈ s.notified
  /-- No step of a thread touches the entries of another one. -/
  others : ∀ t e' s', ThreadStep t e s e' s' → ∀ u, u ≠ t →
    s'.slot.registry.entriesOf u = s.slot.registry.entriesOf u

/-- A thread's step leaves the entries of every other thread as they are. -/
theorem ThreadStep.entriesOf_other (h : ThreadStep t e s e' s') {u : Tid} (hu : u ≠ t) :
    s'.slot.registry.entriesOf u = s.slot.registry.entriesOf u := by
  cases h.edit with
  | none _ hr => rw [hr]
  | push d _ _ hr => rw [hr, Registry.entriesOf_pushThread hu]
  | store w _ _ hr => rw [hr, Registry.entriesOf_registerWaker]
  | retain _ _ hr => rw [hr, Registry.entriesOf_retainOthers hu]

end Steps

/-- **Thread registrations have a live owner.** In every reachable state of a slot. -/
theorem thread_registrations_owned [WillWake W] {e : Env} {s : SlotSys O W}
    (h : (slotSystem O W).Reachable (e, s)) : s.ThreadsOwned e := by
  have hs : s.Safe e := slotSystem_safe h
  have hgone (t : Tid) (hpc : s.thr t = .returned .none) : s.slot.registry.queued t = false :=
    slotSystem_noneLeft h t (by rw [hpc]; rfl)
  constructor
  case live =>
    intro _ x hx t ht
    exact hs.awake.inside t (Registry.queued_of_mem hx ht)
  case timedOut =>
    intro t hpc
    exact not_queued_iff.mp (hgone t hpc)
  case later =>
    intro t hpc htk x hrun
    have haway : s.Away t := by
      refine ⟨by rw [hpc]; rfl, hgone t hpc, ?_⟩
      -- nothing has been taken yet
      cases hk : s.comp <;> rw [hk] at htk <;> first | rfl | cases htk
    exact (SlotSys.Away.run h haway hrun).2.2
  case others =>
    intro t e' s' hstep u hu
    exact hstep.entriesOf_other hu

/-- Thread 1 is parked when thread 0 gives up at its deadline. -/
theorem timed_out_registration_gone : ∃ (e : Env) (s : SlotSys Nat Nat), s.ThreadsOwned e ∧
    s.thr 0 = .returned .none ∧ s.slot.registry = [.thread 1 1] ∧ (s.thr 1).waiting = true := by
  have h₀ : (slotSystem Nat Nat).Reachable (⟨fun _ => false, 0⟩, _) := .init ⟨1, rfl⟩
  have h₁ := h₀.step (.call 1 ⟨1, 1⟩ (.wait none) rfl rfl)
  have h₂ := h₁.step (.step (.thread 1 (.check_pending rfl rfl)))
  have h₃ := h₂.step (.step (.thread 1 (.setBit rfl)))
  have h₄ := h₃.step (.step (.thread 1 (.loadReg_null rfl rfl)))
  have h₅ := h₄.step (.step (.thread 1 (.casReg rfl)))
  have h₆ := h₅.step (.step (.thread 1 (.acquire_wait rfl rfl)))
  have h₇ := h₆.step (.step (.thread 1 (.push rfl)))
  have h₈ := h₇.step (.step (.thread 1 (.recheck_wait_pending rfl rfl)))
  have h₉ := h₈.step (.step (.thread 1 (.unlock_park rfl)))
  have h₁₀ := h₉.step (.call 0 ⟨0, 1⟩ (.wait (some 0)) rfl rfl)
  have h₁₁ := h₁₀.step (.step (.thread 0 (.check_pending rfl rfl)))
  have h₁₂ := h₁₁.step (.step (.thread 0 (.setBit rfl)))
  have h₁₃ := h₁₂.step (.step (.thread 0 (.loadReg_some rfl nofun)))
  have h₁₄ := h₁₃.step (.step (.thread 0 (.acquire_wait rfl rfl)))
  have h₁₅ := h₁₄.step (.step (.thread 0 (.push rfl)))
  have h₁₆ := h₁₅.step (.step (.thread 0 (.recheck_timed_pending rfl rfl)))
  have h₁₇ := h₁₆.step (.step (.thread 0 (.unlock_clock rfl)))
  have h₁₈ := h₁₇.step (.step (.thread 0 (.clock_expired rfl (Nat.le_refl 0))))
  have h₁₉ := h₁₈.step (.step (.thread 0 (.loadReg_some rfl nofun)))
  have h₂₀ := h₁₉.step (.step (.thread 0 (.acquire_timeout rfl rfl)))
  have h₂₁ := h₂₀.step (.step (.thread 0 (.expire rfl)))
  have h₂₂ := h₂₁.step (.step (.thread 0 (.unlock_return rfl)))
  have howned := thread_registrations_owned h₂₂
  refine ⟨_, _, howned, rfl, rfl, ?_⟩
  exact (howned.live rfl (.thread 1 1) List.mem_cons_self 1 rfl).resolve_right nofun

/-! ## How many entries a thread has -/

namespace Registry

/-- What one move of a slot can do to the registry, as thread `t` sees it. -/
inductive Edit (t : Tid) (ws ws' : Registry W) : Prop where
  /-- Entries go or change, but none of thread `t`. -/
  | kept (hlen : ws'.length ≤ ws.length) (hown : entriesOf t ws' = entriesOf t ws)
      (hend : endsWith t ws = true → endsWith t ws' = true)
  | left (hlen : ws'.length ≤ ws.length) (hown : entriesOf t ws' = [])
  | pushed (g : Gen) (hend : endsWith t ws = false) (heq : ws' = ws ++ [.thread t g])
  | other (x : Waiter W) (hx : x.isThread t = false) (heq : ws' = ws ++ [x])

theorem Edit.refl (t : Tid) (ws : Registry W) : Edit t ws ws := .kept le_rfl rfl id

theorem endsWith_append (t : Tid) (ws : Registry W) (x : Waiter W) :
    endsWith t (ws ++ [x]) = x.isThread t := by
  simp [endsWith]

/-- A registry that ends with an entry of thread `t`. -/
theorem endsWith_iff {t : Tid} {ws : Registry W} :
    endsWith t ws = true ↔ ∃ init g, ws = init ++ [.thread t g] := by
  constructor
  · intro h
    rcases List.eq_nil_or_concat' ws with rfl | ⟨init, x, rfl⟩
    · cases h
    · rw [endsWith_append] at h
      cases x with
      | thread t' g =>
        have ht : t' = t := beq_iff_eq.mp h
        exact ⟨init, g, by rw [ht]⟩
      | waker e p n g => cases h
  · intro ⟨init, g, heq⟩
    rw [heq, endsWith_append]
    exact beq_self_eq_true t

/-- A push is an edit as every thread sees it. -/
theorem edit_pushThread (t u : Tid) (g : Gen) (ws : Registry W) : Edit t ws (pushThread u g ws) := by
  unfold pushThread
  split
  · exact .refl t ws
  · rename_i hlast
    by_cases htu : t = u
    · subst htu
      exact .pushed g (by simpa [endsWith] using hlast) rfl
    · exact .other _ (by simp [Waiter.isThread, Ne.symm htu]) rfl

theorem edit_retainOthers (t u : Tid) (ws : Registry W) : Edit t ws (retainOthers u ws) := by
  have hlen : (retainOthers u ws).length ≤ ws.length := List.length_filter_le ..
  by_cases htu : t = u
  · subst htu
    exact .left hlen (entriesOf_retainOthers_self t ws)
  · apply Edit.kept hlen (entriesOf_retainOthers htu ws)
    intro he
    have ⟨init, g, heq⟩ := endsWith_iff.mp he
    have hlast : retainOthers u ws = retainOthers u init ++ [.thread t g] := by
      rw [heq]
      simp [retainOthers, Waiter.isThread, htu]
    exact endsWith_iff.mpr ⟨_, g, hlast⟩

/-- A cancellation removes entries of wakers only. -/
theorem edit_cancel [WillWake W] (t : Tid) (mine : List W) (ws : Registry W) :
    Edit t ws (cancel mine ws) := by
  apply Edit.kept (List.length_filterMap_le ..) (entriesOf_cancel t mine ws)
  intro he
  have ⟨init, g, heq⟩ := endsWith_iff.mp he
  have hlast : cancel mine ws = cancel mine init ++ [.thread t g] := by
    rw [heq]
    exact List.filterMap_append ..
  exact endsWith_iff.mpr ⟨_, g, hlast⟩

/-- A waker's entry that is rewritten in its place. -/
theorem edit_replace (t : Tid) (ws ws' : Registry W) {x y : Waiter W} (hx : x.isThread t = false)
    (hy : y.isThread t = false) : Edit t (ws ++ x :: ws') (ws ++ y :: ws') := by
  apply Edit.kept
  · simp
  · unfold entriesOf
    rw [List.filter_append, List.filter_append, List.filter_cons_of_neg (by simp [hy]),
      List.filter_cons_of_neg (by simp [hx])]
  · intro he
    rcases List.eq_nil_or_concat' ws' with rfl | ⟨init, z, rfl⟩
    · rw [endsWith_append, hx] at he
      cases he
    · rw [← List.cons_append, ← List.append_assoc, endsWith_append] at he ⊢
      exact he

/-- `register_waker` marks the first entry that wakes the same task, or pushes one. -/
theorem registerWaker_cases [WillWake W] (w : W) (g : Gen) (ws : Registry W) :
    registerWaker w g ws = ws ++ [.waker (WillWake.clone w) true 0 g] ∨
      ∃ ws₁ ws₂ e p n g', ws = ws₁ ++ .waker e p n g' :: ws₂ ∧
        registerWaker w g ws = ws₁ ++ .waker e true n g' :: ws₂ := by
  induction ws with
  | nil => exact .inl rfl
  | cons x ws ih =>
    have hcons (hskip : registerWaker w g (x :: ws) = x :: registerWaker w g ws) :
        registerWaker w g (x :: ws) = x :: ws ++ [.waker (WillWake.clone w) true 0 g] ∨
          ∃ ws₁ ws₂ e p n g', x :: ws = ws₁ ++ .waker e p n g' :: ws₂ ∧
            registerWaker w g (x :: ws) = ws₁ ++ .waker e true n g' :: ws₂ := by
      rcases ih with heq | ⟨ws₁, ws₂, e, p, n, g', hws, heq⟩
      · exact Or.inl (hskip.trans (by rw [heq]; rfl))
      · exact Or.inr ⟨x :: ws₁, ws₂, e, p, n, g', by rw [hws]; rfl, hskip.trans (by rw [heq]; rfl)⟩
    cases x with
    | thread t g' => exact hcons rfl
    | waker e p n g' =>
      by_cases hew : willWake e w = true
      · exact .inr ⟨[], ws, e, p, n, g', rfl, by simp [registerWaker, hew]⟩
      · exact hcons (by simp [registerWaker, hew])

/-- `register_future_waker` counts on the first entry that wakes the same task, or pushes one. -/
theorem registerFutureWaker_cases [WillWake W] {w : W} {g : Gen} {ws ws' : Registry W}
    (h : registerFutureWaker w g ws = some ws') :
    ws' = ws ++ [.waker (WillWake.clone w) false 1 g] ∨
      ∃ ws₁ ws₂ e p n g', ws = ws₁ ++ .waker e p n g' :: ws₂ ∧
        ws' = ws₁ ++ .waker e p (n + 1) g' :: ws₂ := by
  induction ws generalizing ws' with
  | nil =>
    rw [registerFutureWaker, Option.some.injEq] at h
    exact .inl h.symm
  | cons x ws ih =>
    have hcons (hskip : (registerFutureWaker w g ws).map (x :: ·) = some ws') :
        ws' = x :: ws ++ [.waker (WillWake.clone w) false 1 g] ∨
          ∃ ws₁ ws₂ e p n g', x :: ws = ws₁ ++ .waker e p n g' :: ws₂ ∧
            ws' = ws₁ ++ .waker e p (n + 1) g' :: ws₂ := by
      obtain ⟨ws₀, h₀, heq⟩ := Option.map_eq_some_iff.mp hskip
      rcases ih h₀ with heq₀ | ⟨ws₁, ws₂, e, p, n, g', hws, heq₀⟩
      · exact Or.inl (heq.symm.trans (by rw [heq₀]; rfl))
      · exact Or.inr ⟨x :: ws₁, ws₂, e, p, n, g', by rw [hws]; rfl, heq.symm.trans (by rw [heq₀]; rfl)⟩
    cases x with
    | thread t g' => exact hcons h
    | waker e p n g' =>
      rw [registerFutureWaker] at h
      split at h
      · split at h
        · cases h
        · cases h
          exact .inr ⟨[], ws, e, p, n, g', rfl, rfl⟩
      · exact hcons h

theorem edit_registerWaker [WillWake W] (t : Tid) (w : W) (g : Gen) (ws : Registry W) :
    Edit t ws (registerWaker w g ws) := by
  rcases registerWaker_cases w g ws with heq | ⟨ws₁, ws₂, e, p, n, g', hws, heq⟩
  · exact .other _ rfl heq
  · rw [heq, hws]
    exact edit_replace t ws₁ ws₂ rfl rfl

theorem edit_registerFutureWaker [WillWake W] (t : Tid) {w : W} {g : Gen} {ws ws' : Registry W}
    (h : registerFutureWaker w g ws = some ws') : Edit t ws ws' := by
  rcases registerFutureWaker_cases h with heq | ⟨ws₁, ws₂, e, p, n, g', hws, heq⟩
  · exact .other _ rfl heq
  · rw [heq, hws]
    exact edit_replace t ws₁ ws₂ rfl rfl

end Registry

/-! ## The growth of a registry -/

section Growth

variable [WillWake W] {t : Tid} {e e' : Env} {s s' : SlotSys O W}

/-- Every step of a call edits the registry by at most one push. -/
theorem CallStep.registryEdit (h : CallStep e s e' s') (t : Tid) :
    Registry.Edit t s.slot.registry s'.slot.registry := by
  cases h with
  | thread u h =>
    cases h.edit with
    | none _ hr => rw [hr]; exact .refl t _
    | push d _ _ hr => rw [hr]; exact Registry.edit_pushThread ..
    | store w _ _ hr => rw [hr]; exact Registry.edit_registerWaker ..
    | retain _ _ hr => rw [hr]; exact Registry.edit_retainOthers ..
  | future f he h =>
    cases h.edit with
    | none hr => rw [hr]; exact .refl t _
    | store w _ _ hr => exact Registry.edit_registerFutureWaker t hr
    | record w b _ _ _ hr => rw [hr]; exact .refl t _
    | remove _ _ hr => rw [hr]; exact Registry.edit_cancel ..
  | complete h =>
    rcases h.registry with heq | ⟨g, _, hnil, _⟩
    · rw [heq]
      exact .refl t _
    · rw [hnil]
      exact .left (Nat.zero_le _) rfl

/-- Every move of a slot edits the registry by at most one push. -/
theorem SlotMove.registryEdit {x x' : Env × SlotSys O W} (h : SlotMove x x')
    (hs : x.2.Safe x.1) (t : Tid) : Registry.Edit t x.2.slot.registry x'.2.slot.registry := by
  cases h with
  | step h => exact h.registryEdit t
  | @cancel e s f hf hrest =>
    have ⟨_, hslot, _⟩ := s.startCancel_frame f
    rw [hslot]
    exact .refl t _
  | @recycle e s g hq hg =>
    show Registry.Edit t s.slot.registry s.slot.reset.registry
    rw [Slot.reset_registry hs.wf.announced.registry]
    exact .left (Nat.zero_le _) rfl
  | _ => exact .refl t _

/-- For each thread, the entries that others have pushed since it last had no entry. -/
def noteOthers (x x' : Env × SlotSys O W) (n : Tid → Nat) : Tid → Nat := fun t =>
  if x'.2.slot.registry.queued t = false then 0
  else if x.2.slot.registry.length < x'.2.slot.registry.length ∧
      x'.2.slot.registry.endsWith t = false then n t + 1
  else n t

/-- Between two entries of one thread somebody else has pushed one. -/
structure Registry.Spaced (t : Tid) (ws : Registry W) (n : Nat) : Prop where
  all : (entriesOf t ws).length ≤ n + 1
  buried : endsWith t ws = false → (entriesOf t ws).length ≤ n

omit [WillWake W] in
theorem Registry.not_queued_entries {t : Tid} {ws : Registry W} :
    ws.queued t = false ↔ entriesOf t ws = [] := by
  rw [not_queued_iff, entriesOf, List.filter_eq_nil_iff]
  simp

omit [WillWake W] in
theorem Registry.Spaced.of_not_queued {t : Tid} {ws : Registry W} (h : ws.queued t = false)
    (n : Nat) : Spaced t ws n := by
  have hnil := not_queued_entries.mp h
  constructor <;> simp [hnil]

omit [WillWake W] in
/-- An edit keeps the entries of a thread apart when the pushes of the others are counted. -/
theorem Registry.Spaced.move {x x' : Env × SlotSys O W} {n : Tid → Nat}
    (hn : x.2.slot.registry.Spaced t (n t))
    (h : Registry.Edit t x.2.slot.registry x'.2.slot.registry) :
    x'.2.slot.registry.Spaced t (noteOthers x x' n t) := by
  unfold noteOthers
  split
  · rename_i hq
    exact .of_not_queued hq 0
  rename_i hq
  cases h with
  | kept hlen hown hend =>
    rw [if_neg (by omega)]
    constructor
    · rw [hown]
      exact hn.all
    · intro hlast
      rw [hown]
      apply hn.buried
      by_contra hwas
      rw [hend (by simpa using hwas)] at hlast
      cases hlast
  | left hlen hown => exact absurd (not_queued_entries.mpr hown) hq
  | pushed g hend heq =>
    -- the new entry is the thread's own, and its last one was not at the end
    have hlast : x'.2.slot.registry.endsWith t = true := by
      rw [heq, endsWith_append]
      exact beq_self_eq_true t
    rw [if_neg (by simp [hlast])]
    constructor
    · have hold := hn.buried hend
      rw [heq, entriesOf_append, List.length_append]
      have hone : (entriesOf t [(.thread t g : Waiter W)]).length ≤ 1 := List.length_filter_le ..
      omega
    · intro hne
      rw [hlast] at hne
      cases hne
  | other y hy heq =>
    have hlast : x'.2.slot.registry.endsWith t = false := by rw [heq, endsWith_append, hy]
    have hnone : entriesOf t [y] = [] := by simp [entriesOf, hy]
    have hown : entriesOf t x'.2.slot.registry = entriesOf t x.2.slot.registry := by
      rw [heq, entriesOf_append, hnone, List.append_nil]
    rw [if_pos ⟨by rw [heq]; simp, hlast⟩]
    constructor
    · rw [hown]
      have hold := hn.all
      omega
    · intro _
      rw [hown]
      exact hn.all

/-- In every reachable state the entries of a thread are spaced by those that others have pushed. -/
theorem slotSystem_spaced {x : (Env × SlotSys O W) × (Tid → Nat)}
    (h : ((slotSystem O W).recording (fun _ => 0) noteOthers).Reachable x) (t : Tid) :
    x.1.2.slot.registry.Spaced t (x.2 t) := by
  apply h.recorded_invariant (I := fun y n => y.2.slot.registry.Spaced t (n t))
  · intro y hi
    have ⟨g, hg⟩ := hi
    rw [hg]
    exact .of_not_queued rfl 0
  · intro y y' n hy hn hstep
    exact hn.move (hstep.registryEdit (slotSystem_safe hy) t)

/-! ## All thread entries together -/

def Waiter.ofThread : Waiter W → Bool
  | .thread .. => true
  | .waker .. => false

omit [WillWake W] in
/-- The thread entries of a registry, counted thread by thread. -/
theorem Registry.countP_threads {ws : Registry W} {T : Finset Tid}
    (hT : ∀ t, ws.queued t = true → t ∈ T) :
    ws.countP Waiter.ofThread = ∑ t ∈ T, (entriesOf t ws).length := by
  induction ws with
  | nil => simp [entriesOf]
  | cons x ws ih =>
    have ih := ih fun t ht => hT t (by simp [queued] at ht ⊢; exact Or.inr ht)
    rw [List.countP_cons, ih]
    cases x with
    | waker e p n g => rfl
    | thread u g =>
      have hu : u ∈ T := hT u (by simp [queued, Waiter.isThread])
      have hcons (t : Tid) : (entriesOf t (.thread u g :: ws)).length =
          (entriesOf t ws).length + if t = u then 1 else 0 := by
        by_cases htu : t = u
        · subst htu
          simp [entriesOf, Waiter.isThread]
        · simp [entriesOf, Waiter.isThread, htu, Ne.symm htu]
      rw [Finset.sum_congr rfl fun t _ => hcons t, Finset.sum_add_distrib, Finset.sum_ite_eq' T u]
      simp [hu, Waiter.ofThread]

structure SlotSys.Growth (s : SlotSys O W) (n : Tid → Nat) : Prop where
  /-- A thread has one entry, and one more for each that the others have pushed meanwhile. -/
  each : ∀ t, (s.slot.registry.entriesOf t).length ≤ n t + 1
  /-- Only threads inside `wait` or `wait_timeout` have any. -/
  inside : s.slot.state.completed = false → ∀ t, s.slot.registry.queued t = true →
    (s.thr t).waiting = true
  total : s.slot.state.completed = false → ∀ T : Finset Tid,
    (∀ t, (s.thr t).waiting = true → t ∈ T) →
      s.slot.registry.countP Waiter.ofThread ≤ ∑ t ∈ T, (n t + 1)

end Growth

/-- **The blocking registry grows only by interleaved registrations.** In every reachable state,
with the pushes of others recorded. -/
theorem thread_registrations_bounded [WillWake W] {e : Env} {s : SlotSys O W} {n : Tid → Nat}
    (h : ((slotSystem O W).recording (fun _ => 0) noteOthers).Reachable ((e, s), n)) :
    s.Growth n := by
  have heach (t : Tid) : (s.slot.registry.entriesOf t).length ≤ n t + 1 :=
    (slotSystem_spaced h t).all
  have hinside (hc : s.slot.state.completed = false) (t : Tid)
      (ht : s.slot.registry.queued t = true) : (s.thr t).waiting = true := by
    rcases (slotSystem_safe h.forget).awake.inside t ht with hw | ⟨hdone, _⟩
    · exact hw
    · rw [hc] at hdone
      cases hdone
  constructor
  case each => exact heach
  case inside => exact hinside
  case total =>
    intro hc T hT
    rw [Registry.countP_threads fun t ht => hT t (hinside hc t ht)]
    apply Finset.sum_le_sum
    intro t _
    exact heach t

/-- Thread 0 parks, thread 1 parks behind it, and thread 0 wakes for no reason and registers again:
its entry is not the last one. -/
theorem duplicate_registration : ∃ (s : SlotSys Nat Nat) (n : Tid → Nat),
    ((slotSystem Nat Nat).recording (fun _ => 0) noteOthers).Reachable
      ((⟨fun _ => false, 0⟩, s), n) ∧
    s.held = none ∧ s.slot.state.completed = false ∧
    s.slot.registry = [.thread 0 1, .thread 1 1, .thread 0 1] ∧ n 0 = 1 ∧
    (∀ t, (s.thr t).waiting = true → t = 0 ∨ t = 1) := by
  have h₀ : ((slotSystem Nat Nat).recording (fun _ => 0) noteOthers).Reachable
    ((⟨fun _ => false, 0⟩, _), _) := .start ⟨1, rfl⟩
  have h₁ := h₀.record (.call 0 ⟨0, 1⟩ (.wait none) rfl rfl)
  have h₂ := h₁.record (.step (.thread 0 (.check_pending rfl rfl)))
  have h₃ := h₂.record (.step (.thread 0 (.setBit rfl)))
  have h₄ := h₃.record (.step (.thread 0 (.loadReg_null rfl rfl)))
  have h₅ := h₄.record (.step (.thread 0 (.casReg rfl)))
  have h₆ := h₅.record (.step (.thread 0 (.acquire_wait rfl rfl)))
  have h₇ := h₆.record (.step (.thread 0 (.push rfl)))
  have h₈ := h₇.record (.step (.thread 0 (.recheck_wait_pending rfl rfl)))
  have h₉ := h₈.record (.step (.thread 0 (.unlock_park rfl)))
  have h₁₀ := h₉.record (.call 1 ⟨1, 1⟩ (.wait none) rfl rfl)
  have h₁₁ := h₁₀.record (.step (.thread 1 (.check_pending rfl rfl)))
  have h₁₂ := h₁₁.record (.step (.thread 1 (.setBit rfl)))
  have h₁₃ := h₁₂.record (.step (.thread 1 (.loadReg_some rfl nofun)))
  have h₁₄ := h₁₃.record (.step (.thread 1 (.acquire_wait rfl rfl)))
  have h₁₅ := h₁₄.record (.step (.thread 1 (.push rfl)))
  have h₁₆ := h₁₅.record (.step (.thread 1 (.recheck_wait_pending rfl rfl)))
  have h₁₇ := h₁₆.record (.step (.thread 1 (.unlock_park rfl)))
  have h₁₈ := h₁₇.record (.step (.thread 0 (.park_spurious rfl)))
  have h₁₉ := h₁₈.record (.step (.thread 0 (.check_pending rfl rfl)))
  have h₂₀ := h₁₉.record (.step (.thread 0 (.setBit rfl)))
  have h₂₁ := h₂₀.record (.step (.thread 0 (.loadReg_some rfl nofun)))
  have h₂₂ := h₂₁.record (.step (.thread 0 (.acquire_wait rfl rfl)))
  have h₂₃ := h₂₂.record (.step (.thread 0 (.push rfl)))
  have h₂₄ := h₂₃.record (.step (.thread 0 (.recheck_wait_pending rfl rfl)))
  have h₂₅ := h₂₄.record (.step (.thread 0 (.unlock_park rfl)))
  refine ⟨_, _, h₂₅, rfl, rfl, rfl, rfl, ?_⟩
  intro t ht
  by_contra hne
  have ⟨h0, h1⟩ := not_or.mp hne
  simp [SlotSys.startCall, SlotSys.blank, h0, h1, ThreadPc.waiting] at ht

/-- A thread with two entries, and three entries of two threads. -/
theorem registrations_repeated : ∃ (e : Env) (s : SlotSys Nat Nat),
    (slotSystem Nat Nat).Reachable (e, s) ∧ s.held = none ∧ s.slot.state.completed = false ∧
    (s.slot.registry.entriesOf 0).length = 2 ∧
    (∀ t, (s.thr t).waiting = true → t ∈ ({0, 1} : Finset Tid)) ∧
    s.slot.registry.countP Waiter.ofThread = 3 := by
  have ⟨s, n, hrun, hheld, hc, hreg, _, hin⟩ := duplicate_registration
  refine ⟨_, s, hrun.forget, hheld, hc, ?_, ?_, ?_⟩
  · rw [hreg]
    decide
  · intro t ht
    simpa using hin t ht
  · rw [hreg]
    decide

/-- The bound is met: one push of thread 1 lets thread 0 have a second entry. -/
theorem repeated_registration_bounded : ∃ (s : SlotSys Nat Nat) (n : Tid → Nat), s.Growth n ∧
    (s.slot.registry.entriesOf 0).length = n 0 + 1 ∧ n 0 = 1 := by
  have ⟨s, n, hrun, _, _, hreg, hn, _⟩ := duplicate_registration
  refine ⟨s, n, thread_registrations_bounded hrun, ?_, hn⟩
  rw [hreg, hn]
  decide

end Observe
