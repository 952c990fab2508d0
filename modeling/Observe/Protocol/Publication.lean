import Observe.Protocol.Frames

/-!
# Mutual exclusion, publication and the drain

The invariants of one slot that say when its bits, its cell and its registry agree: who holds the
mutex, what `COMPLETED` promises about the cell, that a registered waiter has announced itself, and
that nothing stays in the registry behind the drain.
-/

namespace Observe

variable {O W : Type}

/-! ## Classes of program counters -/

def ThreadPc.announced : ThreadPc O W → Bool
  | .loadReg _ | .casReg _ | .acquire _ | .push _ | .recheck _ | .store _ | .dereg | .readLocked
  | .unlock _ | .clock _ | .park _ | .expire => true
  | _ => false

def FutPc.announced : FutPc O W → Bool
  | .loadReg (.register _) | .casReg (.register _) | .acquire (.register _) | .recheck _
  | .store _ => true
  | _ => false

def ThreadPc.seen : ThreadPc O W → Bool
  | .read | .readLocked | .dereg => true
  | _ => false

def FutPc.seen : FutPc O W → Bool
  | .read => true
  | _ => false

/-- The call found the slot pending while holding the mutex, and still holds it. -/
def ThreadPc.rechecked : ThreadPc O W → Bool
  | .store _ | .unlock .park | .unlock (.clock _)
  | .unlock (.returned (.registered _ false)) => true
  | _ => false

def FutPc.rechecked : FutPc O W → Bool
  | .store _ => true
  | _ => false

def ThreadPc.pushed : ThreadPc O W → Bool
  | .recheck (.wait _) | .dereg => true
  | _ => false

def ThreadPc.faulty : ThreadPc O W → Bool
  | .fault | .unlock .fault => true
  | _ => false

def FutPc.faulty : FutPc O W → Bool
  | .fault => true
  | _ => false

def CompPc.published : CompPc O W → Bool
  | .idle | .write .. | .publish .. => false
  | _ => true

/-- The registry is taken only after the publication. -/
theorem CompPc.published_of_taken {c : CompPc O W} (h : c.taken = true) : c.published = true := by
  cases c <;> first | rfl | cases h

/-- A recheck that found the slot pending is made under the mutex. -/
theorem ThreadPc.holds_of_rechecked {k : ThreadPc O W} (h : k.rechecked = true) :
    k.holds = true := by
  cases k <;> first | rfl | cases h

theorem ThreadPc.announced_of_rechecked {k : ThreadPc O W} (h : k.rechecked = true) :
    k.announced = true := by
  cases k <;> first | rfl | cases h

theorem FutPc.holds_of_rechecked {k : FutPc O W} (h : k.rechecked = true) : k.holds = true := by
  cases k <;> first | rfl | cases h

theorem FutPc.announced_of_rechecked {k : FutPc O W} (h : k.rechecked = true) :
    k.announced = true := by
  cases k <;> first | rfl | cases h

theorem ThreadPc.holds_of_pushed {k : ThreadPc O W} (h : k.pushed = true) : k.holds = true := by
  cases k <;> first | rfl | cases h

theorem ThreadPc.not_holds_of_inactive {k : ThreadPc O W} (h : k.active = false) :
    k.holds = false := by
  cases k <;> first | rfl | cases h

theorem FutPc.not_holds_of_inactive {k : FutPc O W} (h : k.active = false) : k.holds = false := by
  cases k <;> first | rfl | cases h

theorem FutPc.not_holds_of_resting {k : FutPc O W} (h : k.resting = true) : k.holds = false := by
  cases k <;> first | rfl | cases h

theorem CompPc.not_holds_of_resting {k : CompPc O W} (h : k.resting = true) : k.holds = false := by
  cases k <;> first | rfl | cases h

/-! ## The invariant -/

/-- What the completion's progress says about the cell of generation `gen`, whose published value
so far is `pub`. -/
def CompPc.CellOk (gen : Gen) (cell : Option (Gen × O)) (pub : Option O) : CompPc O W → Prop
  | .idle => cell = none ∧ pub = none
  | .write g _ => g = gen ∧ cell = none ∧ pub = none
  | .publish g v => g = gen ∧ cell = some (g, v) ∧ pub = none
  | .loadReg g | .casReg g | .acquire g | .take g | .unlock g _ | .notify g _ _ | .returned g _ =>
    g = gen ∧ ∃ v, cell = some (gen, v) ∧ pub = some v

structure SlotSys.Mutex (s : SlotSys O W) : Prop where
  thr : ∀ t, (s.thr t).holds = true ↔ s.held = some (.thread t)
  fut : ∀ f, (s.fpc f).holds = true ↔ s.held = some (.future f)
  comp : s.comp.holds = true ↔ s.held = some .completer

structure SlotSys.Published (s : SlotSys O W) : Prop where
  completed : s.slot.state.completed = s.comp.published
  outcomeValid : s.slot.state.outcomeValid = s.comp.published
  cell : s.comp.CellOk s.gen s.slot.outcome (s.published s.gen)
  thr : ∀ t, (s.thr t).seen = true → s.slot.state.completed = true
  fut : ∀ f, (s.fpc f).seen = true → s.slot.state.completed = true
  thrLive : ∀ t, (s.thr t).faulty = false
  futLive : ∀ f, (s.fpc f).faulty = false

/-- Whoever is in the registry or on the way into it has set `HAS_WAITER`. -/
structure SlotSys.Announced (s : SlotSys O W) : Prop where
  thr : ∀ t, (s.thr t).announced = true → s.slot.state.hasWaiter = true
  fut : ∀ f, (s.fpc f).announced = true → s.slot.state.hasWaiter = true
  registry : s.slot.registry ≠ [] → s.slot.state.hasWaiter = true

/-- Nobody registers behind the drain: a call that rechecked before it still holds the mutex, and a
call that rechecks after it takes its entry back. -/
structure SlotSys.Drained (s : SlotSys O W) : Prop where
  thr : ∀ t, (s.thr t).rechecked = true → s.comp.taken = false
  fut : ∀ f, (s.fpc f).rechecked = true → s.comp.taken = false
  registry : s.comp.taken = true →
    ∀ x ∈ s.slot.registry, ∃ t, x.isThread t = true ∧ (s.thr t).pushed = true

structure SlotSys.Wf (s : SlotSys O W) : Prop where
  mutex : s.Mutex
  published : s.Published
  announced : s.Announced
  drained : s.Drained

namespace SlotSys

/-- `COMPLETED` tells that the cell holds the value that the slot's generation has published. -/
theorem Published.live {s : SlotSys O W} (h : s.Published)
    (hc : s.slot.state.completed = true) :
    ∃ v, s.slot.outcome = some (s.gen, v) ∧ s.published s.gen = some v := by
  have hp := h.completed ▸ hc
  have hcell := h.cell
  cases hk : s.comp <;> rw [hk] at hp hcell <;>
    first | exact hcell.2 | cases hp

/-- A pending slot has published nothing for its generation. -/
theorem Published.pending {s : SlotSys O W} (h : s.Published)
    (hc : s.slot.state.completed = false) : s.published s.gen = none := by
  have hp := h.completed ▸ hc
  have hcell := h.cell
  cases hk : s.comp <;> rw [hk] at hp hcell <;>
    first | exact hcell.2.2 | exact hcell.2 | cases hp

/-- Behind the drain `COMPLETED` is set. -/
theorem Wf.completed_of_taken {s : SlotSys O W} (hw : s.Wf) (h : s.comp.taken = true) :
    s.slot.state.completed = true := by
  rw [hw.published.completed]
  exact CompPc.published_of_taken h

/-- Nothing is drained from a pending slot. -/
theorem Wf.not_taken_of_pending {s : SlotSys O W} (hw : s.Wf) (h : s.slot.state.completed = false) :
    s.comp.taken = false := by
  cases htk : s.comp.taken with
  | false => rfl
  | true => rw [hw.completed_of_taken htk] at h; cases h

/-- While nobody holds the mutex after the drain, the registry is empty. -/
theorem Wf.registry_nil {s : SlotSys O W} (h : s.Wf) (ht : s.comp.taken = true)
    (hfree : s.held = none) : s.slot.registry = [] := by
  rw [List.eq_nil_iff_forall_not_mem]
  intro x hx
  -- an entry would belong to a thread that has just pushed, and that thread holds the mutex
  obtain ⟨t, -, hp⟩ := h.drained.registry ht x hx
  have hheld := (h.mutex.thr t).mp (ThreadPc.holds_of_pushed hp)
  rw [hfree] at hheld
  cases hheld

/-- Behind the drain the holder of the mutex, unless it has just pushed, finds nothing there. -/
theorem Wf.registry_nil_of_holder {s : SlotSys O W} (h : s.Wf) (ht : s.comp.taken = true)
    {p : Proc} (hheld : s.held = some p)
    (hp : ∀ t, p = .thread t → (s.thr t).pushed = false) : s.slot.registry = [] := by
  rw [List.eq_nil_iff_forall_not_mem]
  intro x hx
  obtain ⟨t, -, hpush⟩ := h.drained.registry ht x hx
  -- the thread that has just pushed would be the holder
  have ht' := (h.mutex.thr t).mp (ThreadPc.holds_of_pushed hpush)
  rw [hheld, Option.some.injEq] at ht'
  rw [hp t ht'] at hpush
  cases hpush

end SlotSys

/-! ## Threads -/

/-- A step of `p` on the mutex is invisible to everybody else. -/
theorem held_other {p q : Proc} {a b : Option Proc} {c : Prop} (hmut : c → a = some p)
    (h : b = a ∨ (a = none ∧ b = some p) ∨ (c ∧ b = none)) (hq : q ≠ p) :
    b = some q ↔ a = some q := by
  rcases h with rfl | ⟨rfl, rfl⟩ | ⟨hc, rfl⟩
  · exact Iff.rfl
  · simp [hq.symm]
  · simp [hmut hc, hq.symm]

section Threads

variable [WillWake W] {t : Tid} {f : FutId} {e e' : Env} {s s' : SlotSys O W}

/-- A thread holds the mutex from its acquire to its unlock. -/
theorem ThreadStep.holds_self (h : ThreadStep t e s e' s')
    (hm : (s.thr t).holds = true ↔ s.held = some (.thread t)) :
    (s'.thr t).holds = true ↔ s'.held = some (.thread t) := by
  cases h <;> simp_all [ThreadPc.holds]

theorem SlotSys.Mutex.threadStep (hm : s.Mutex) (h : ThreadStep t e s e' s') : s'.Mutex := by
  have hother := fun q hq => held_other (q := q) (hm.thr t).mp h.held hq
  constructor
  · intro u
    by_cases hu : u = t
    · subst hu
      exact h.holds_self (hm.thr u)
    · rw [h.frame.thr u hu, hm.thr u]
      exact (hother _ (by simpa using hu)).symm
  · intro f
    rw [h.frame.fpc, hm.fut f]
    exact (hother _ (by simp)).symm
  · rw [h.frame.comp, hm.comp]
    exact (hother _ (by simp)).symm

/-- A thread that goes on to the outcome has seen `COMPLETED`. -/
theorem ThreadStep.seen_self (h : ThreadStep t e s e' s')
    (hs : (s.thr t).seen = true → s.slot.state.completed = true) :
    (s'.thr t).seen = true → s.slot.state.completed = true := by
  cases h <;> simp_all [ThreadPc.seen]

/-- A call that reads the cell has seen `COMPLETED`, so the cell is live. -/
theorem ThreadStep.live_self (h : ThreadStep t e s e' s') (hp : s.Published) :
    (s'.thr t).faulty = false := by
  have hold := hp.thrLive t
  have hcell (hseen : (s.thr t).seen = true) : s.slot.outcome ≠ none := by
    obtain ⟨v, hv, -⟩ := hp.live (hp.thr t hseen)
    simp [hv]
  -- a dead cell is read by nobody: the two reading steps contradict `hcell`
  cases h with
  | readLocked_dead hpc hv => exact absurd hv (hcell (by rw [hpc]; rfl))
  | read_dead hpc hv => exact absurd hv (hcell (by rw [hpc]; rfl))
  | unlock_fault hpc => simp [hpc, ThreadPc.faulty] at hold
  | _ => simp [ThreadPc.faulty]

theorem SlotSys.Published.threadStep (hp : s.Published) (h : ThreadStep t e s e' s') :
    s'.Published := by
  have hfr := h.frame
  -- the thread that steps is the only one whose program counter moves
  constructor
  · rw [hfr.completed, hfr.comp, hp.completed]
  · rw [hfr.outcomeValid, hfr.comp, hp.outcomeValid]
  · rw [hfr.comp, hfr.gen, hfr.outcome, hfr.published]
    exact hp.cell
  · intro u hu
    rw [hfr.completed]
    by_cases hut : u = t
    · subst hut
      exact h.seen_self (hp.thr u) hu
    · exact hp.thr u (by rwa [hfr.thr u hut] at hu)
  · intro f hf
    rw [hfr.completed]
    exact hp.fut f (by rwa [hfr.fpc] at hf)
  · intro u
    by_cases hut : u = t
    · subst hut
      exact h.live_self hp
    · rw [hfr.thr u hut]
      exact hp.thrLive u
  · intro f
    rw [hfr.fpc]
    exact hp.futLive f

/-- A thread that enters the registry has set `HAS_WAITER` first. -/
theorem ThreadStep.announced_self (h : ThreadStep t e s e' s')
    (ha : (s.thr t).announced = true → s.slot.state.hasWaiter = true) :
    (s'.thr t).announced = true → s'.slot.state.hasWaiter = true := by
  -- the step that makes the call announced is the one that sets the bit
  cases h with
  | setBit hpc => simp
  | _ => simp_all [ThreadPc.announced]

theorem SlotSys.Announced.threadStep (ha : s.Announced) (h : ThreadStep t e s e' s') :
    s'.Announced := by
  have hfr := h.frame
  constructor
  · intro u hu
    by_cases hut : u = t
    · subst hut
      exact h.announced_self (ha.thr u) hu
    · exact h.hasWaiter (ha.thr u (by rwa [hfr.thr u hut] at hu))
  · intro f hf
    exact h.hasWaiter (ha.fut f (by rwa [hfr.fpc] at hf))
  · intro hne
    apply h.hasWaiter
    -- whoever changes the registry has announced itself before
    cases h.edit with
    | none _ hr => exact ha.registry (by rwa [hr] at hne)
    | push d hpc => exact ha.thr t (by rw [hpc]; rfl)
    | store w hpc => exact ha.thr t (by rw [hpc]; rfl)
    | retain hpc =>
      rcases hpc with hpc | hpc <;> exact ha.thr t (by rw [hpc]; rfl)

/-- A recheck goes on under the mutex only if it found the slot pending. -/
theorem ThreadStep.rechecked_self (h : ThreadStep t e s e' s') :
    (s'.thr t).rechecked = true →
      (s.thr t).rechecked = true ∨ s.slot.state.completed = false := by
  cases h <;> simp_all [ThreadPc.rechecked]

/-- After publication a thread that has pushed leaves the registry as its very next access. -/
theorem ThreadStep.pushed_self (h : ThreadStep t e s e' s')
    (hc : s.slot.state.completed = true) (hp : (s.thr t).pushed = true) :
    (s'.thr t).pushed = true ∨ s.thr t = .dereg := by
  cases h <;> simp_all [ThreadPc.pushed]

/-- A thread that pushes behind the drain takes its entry back. -/
theorem SlotSys.Drained.threadStep (hw : s.Wf) (h : ThreadStep t e s e' s') : s'.Drained := by
  have hfr := h.frame
  have hd := hw.drained
  constructor
  · intro u hu
    rw [hfr.comp]
    by_cases hut : u = t
    · subst hut
      rcases h.rechecked_self hu with hr | hc
      · exact hd.thr u hr
      · exact hw.not_taken_of_pending hc
    · exact hd.thr u (by rwa [hfr.thr u hut] at hu)
  · intro f hf
    rw [hfr.comp]
    exact hd.fut f (by rwa [hfr.fpc] at hf)
  · intro htk x hx
    rw [hfr.comp] at htk
    -- behind the drain the registry holds at most the thread that has just pushed
    cases h.edit with
    | none hpc hr =>
      rw [hr] at hx
      obtain ⟨u, hxu, hu⟩ := hd.registry htk x hx
      refine ⟨u, hxu, ?_⟩
      by_cases hut : u = t
      · subst hut
        exact (h.pushed_self (hw.completed_of_taken htk) hu).resolve_right hpc
      · rw [hfr.thr u hut]
        exact hu
    | push d hpc hpc' hr =>
      have hnil : s.slot.registry = [] := by
        refine hw.registry_nil_of_holder htk ((hw.mutex.thr t).mp (by rw [hpc]; rfl)) ?_
        rintro u hu
        cases hu
        rw [hpc]; rfl
      rw [hr, hnil] at hx
      simp only [Registry.pushThread, List.getLast?_nil, Option.any_none, Bool.false_eq_true,
        if_false, List.nil_append, List.mem_singleton] at hx
      exact ⟨t, by simp [hx, Waiter.isThread], by rw [hpc']; rfl⟩
    -- a registration that comes this far has rechecked, so the drain is still to come
    | store w hpc =>
      have hnot := hd.thr t (by rw [hpc]; rfl)
      rw [htk] at hnot
      cases hnot
    | retain hpc hpc' hr =>
      rw [hr] at hx
      obtain ⟨hmem, hne⟩ := List.mem_filter.mp hx
      obtain ⟨u, hxu, hu⟩ := hd.registry htk x hmem
      -- the only thread with an entry is the one that holds the mutex, which is `t`
      have hut : u = t := by
        have h₁ := (hw.mutex.thr u).mp (ThreadPc.holds_of_pushed hu)
        have h₂ := (hw.mutex.thr t).mp (by rcases hpc with hpc | hpc <;> rw [hpc] <;> rfl)
        rw [h₁] at h₂
        simpa using h₂
      rw [← hut, hxu] at hne
      cases hne

theorem SlotSys.Wf.threadStep (hw : s.Wf) (h : ThreadStep t e s e' s') : s'.Wf :=
  ⟨hw.mutex.threadStep h, hw.published.threadStep h, hw.announced.threadStep h,
    SlotSys.Drained.threadStep hw h⟩

/-! ## Futures -/

/-- A future holds the mutex from its acquire to its unlock. -/
theorem FutStep.holds_self (h : FutStep f s s')
    (hm : (s.fpc f).holds = true ↔ s.held = some (.future f)) :
    (s'.fpc f).holds = true ↔ s'.held = some (.future f) := by
  cases h <;> simp_all [FutPc.holds]

theorem SlotSys.Mutex.futStep (hm : s.Mutex) (h : FutStep f s s') : s'.Mutex := by
  have hother := fun q hq => held_other (q := q) (hm.fut f).mp h.held hq
  constructor
  · intro t
    rw [h.frame.thr, hm.thr t]
    exact (hother _ (by simp)).symm
  · intro i
    by_cases hi : i = f
    · subst hi
      exact h.holds_self (hm.fut i)
    · rw [h.frame.fpc i hi, hm.fut i]
      exact (hother _ (by simpa using hi)).symm
  · rw [h.frame.comp, hm.comp]
    exact (hother _ (by simp)).symm

/-- A future that goes on to the outcome has seen `COMPLETED`. -/
theorem FutStep.seen_self (h : FutStep f s s')
    (hs : (s.fpc f).seen = true → s.slot.state.completed = true) :
    (s'.fpc f).seen = true → s.slot.state.completed = true := by
  cases h <;> simp_all [FutPc.seen]

/-- A future that reads finds a live cell. -/
theorem FutStep.live_self (h : FutStep f s s') (hp : s.Published) : (s'.fpc f).faulty = false := by
  cases h with
  | read_dead hpc hv =>
    obtain ⟨v, hlive, -⟩ := hp.live (hp.fut f (by rw [hpc]; rfl))
    rw [hv] at hlive
    cases hlive
  | _ => simp [FutPc.faulty]

theorem SlotSys.Published.futStep (hp : s.Published) (h : FutStep f s s') : s'.Published := by
  have hfr := h.frame
  constructor
  · rw [hfr.completed, hfr.comp, hp.completed]
  · rw [hfr.outcomeValid, hfr.comp, hp.outcomeValid]
  · rw [hfr.comp, hfr.gen, hfr.outcome, hfr.published]
    exact hp.cell
  · intro t ht
    rw [hfr.completed]
    exact hp.thr t (by rwa [hfr.thr] at ht)
  · intro i hi
    rw [hfr.completed]
    by_cases hif : i = f
    · subst hif
      exact h.seen_self (hp.fut i) hi
    · exact hp.fut i (by rwa [hfr.fpc i hif] at hi)
  · intro t
    rw [hfr.thr]
    exact hp.thrLive t
  · intro i
    by_cases hif : i = f
    · subst hif
      exact h.live_self hp
    · rw [hfr.fpc i hif]
      exact hp.futLive i

/-- A future that enters the registry has set `HAS_WAITER` first. -/
theorem FutStep.announced_self (h : FutStep f s s')
    (ha : (s.fpc f).announced = true → s.slot.state.hasWaiter = true) :
    (s'.fpc f).announced = true → s'.slot.state.hasWaiter = true := by
  cases h with
  | setBit hpc => simp
  | @loadReg_null c hpc hn => cases c <;> simp_all [FutPc.announced]
  | @loadReg_some c hpc hn => cases c <;> simp_all [FutPc.announced]
  | @casReg c hpc => cases c <;> simp_all [FutPc.announced]
  | _ => simp_all [FutPc.announced]

theorem Registry.cancel_ne_nil {mine : List W} {ws : Registry W}
    (h : Registry.cancel mine ws ≠ []) : ws ≠ [] := by
  rintro rfl
  exact h rfl

theorem SlotSys.Announced.futStep (ha : s.Announced) (h : FutStep f s s') : s'.Announced := by
  have hfr := h.frame
  constructor
  · intro t ht
    exact h.hasWaiter (ha.thr t (by rwa [hfr.thr] at ht))
  · intro i hi
    by_cases hif : i = f
    · subst hif
      exact h.announced_self (ha.fut i) hi
    · exact h.hasWaiter (ha.fut i (by rwa [hfr.fpc i hif] at hi))
  · intro hne
    apply h.hasWaiter
    cases h.edit with
    | none hr => exact ha.registry (by rwa [hr] at hne)
    | store w hpc => exact ha.fut f (by rw [hpc]; rfl)
    | record w b hpc hpc' hc hr => exact ha.registry (by rwa [hr] at hne)
    | remove hpc hpc' hr => exact ha.registry (Registry.cancel_ne_nil (by rwa [hr] at hne))

/-- A future goes on to register only if its recheck found the slot pending. -/
theorem FutStep.rechecked_self (h : FutStep f s s') :
    (s'.fpc f).rechecked = true → s.slot.state.completed = false := by
  cases h <;> simp_all [FutPc.rechecked]

/-- A future that rechecks behind the drain registers nothing. -/
theorem SlotSys.Drained.futStep (hw : s.Wf) (h : FutStep f s s') : s'.Drained := by
  have hfr := h.frame
  have hd := hw.drained
  constructor
  · intro t ht
    rw [hfr.comp]
    exact hd.thr t (by rwa [hfr.thr] at ht)
  · intro i hi
    rw [hfr.comp]
    by_cases hif : i = f
    · subst hif
      exact hw.not_taken_of_pending (h.rechecked_self hi)
    · exact hd.fut i (by rwa [hfr.fpc i hif] at hi)
  · intro htk x hx
    rw [hfr.comp] at htk
    rw [hfr.thr]
    cases h.edit with
    | none hr => exact hd.registry htk x (by rwa [hr] at hx)
    -- the future has rechecked under the mutex, before any drain
    | store w hpc =>
      have hnot := hd.fut f (by rw [hpc]; rfl)
      rw [htk] at hnot
      cases hnot
    | record w b hpc hpc' hc hr => exact hd.registry htk x (by rwa [hr] at hx)
    | remove hpc hpc' hr =>
      have hnil : s.slot.registry = [] :=
        hw.registry_nil_of_holder htk ((hw.mutex.fut f).mp (by rw [hpc]; rfl)) (by simp)
      rw [hr, hnil] at hx
      cases hx

theorem SlotSys.Wf.futStep (hw : s.Wf) (h : FutStep f s s') : s'.Wf :=
  ⟨hw.mutex.futStep h, hw.published.futStep h, hw.announced.futStep h,
    SlotSys.Drained.futStep hw h⟩

end Threads

/-! ## Completion -/

section Completion

variable {e e' : Env} {s s' : SlotSys O W}

/-- The completion holds the mutex from its acquire to its unlock. -/
theorem CompStep.holds_self (h : CompStep e s e' s')
    (hm : s.comp.holds = true ↔ s.held = some .completer) :
    s'.comp.holds = true ↔ s'.held = some .completer := by
  cases h <;> simp_all [CompPc.holds]

theorem SlotSys.Mutex.compStep (hm : s.Mutex) (h : CompStep e s e' s') : s'.Mutex := by
  have hother := fun q hq => held_other (q := q) hm.comp.mp h.held hq
  constructor
  · intro t
    rw [h.frame.thr, hm.thr t]
    exact (hother _ (by simp)).symm
  · intro f
    rw [h.frame.fpc, hm.fut f]
    exact (hother _ (by simp)).symm
  · exact h.holds_self hm.comp

/-- The `fetch_or` publishes the value that the cell already holds. -/
theorem CompStep.cell_self (h : CompStep e s e' s') (hp : s.Published) :
    s'.comp.CellOk s'.gen s'.slot.outcome (s'.published s'.gen) := by
  have hcell := hp.cell
  -- only the `fetch_or` changes what is published, and it finds the cell written
  cases h with
  | write hpc =>
    rw [hpc] at hcell
    obtain ⟨rfl, -, hpub⟩ := hcell
    exact ⟨rfl, rfl, hpub⟩
  | publish_alone hpc hw =>
    rw [hpc] at hcell
    obtain ⟨rfl, hv, -⟩ := hcell
    exact ⟨rfl, _, hv, by simp⟩
  | publish_waiters hpc hw =>
    rw [hpc] at hcell
    obtain ⟨rfl, hv, -⟩ := hcell
    exact ⟨rfl, _, hv, by simp⟩
  | _ => simp_all [CompPc.CellOk]

/-- The one `fetch_or` of the completion sets both of its bits. -/
theorem CompStep.bits (h : CompStep e s e' s') (hp : s.Published) :
    s'.slot.state.completed = s'.comp.published ∧
      s'.slot.state.outcomeValid = s'.comp.published := by
  have h₁ := hp.completed
  have h₂ := hp.outcomeValid
  cases h <;> simp_all [CompPc.published, Slot.setOutcome]

/-- The cell is written before its bit is set. -/
theorem SlotSys.Published.compStep (hp : s.Published) (h : CompStep e s e' s') :
    s'.Published := by
  have hfr := h.frame
  have hmono := h.completed
  refine ⟨(h.bits hp).1, (h.bits hp).2, h.cell_self hp, ?thr, ?fut, ?thrLive, ?futLive⟩
  case thr =>
    intro t ht
    exact hmono (hp.thr t (by rwa [hfr.thr] at ht))
  case fut =>
    intro f hf
    exact hmono (hp.fut f (by rwa [hfr.fpc] at hf))
  case thrLive =>
    rw [hfr.thr]
    exact hp.thrLive
  case futLive =>
    rw [hfr.fpc]
    exact hp.futLive

theorem SlotSys.Announced.compStep (ha : s.Announced) (h : CompStep e s e' s') :
    s'.Announced := by
  have hfr := h.frame
  constructor
  · rw [hfr.thr, hfr.hasWaiter]
    exact ha.thr
  · rw [hfr.fpc, hfr.hasWaiter]
    exact ha.fut
  · rw [hfr.hasWaiter]
    intro hne
    rcases h.registry with hr | ⟨g, -, hr, -⟩
    · exact ha.registry (by rwa [hr] at hne)
    · exact absurd hr hne

/-- How the completion gets behind the drain: through the registry, or because nobody waits. -/
theorem CompStep.taken_self (h : CompStep e s e' s') (ht : s'.comp.taken = true) :
    s.comp.taken = true ∨ (∃ g, s.comp = .take g) ∨ s.slot.state.hasWaiter = false := by
  cases h <;> simp_all [CompPc.taken]

/-- The drain leaves an empty registry behind. -/
theorem SlotSys.Drained.compStep (hw : s.Wf) (h : CompStep e s e' s') : s'.Drained := by
  have hfr := h.frame
  have hd := hw.drained
  -- nobody is past its recheck when the completion goes behind the drain
  have hnobody (p : Proc) (hp : p ≠ .completer) (hheld : s.held = some p)
      (hwait : s.slot.state.hasWaiter = true) (hnt : s.comp.taken = false) :
      s'.comp.taken = false := by
    cases ht : s'.comp.taken with
    | false => rfl
    | true =>
      -- `take` needs the mutex, and the shortcut needs that nobody has announced itself
      rcases h.taken_self ht with hold | ⟨g, hg⟩ | hno
      · rw [hnt] at hold; cases hold
      · have hc := hw.mutex.comp.mp (by rw [hg]; rfl)
        rw [hheld, Option.some.injEq] at hc
        exact absurd hc hp
      · rw [hwait] at hno; cases hno
  constructor
  · intro t ht
    rw [hfr.thr] at ht
    exact hnobody (.thread t) (by simp) ((hw.mutex.thr t).mp (ThreadPc.holds_of_rechecked ht))
      (hw.announced.thr t (ThreadPc.announced_of_rechecked ht)) (hd.thr t ht)
  · intro f hf
    rw [hfr.fpc] at hf
    exact hnobody (.future f) (by simp) ((hw.mutex.fut f).mp (FutPc.holds_of_rechecked hf))
      (hw.announced.fut f (FutPc.announced_of_rechecked hf)) (hd.fut f hf)
  · intro ht x hx
    rw [hfr.thr]
    rcases h.registry with hr | ⟨g, -, hr, -⟩
    · rw [hr] at hx
      rcases h.taken_self ht with hold | ⟨g, hg⟩ | hno
      · exact hd.registry hold x hx
      · -- `take` leaves the registry empty
        cases h <;> simp_all [Slot.registry]
      · have hwait := hw.announced.registry (List.ne_nil_of_mem hx)
        rw [hno] at hwait
        cases hwait
    · rw [hr] at hx
      cases hx

theorem SlotSys.Wf.compStep (hw : s.Wf) (h : CompStep e s e' s') : s'.Wf :=
  ⟨hw.mutex.compStep h, hw.published.compStep h, hw.announced.compStep h,
    SlotSys.Drained.compStep hw h⟩

end Completion

/-! ## Starting calls, and the next generation -/

namespace SlotSys

variable {s s' : SlotSys O W} {t : Tid} {f : FutId} {g : Gen}

/-- The invariant looks at the memory, the mutex, the program counters and what is published. -/
theorem Wf.congr (hw : s.Wf) (hslot : s'.slot = s.slot) (hheld : s'.held = s.held)
    (hthr : s'.thr = s.thr) (hfpc : s'.fpc = s.fpc) (hcomp : s'.comp = s.comp)
    (hgen : s'.gen = s.gen) (hpub : s'.published = s.published) : s'.Wf := by
  cases s
  cases s'
  subst hslot hheld hthr hfpc hcomp hgen hpub
  exact ⟨⟨hw.mutex.thr, hw.mutex.fut, hw.mutex.comp⟩,
    ⟨hw.published.completed, hw.published.outcomeValid, hw.published.cell, hw.published.thr,
      hw.published.fut, hw.published.thrLive, hw.published.futLive⟩,
    ⟨hw.announced.thr, hw.announced.fut, hw.announced.registry⟩,
    ⟨hw.drained.thr, hw.drained.fut, hw.drained.registry⟩⟩

/-- A thread outside the registry may go to any other such place. -/
theorem Wf.goThr (hw : s.Wf) {k : ThreadPc O W} (hold : (s.thr t).holds = false)
    (hk : k.holds = false ∧ k.announced = false ∧ k.seen = false ∧ k.faulty = false) :
    (s.goThr t k).Wf := by
  obtain ⟨hkh, hka, hks, hkf⟩ := hk
  have hkr : k.rechecked = false := by
    cases hr : k.rechecked with
    | false => rfl
    | true => rw [ThreadPc.holds_of_rechecked hr] at hkh; cases hkh
  -- a thread outside the mutex has no entry that it has just pushed
  have hpush : (s.thr t).pushed = false := by
    cases hp : (s.thr t).pushed with
    | false => rfl
    | true => rw [ThreadPc.holds_of_pushed hp] at hold; cases hold
  have hset (P : ThreadPc O W → Bool) (u : Tid) (hP : P k = false)
      (h : P (Function.update s.thr t k u) = true) : u ≠ t ∧ P (s.thr u) = true := by
    by_cases hu : u = t
    · rw [hu, Function.update_self, hP] at h; cases h
    · exact ⟨hu, by rwa [Function.update_of_ne hu] at h⟩
  refine ⟨⟨fun u => ?_, hw.mutex.fut, hw.mutex.comp⟩,
    ⟨hw.published.completed, hw.published.outcomeValid, hw.published.cell,
      fun u h => hw.published.thr u (hset ThreadPc.seen u hks h).2, hw.published.fut,
      fun u => ?_, hw.published.futLive⟩,
    ⟨fun u h => hw.announced.thr u (hset ThreadPc.announced u hka h).2, hw.announced.fut,
      hw.announced.registry⟩,
    ⟨fun u h => hw.drained.thr u (hset ThreadPc.rechecked u hkr h).2, hw.drained.fut, ?_⟩⟩
  · by_cases hu : u = t
    · have := hw.mutex.thr u
      simp_all
    · simpa [Function.update_of_ne hu] using hw.mutex.thr u
  · by_cases hu : u = t
    · simpa [hu] using hkf
    · simpa [Function.update_of_ne hu] using hw.published.thrLive u
  · intro htk x hx
    obtain ⟨u, hxu, hu⟩ := hw.drained.registry htk x hx
    refine ⟨u, hxu, ?_⟩
    have hut : u ≠ t := by
      rintro rfl
      rw [hpush] at hu
      cases hu
    simpa [Function.update_of_ne hut] using hu

/-- A future outside the registry may go to any other such place. -/
theorem Wf.goFut (hw : s.Wf) {k : FutPc O W} (hold : (s.fpc f).holds = false)
    (hk : k.holds = false ∧ k.announced = false ∧ k.seen = false ∧ k.faulty = false) :
    (s.goFut f k).Wf := by
  obtain ⟨hkh, hka, hks, hkf⟩ := hk
  have hkr : k.rechecked = false := by
    cases hr : k.rechecked with
    | false => rfl
    | true => rw [FutPc.holds_of_rechecked hr] at hkh; cases hkh
  have hset (P : FutPc O W → Bool) (i : FutId) (hP : P k = false)
      (h : P (Function.update s.fpc f k i) = true) : P (s.fpc i) = true := by
    by_cases hi : i = f
    · rw [hi, Function.update_self, hP] at h; cases h
    · rwa [Function.update_of_ne hi] at h
  refine ⟨⟨hw.mutex.thr, fun i => ?_, hw.mutex.comp⟩,
    ⟨hw.published.completed, hw.published.outcomeValid, hw.published.cell, hw.published.thr,
      fun i h => hw.published.fut i (hset FutPc.seen i hks h), hw.published.thrLive,
      fun i => ?_⟩,
    ⟨hw.announced.thr, fun i h => hw.announced.fut i (hset FutPc.announced i hka h),
      hw.announced.registry⟩,
    ⟨hw.drained.thr, fun i h => hw.drained.fut i (hset FutPc.rechecked i hkr h),
      hw.drained.registry⟩⟩
  · by_cases hi : i = f
    · have := hw.mutex.fut i
      simp_all
    · simpa [Function.update_of_ne hi] using hw.mutex.fut i
  · by_cases hi : i = f
    · simpa [hi] using hkf
    · simpa [Function.update_of_ne hi] using hw.published.futLive i

theorem Wf.startCall (hw : s.Wf) (hidle : (s.thr t).active = false) (h : Handle) (c : Call W) :
    (s.startCall t h c).Wf :=
  (hw.goThr (k := c.entry) (ThreadPc.not_holds_of_inactive hidle)
    (by cases c <;> exact ⟨rfl, rfl, rfl, rfl⟩)).congr rfl rfl rfl rfl rfl rfl rfl

theorem Wf.newFuture (hw : s.Wf) (hidle : (s.fpc f).active = false) (g : Gen) :
    (s.newFuture f g).Wf :=
  (hw.goFut (k := .idle) (FutPc.not_holds_of_inactive hidle) ⟨rfl, rfl, rfl, rfl⟩).congr
    rfl rfl rfl rfl rfl rfl rfl

theorem Wf.startPoll (hw : s.Wf) (hrest : (s.fpc f).resting = true) (w : W) :
    (s.startPoll f w).Wf :=
  hw.goFut (FutPc.not_holds_of_resting hrest) ⟨rfl, rfl, rfl, rfl⟩

theorem Wf.startCancel (hw : s.Wf) (hrest : (s.fpc f).resting = true) :
    (s.startCancel f).Wf := by
  -- without a recorded waker the drop is over at once
  unfold SlotSys.startCancel
  split
  · exact (hw.goFut (k := .dead) (FutPc.not_holds_of_resting hrest)
      ⟨rfl, rfl, rfl, rfl⟩).congr rfl rfl rfl rfl rfl rfl rfl
  · exact hw.goFut (FutPc.not_holds_of_resting hrest) ⟨rfl, rfl, rfl, rfl⟩

theorem Wf.startComplete (hw : s.Wf) (hidle : s.comp = .idle) (v : O) :
    (s.startComplete s.gen v).Wf := by
  have hc := hw.published.cell
  have hb := hw.published.completed
  have hv := hw.published.outcomeValid
  have hm := hw.mutex.comp
  rw [hidle] at hc hb hv hm
  refine ⟨⟨hw.mutex.thr, hw.mutex.fut, hm⟩,
    ⟨hb, hv, ⟨rfl, hc.1, hc.2⟩, hw.published.thr, hw.published.fut, hw.published.thrLive,
      hw.published.futLive⟩,
    ⟨hw.announced.thr, hw.announced.fut, hw.announced.registry⟩,
    ⟨fun t h => ?_, fun f h => ?_, fun h => ?_⟩⟩
  · rfl
  · rfl
  · cases h

/-- A resting completion leaves the validity bit telling the truth about the cell. -/
theorem Published.valid_iff (hp : s.Published) (hrest : s.comp.resting = true) :
    s.slot.state.outcomeValid = s.slot.outcome.isSome := by
  have hc := hp.cell
  have hv := hp.outcomeValid
  -- at rest the completion has not begun or has returned
  cases hk : s.comp with
  | idle =>
    rw [hk] at hc hv
    rw [hv, hc.1]
    rfl
  | returned g b =>
    rw [hk] at hc hv
    obtain ⟨-, v, hcell, -⟩ := hc
    rw [hv, hcell]
    rfl
  | _ => rw [hk] at hrest; cases hrest

/-- With no call in flight nobody holds the mutex. -/
theorem Mutex.free (hm : s.Mutex) (hthr : ∀ t, (s.thr t).active = false)
    (hfut : ∀ f, (s.fpc f).active = false) (hcomp : s.comp.resting = true) : s.held = none := by
  cases hh : s.held with
  | none => rfl
  | some p =>
    -- every holder would be inside a call
    cases p with
    | thread t =>
      have hold := (hm.thr t).mpr hh
      rw [ThreadPc.not_holds_of_inactive (hthr t)] at hold
      cases hold
    | future f =>
      have hold := (hm.fut f).mpr hh
      rw [FutPc.not_holds_of_inactive (hfut f)] at hold
      cases hold
    | completer =>
      have hold := hm.comp.mpr hh
      rw [CompPc.not_holds_of_resting hcomp] at hold
      cases hold

theorem Quiescent.free (hq : s.Quiescent) (hm : s.Mutex) : s.held = none :=
  hm.free hq.thr hq.fut hq.comp

/-- A slot without calls in flight is ready for a generation once its memory is pending, its cell
dead and its registry empty. -/
theorem Wf.prepared (hw : s.Wf) (hq : s.Quiescent) {m : Slot O W} (hstate : m.state = .zero)
    (hcell : m.outcome = none) (hreg : m.registry = []) (hpub : s.published g = none) :
    { s with slot := m, comp := .idle, gen := g }.Wf := by
  -- no class of program counters that the invariant speaks of has an inactive one in it
  have hthr (P : ThreadPc O W → Bool) (t : Tid)
      (hP : ∀ k : ThreadPc O W, k.active = false → P k = false) : P (s.thr t) ≠ true := by
    rw [hP _ (hq.thr t)]; simp
  have hfut (P : FutPc O W → Bool) (f : FutId)
      (hP : ∀ k : FutPc O W, k.active = false → P k = false) : P (s.fpc f) ≠ true := by
    rw [hP _ (hq.fut f)]; simp
  have hfree := hq.free hw.mutex
  constructor
  · refine ⟨fun t => ?_, fun f => ?_, ?_⟩
    · exact hw.mutex.thr t
    · exact hw.mutex.fut f
    · simp [CompPc.holds, hfree]
  · refine ⟨by simp [hstate, StateWord.zero, CompPc.published],
      by simp [hstate, StateWord.zero, CompPc.published], ⟨hcell, hpub⟩, fun t h => ?_,
      fun f h => ?_, hw.published.thrLive, hw.published.futLive⟩
    · exact absurd h (hthr ThreadPc.seen t (by intro k hk; cases k <;> first | rfl | cases hk))
    · exact absurd h (hfut FutPc.seen f (by intro k hk; cases k <;> first | rfl | cases hk))
  · refine ⟨fun t h => ?_, fun f h => ?_, fun h => absurd hreg h⟩
    · exact absurd h
        (hthr ThreadPc.announced t (by intro k hk; cases k <;> first | rfl | cases hk))
    · exact absurd h
        (hfut FutPc.announced f (by intro k hk; cases k <;> first | rfl | cases hk))
  · exact ⟨fun _ _ => rfl, fun _ _ => rfl, fun h => by cases h⟩

/-- A recycled slot is one that `Slot::new` could have made, but for its history. -/
theorem Wf.recycle (hw : s.Wf) (hq : s.Quiescent) (hpub : s.published g = none) :
    (s.recycle g).Wf :=
  (hw.prepared hq s.slot.reset_state (Slot.reset_outcome (hw.published.valid_iff hq.comp))
    (Slot.reset_registry hw.announced.registry) hpub).congr rfl rfl rfl rfl rfl rfl rfl

theorem Wf.fresh : (blank.fresh g : SlotSys O W).Wf := by
  constructor <;> constructor <;>
    simp [blank, SlotSys.fresh, ThreadPc.holds, FutPc.holds, CompPc.holds, CompPc.published,
      CompPc.CellOk, ThreadPc.seen, FutPc.seen, ThreadPc.faulty, FutPc.faulty,
      ThreadPc.announced, FutPc.announced, ThreadPc.rechecked, FutPc.rechecked, StateWord.zero,
      Slot.new, Slot.registry]

end SlotSys

end Observe
