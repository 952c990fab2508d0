import Observe.Protocol.Lifetime

/-!
# Deadlines

`wait_timeout` looks for the outcome, then at the clock.  An outcome published between the two
looks, while the deadline was still to come, is missed when the clock has passed the deadline by
the time it is read: the call deregisters and returns nothing without another look at the slot.
-/

namespace Observe

variable {O W : Type}

/-! ## The deadline of a call -/

def Section.deadline : Section W → Option Nat
  | .wait d => d
  | _ => none

def ThreadPc.deadline : ThreadPc O W → Option Nat
  | .check c | .setBit c | .loadReg c | .casReg c | .acquire c | .recheck c => c.deadline
  | .push d | .park d => d
  | .unlock (.clock d) | .clock d => some d
  | _ => none

def Section.timedOut : Section W → Bool
  | .timeout => true
  | _ => false

/-- `park_until` has returned `false`, or the call returns nothing: it does not look at the slot
again. -/
def ThreadPc.givesUp : ThreadPc O W → Bool
  | .check c | .setBit c | .loadReg c | .casReg c | .acquire c | .recheck c => c.timedOut
  | .expire => true
  | .unlock (.returned .none) | .returned .none => true
  | _ => false

theorem Call.entry_active (c : Call W) : (c.entry : ThreadPc O W).active = true := by
  cases c <;> rfl

theorem Call.entry_givesUp (c : Call W) : (c.entry : ThreadPc O W).givesUp = false := by
  cases c <;> rfl

section Steps

variable [WillWake W] {t : Tid} {e e' : Env} {s s' : SlotSys O W}

/-- A step gives a call no deadline that it did not have. -/
theorem ThreadStep.deadline (h : ThreadStep t e s e' s') {d : Nat}
    (hd : (s'.thr t).deadline = some d) : (s.thr t).deadline = some d := by
  cases h <;> simp_all [ThreadPc.deadline, Section.deadline]

theorem ThreadStep.now (h : ThreadStep t e s e' s') : e'.now = e.now := by
  cases h <;> rfl

theorem ThreadStep.ne_tryGet (h : ThreadStep t e s e' s') : s'.thr t ≠ .tryGet := by
  cases h <;> simp

/-- A call gives up when it reads a clock that has passed its deadline; `try_get` has none. -/
theorem ThreadStep.givesUp_cases (h : ThreadStep t e s e' s') (hg : (s'.thr t).givesUp = true) :
    (s.thr t).givesUp = true ∨ s.thr t = .tryGet ∨
      ∃ d, s.thr t = .clock d ∧ d ≤ e.now ∧ s'.thr t = .loadReg .timeout := by
  cases h with
  | tryGet_pending hpc hc => exact .inr (.inl hpc)
  | @clock_expired d hpc hnow => exact .inr (.inr ⟨d, hpc, hnow, by simp⟩)
  | acquire_timeout hpc hfree => left; rw [hpc]; rfl
  | expire hpc => left; rw [hpc]; rfl
  | @unlock_return r hpc => left; cases r <;> simp_all [ThreadPc.givesUp]
  | _ => simp_all [ThreadPc.givesUp, Section.timedOut]

/-- A call that has given up deregisters and returns nothing. -/
theorem ThreadStep.givesUp (h : ThreadStep t e s e' s') (hg : (s.thr t).givesUp = true) :
    (s'.thr t).givesUp = true := by
  cases h with
  | @unlock_return r hpc => cases r <;> simp_all [ThreadPc.givesUp]
  | _ => simp_all [ThreadPc.givesUp, Section.timedOut]

omit [WillWake W] in
theorem CompStep.now (h : CompStep e s e' s') : e'.now = e.now := by
  cases h <;> rfl

end Steps

/-! ## Publications and deadlines in the past of a run -/

/-- The clock when `COMPLETED` was set for the slot's generation, and the deadline of each thread's
latest call. -/
structure Deadlines where
  published : Option Nat
  due : Tid → Option Nat

def Deadlines.start : Deadlines := ⟨none, fun _ => none⟩

def Deadlines.note (x x' : Env × SlotSys O W) (a : Deadlines) : Deadlines where
  published :=
    if x'.2.gen ≠ x.2.gen then none
    else if x.2.slot.state.completed = false ∧ x'.2.slot.state.completed = true then some x.1.now
    else a.published
  due t :=
    if (x.2.thr t).active = false ∧ (x'.2.thr t).active = true then (x'.2.thr t).deadline
    else a.due t

abbrev deadlineSystem (O W : Type) [WillWake W] : Lib.System ((Env × SlotSys O W) × Deadlines) :=
  (slotSystem O W).recording .start Deadlines.note

structure InTime (x : (Env × SlotSys O W) × Deadlines) : Prop where
  /-- No call gives up on an outcome that was published before its deadline. -/
  pending : ∀ t d p, (x.1.2.thr t).givesUp = true → x.2.due t = some d →
    x.2.published = some p → d ≤ p
  value : ∀ t v, x.1.2.thr t = .returned (.value v) →
    x.1.2.published (x.1.2.via t).gen = some v

/-- No thread sees its deadline pass when the outcome was published before it, which was then after
the thread's recheck (`published_after_recheck`). -/
def NoMiss (x x' : (Env × SlotSys O W) × Deadlines) : Prop :=
  ∀ t d p, x.1.2.thr t = .clock d → x'.1.2.thr t = .loadReg .timeout →
    x.2.published = some p → d ≤ p

structure Deadlines.Kept (e : Env) (s : SlotSys O W) (a : Deadlines) : Prop where
  past : ∀ p, a.published = some p → p ≤ e.now
  timed : ∀ t d, (s.thr t).deadline = some d → a.due t = some d
  untimed : ∀ t, s.thr t = .tryGet → a.due t = none
  expired : ∀ t d, (s.thr t).givesUp = true → a.due t = some d → d ≤ e.now
  pending : ∀ t d p, (s.thr t).givesUp = true → a.due t = some d → a.published = some p → d ≤ p

section Invariant

variable {e : Env} {s s' : SlotSys O W} {a : Deadlines}

theorem Deadlines.Kept.initial (g : Gen) :
    Deadlines.start.Kept e (SlotSys.blank.fresh g : SlotSys O W) := by
  constructor
  case past => intro p hp; cases hp
  case timed => intro t d hd; cases hd
  case untimed => intro t _; rfl
  case expired => intro t d hg; cases hg
  case pending => intro t d p hg; cases hg

/-- Later, with the threads where they were: the record may have started anew. -/
theorem Deadlines.Kept.frame {e' : Env} {a' : Deadlines} (h : a.Kept e s) (hthr : s'.thr = s.thr)
    (hnow : e.now ≤ e'.now) (hdue : a'.due = a.due)
    (hpub : a'.published = none ∨ a'.published = some e.now ∨ a'.published = a.published) :
    a'.Kept e' s' := by
  have hexp (t : Tid) (d : Nat) (hg : (s'.thr t).givesUp = true) (hd : a'.due t = some d) :
      d ≤ e.now := by
    rw [hthr] at hg
    rw [hdue] at hd
    exact h.expired t d hg hd
  constructor
  case past =>
    intro p hp
    rcases hpub with hnone | hsome | hsame
    · rw [hnone] at hp
      cases hp
    · rw [hsome] at hp
      cases hp
      exact hnow
    · rw [hsame] at hp
      exact Nat.le_trans (h.past p hp) hnow
  case timed =>
    intro t d hd
    rw [hthr] at hd
    rw [hdue]
    exact h.timed t d hd
  case untimed =>
    intro t ht
    rw [hthr] at ht
    rw [hdue]
    exact h.untimed t ht
  case expired =>
    intro t d hg hd
    exact Nat.le_trans (hexp t d hg hd) hnow
  case pending =>
    intro t d p hg hd hp
    rcases hpub with hnone | hsome | hsame
    · rw [hnone] at hp
      cases hp
    · -- published just now, when the call had already given up
      rw [hsome] at hp
      cases hp
      exact hexp t d hg hd
    · rw [hthr] at hg
      rw [hdue] at hd
      rw [hsame] at hp
      exact h.pending t d p hg hd hp

theorem Deadlines.note_due_active (x x' : Env × SlotSys O W) (a : Deadlines)
    (h : ∀ t, (x'.2.thr t).active = true → (x.2.thr t).active = true) :
    (a.note x x').due = a.due := by
  funext t
  show (if _ then _ else _) = _
  rw [if_neg]
  intro ⟨hwas, his⟩
  rw [h t his] at hwas
  cases hwas

/-- A step clears the record of the publication, sets it to its own time, or leaves it. -/
theorem Deadlines.note_published (x x' : Env × SlotSys O W) (a : Deadlines) :
    (a.note x x').published = none ∨ (a.note x x').published = some x.1.now ∨
      (a.note x x').published = a.published := by
  by_cases hg : x'.2.gen ≠ x.2.gen
  · exact .inl (if_pos hg)
  · by_cases hc : x.2.slot.state.completed = false ∧ x'.2.slot.state.completed = true
    · exact .inr (.inl ((if_neg hg).trans (if_pos hc)))
    · exact .inr (.inr ((if_neg hg).trans (if_neg hc)))

/-- Only `COMPLETED` and a new generation touch the record of the publication. -/
theorem Deadlines.note_published_of_eq {x x' : Env × SlotSys O W} {a : Deadlines}
    (hg : x'.2.gen = x.2.gen) (hc : x'.2.slot.state.completed = x.2.slot.state.completed) :
    (a.note x x').published = a.published := by
  show (if _ then _ else if _ then _ else _) = _
  rw [if_neg (not_not.mpr hg), if_neg]
  intro ⟨hwas, his⟩
  rw [← hc, his] at hwas
  cases hwas

/-- A call starts with its own deadline and has not given up. -/
theorem Deadlines.Kept.call {t : Tid} {h : Handle} {c : Call W} (hk : a.Kept e s)
    (hidle : (s.thr t).active = false) :
    (a.note (e, s) (e, s.startCall t h c)).Kept e (s.startCall t h c) := by
  have hself : (s.startCall t h c).thr t = c.entry := Function.update_self ..
  have hother (u : Tid) (hu : u ≠ t) : (s.startCall t h c).thr u = s.thr u :=
    Function.update_of_ne hu ..
  have hpub : (a.note (e, s) (e, s.startCall t h c)).published = a.published :=
    note_published_of_eq rfl rfl
  have hdue_self : (a.note (e, s) (e, s.startCall t h c)).due t =
      (c.entry : ThreadPc O W).deadline := by
    show (if _ then _ else _) = _
    rw [hself, if_pos ⟨hidle, c.entry_active⟩]
  have hdue (u : Tid) (hu : u ≠ t) : (a.note (e, s) (e, s.startCall t h c)).due u = a.due u := by
    show (if _ then _ else _) = _
    rw [hother u hu, if_neg]
    intro ⟨hwas, his⟩
    rw [his] at hwas
    cases hwas
  constructor
  case past =>
    intro p hp
    rw [hpub] at hp
    exact hk.past p hp
  case timed =>
    intro u d hd
    by_cases hut : u = t
    · subst hut
      rw [hself] at hd
      rw [hdue_self, hd]
    · rw [hother u hut] at hd
      rw [hdue u hut]
      exact hk.timed u d hd
  case untimed =>
    intro u hu
    by_cases hut : u = t
    · subst hut
      rw [hself] at hu
      rw [hdue_self, hu]
      rfl
    · rw [hother u hut] at hu
      rw [hdue u hut]
      exact hk.untimed u hu
  case expired =>
    intro u d hg hd
    by_cases hut : u = t
    · subst hut
      rw [hself, c.entry_givesUp] at hg
      cases hg
    · rw [hother u hut] at hg
      rw [hdue u hut] at hd
      exact hk.expired u d hg hd
  case pending =>
    intro u d p hg hd hp
    by_cases hut : u = t
    · subst hut
      have hg' : (c.entry : ThreadPc O W).givesUp = true := by rwa [← hself]
      rw [c.entry_givesUp] at hg'
      cases hg'
    · have hg' : (s.thr u).givesUp = true := by rwa [← hother u hut]
      rw [hdue u hut] at hd
      rw [hpub] at hp
      exact hk.pending u d p hg' hd hp

variable [WillWake W] {t : Tid}

/-- A step of a thread keeps the record in order unless it misses an outcome. -/
theorem Deadlines.Kept.threadStep {e' : Env} (h : a.Kept e s) (hs : ThreadStep t e s e' s')
    (hmiss : NoMiss ((e, s), a) ((e', s'), a.note (e, s) (e', s'))) :
    (a.note (e, s) (e', s')).Kept e' s' := by
  have hfr := hs.frame
  have hnow := hs.now
  have hpub : (a.note (e, s) (e', s')).published = a.published :=
    note_published_of_eq hfr.gen hfr.completed
  have hdue : (a.note (e, s) (e', s')).due = a.due := by
    apply note_due_active
    intro u hu
    by_cases hut : u = t
    · rw [hut]
      exact hs.active
    · show (s.thr u).active = true
      rwa [← hfr.thr u hut]
  constructor
  case past =>
    intro p hp
    rw [hpub] at hp
    rw [hnow]
    exact h.past p hp
  case timed =>
    intro u d hd
    rw [hdue]
    apply h.timed
    by_cases hut : u = t
    · subst hut
      exact hs.deadline hd
    · rwa [hfr.thr u hut] at hd
  case untimed =>
    intro u hu
    rw [hdue]
    apply h.untimed
    by_cases hut : u = t
    · subst hut
      exact absurd hu hs.ne_tryGet
    · rwa [hfr.thr u hut] at hu
  case expired =>
    intro u d hg hd
    rw [hdue] at hd
    rw [hnow]
    by_cases hut : u = t
    · subst hut
      rcases hs.givesUp_cases hg with hg | htry | ⟨d', hpc, hd', _⟩
      · exact h.expired u d hg hd
      · rw [h.untimed u htry] at hd
        cases hd
      · -- the deadline that has passed is the call's
        rw [h.timed u d' (by rw [hpc]; rfl)] at hd
        cases hd
        exact hd'
    · rw [hfr.thr u hut] at hg
      exact h.expired u d hg hd
  case pending =>
    intro u d p hg hd hp
    rw [hdue] at hd
    rw [hpub] at hp
    by_cases hut : u = t
    · subst hut
      rcases hs.givesUp_cases hg with hg | htry | ⟨d', hpc, _, hpc'⟩
      · exact h.pending u d p hg hd hp
      · rw [h.untimed u htry] at hd
        cases hd
      · rw [h.timed u d' (by rw [hpc]; rfl)] at hd
        cases hd
        exact hmiss u d p hpc hpc' hp
    · have hg' : (s.thr u).givesUp = true := by rwa [← hfr.thr u hut]
      exact h.pending u d p hg' hd hp

/-- A move of the slot keeps the record in order unless some thread misses an outcome by it. -/
theorem Deadlines.Kept.move {x x' : Env × SlotSys O W} (h : a.Kept x.1 x.2)
    (hs : SlotMove x x') (hmiss : NoMiss (x, a) (x', a.note x x')) :
    (a.note x x').Kept x'.1 x'.2 := by
  -- no thread moves: none starts a call
  have hstill (hthr : x'.2.thr = x.2.thr) (hnow : x.1.now ≤ x'.1.now) :
      (a.note x x').Kept x'.1 x'.2 := by
    apply h.frame hthr hnow
    · apply note_due_active
      intro t ht
      rwa [← hthr]
    · exact note_published x x' a
  cases hs with
  | step hstep =>
    cases hstep with
    | thread t ht => exact h.threadStep ht hmiss
    | future f he hf =>
      apply hstill hf.frame.thr
      rw [he]
    | complete hc =>
      apply hstill hc.frame.thr
      rw [hc.now]
  | call t hd c hidle hg => exact h.call hidle
  | @cancel e s f hf hrest => exact hstill (s.startCancel_frame f).1 le_rfl
  | tick n hn => exact hstill rfl hn
  | _ => exact hstill rfl le_rfl

end Invariant

/-! ## The recheck before the clock -/

/-- The deadline that a call, after its recheck, will look for on the clock. -/
def ThreadPc.clockDue : ThreadPc O W → Option Nat
  | .unlock (.clock d) | .clock d => some d
  | _ => none

theorem Call.entry_clockDue (c : Call W) : (c.entry : ThreadPc O W).clockDue = none := by
  cases c <;> rfl

section Rechecks

variable [WillWake W] {t : Tid} {d : Nat}

/-- A timed call goes to its clock from a recheck that found the slot pending. -/
theorem ThreadStep.clockDue {e e' : Env} {s s' : SlotSys O W} (h : ThreadStep t e s e' s')
    (hd : (s'.thr t).clockDue = some d) :
    (s.thr t).clockDue = some d ∨
      s.thr t = .recheck (.wait (some d)) ∧ s.slot.state.completed = false := by
  cases h with
  | @recheck_timed_pending d' hpc hc =>
    right
    have hd : d' = d := by simpa [ThreadPc.clockDue] using hd
    subst hd
    exact ⟨hpc, hc⟩
  | @unlock_clock d' hpc =>
    left
    have hd : d' = d := by simpa [ThreadPc.clockDue] using hd
    rw [hpc, hd]
    rfl
  | _ => simp [ThreadPc.clockDue] at hd

theorem SlotMove.clockDue {x x' : Env × SlotSys O W} (h : SlotMove x x')
    (hd : (x'.2.thr t).clockDue = some d) :
    (x.2.thr t).clockDue = some d ∨
      x.2.thr t = .recheck (.wait (some d)) ∧ x'.2.slot.state.completed = false := by
  cases h with
  | step h =>
    cases h with
    | thread u h =>
      by_cases hut : t = u
      · subst hut
        rw [h.frame.completed]
        exact h.clockDue hd
      · left
        rwa [← h.frame.thr t hut]
    | future f he h =>
      left
      rwa [← h.frame.thr]
    | complete h =>
      left
      rwa [← h.frame.thr]
  | @call e s u h c hidle hg =>
    by_cases hut : t = u
    · subst hut
      rw [show (s.startCall t h c).thr t = c.entry from Function.update_self ..,
        c.entry_clockDue] at hd
      cases hd
    · left
      rwa [← show (s.startCall u h c).thr t = s.thr t from Function.update_of_ne hut ..]
  | @cancel e s f hf hrest =>
    left
    rwa [← (s.startCancel_frame f).1]
  | _ => exact .inl hd

/-- Within a generation, `COMPLETED` stays set. -/
theorem SlotMove.completed {x x' : Env × SlotSys O W} (h : SlotMove x x')
    (hgen : x'.2.gen = x.2.gen) (hc : x.2.slot.state.completed = true) :
    x'.2.slot.state.completed = true := by
  cases h with
  | step h =>
    cases h with
    | thread u h => rwa [h.frame.completed]
    | future f he h => rwa [h.frame.completed]
    | complete h => exact h.completed hc
  | @cancel e s f hf hrest => rwa [(s.startCancel_frame f).2.1]
  | @recycle e s g hq hg => exact absurd hgen (Nat.ne_of_gt hg)
  | _ => exact hc

/-- A record of a publication is of the slot's own generation. -/
theorem Deadlines.completed_of_published {x : (Env × SlotSys O W) × Deadlines}
    (hr : (deadlineSystem O W).Reachable x) {p : Nat} (hp : x.2.published = some p) :
    x.1.2.slot.state.completed = true := by
  revert p
  refine Lib.System.Reachable.recorded_invariant
    (I := fun s a => ∀ {p}, a.published = some p → s.2.slot.state.completed = true) ?_ ?_ hr
  · intro s hi p hp
    cases hp
  · intro s s' a _ ih hs p hp
    unfold note at hp
    dsimp only at hp
    split at hp
    · cases hp
    · rename_i hgen
      split at hp
      · rename_i hc
        exact hc.2
      · exact hs.completed (not_not.mp hgen) (ih hp)

/-- **What a call has missed at the clock was published after its recheck.**  The call that is about
to read the clock came from its recheck, at which nothing was published, and has not left for
anything else since. -/
theorem published_after_recheck {x : (Env × SlotSys O W) × Deadlines}
    (hr : (deadlineSystem O W).Reachable x) (hd : (x.1.2.thr t).clockDue = some d) :
    ∃ x₀ x₁, (deadlineSystem O W).Reachable x₀ ∧ x₀.1.2.thr t = .recheck (.wait (some d)) ∧
      (deadlineSystem O W).step x₀ x₁ ∧ x₁.2.published = none ∧
      Relation.ReflTransGen (fun y z => (deadlineSystem O W).step y z ∧
        (z.1.2.thr t).clockDue = some d) x₁ x := by
  induction hr with
  | @init x hi =>
    have ⟨⟨g, hg⟩, _⟩ := hi
    rw [hg] at hd
    cases hd
  | @step x x' hr hs ih =>
    rcases hs.1.clockDue hd with hold | ⟨hpc, hc⟩
    · obtain ⟨x₀, x₁, hr₀, hpc₀, hs₀, hnone, hrun⟩ := ih hold
      exact ⟨x₀, x₁, hr₀, hpc₀, hs₀, hnone, hrun.tail ⟨hs, hd⟩⟩
    · refine ⟨x, x', hr, hpc, hs, ?_, .refl⟩
      cases hp : x'.2.published with
      | none => rfl
      | some p =>
        rw [Deadlines.completed_of_published (hr.step hs) hp] at hc
        cases hc

end Rechecks

/-! ## Timeouts -/

/-- A thread that reads a clock past its deadline has missed an outcome that is there. -/
theorem not_inTime_of_miss [WillWake W] {x x' : (Env × SlotSys O W) × Deadlines}
    (hk : x.2.Kept x.1.1 x.1.2) (hs : (deadlineSystem O W).step x x') (hmiss : ¬ NoMiss x x') :
    ¬ InTime x' := by
  unfold NoMiss at hmiss
  push Not at hmiss
  have ⟨t, d, p, hpc, hpc', hp, hlate⟩ := hmiss
  have ⟨hmove, hnote⟩ := hs
  have hstep : ThreadStep t x.1.1 x.1.2 x'.1.1 x'.1.2 := by
    apply hmove.threadStep
    · rw [hpc]
      rfl
    · rw [hpc, hpc']
      nofun
  have hdue : x'.2.due t = some d := by
    rw [hnote]
    show (if _ then _ else _) = _
    rw [hpc, if_neg (by simp [ThreadPc.active])]
    exact hk.timed t d (by rw [hpc]; rfl)
  have hpub : x'.2.published = some p := by
    rw [hnote, Deadlines.note_published_of_eq hstep.frame.gen hstep.frame.completed, hp]
  intro hin
  have hle : d ≤ p := hin.pending t d p (by rw [hpc']; rfl) hdue hpub
  omega

/-- **A timeout is reported in time** along a run exactly when no thread of the run, having found
the slot pending, reads a clock that has passed its deadline after the outcome was published before
that deadline. -/
theorem timeouts_in_time_iff [WillWake W] {l : List ((Env × SlotSys O W) × Deadlines)}
    (hr : (deadlineSystem O W).Run l) : (∀ x ∈ l, InTime x) ↔ Lib.System.Steps NoMiss l := by
  apply hr.forall_iff_steps
    (I := fun x => x.2.Kept x.1.1 x.1.2 ∧ x.1.2.Safe x.1.1 ∧ x.1.2.Past)
  · intro x hi
    have ⟨⟨g, hg⟩, ha⟩ := hi
    rw [hg, ha]
    exact ⟨.initial g, .fresh x.1.1 g, .fresh g⟩
  · intro x x' hx hs hmiss
    have ⟨hk, hsafe, hpast⟩ := hx
    have ⟨hmove, hnote⟩ := hs
    have hx' : x' = (x'.1, x.2.note x.1 x'.1) := Prod.ext rfl hnote
    rw [hx'] at hmiss ⊢
    exact ⟨hk.move hmove hmiss, hsafe.move hmove, hpast.move hsafe hmove⟩
  · intro x hx
    have ⟨hk, _, hpast⟩ := hx
    constructor
    case pending => exact hk.pending
    case value =>
      intro t v hret
      exact hpast.thr t (.value v) (.inl hret)
  · intro x x' hx hs hmiss
    exact not_inTime_of_miss hx.1 hs hmiss

/-- A call of `wait_timeout` with deadline 10 has registered and rechecked when the outcome is
published at time 0, and next reads the clock at time 10. -/
theorem late_run : ∃ x l, (deadlineSystem Nat Nat).Run (x :: l) ∧
    x.1.2.thr 0 = .returned .none ∧ x.2.due 0 = some 10 ∧ x.2.published = some 0 := by
  have h₀ : (deadlineSystem Nat Nat).Run [((⟨fun _ => false, 0⟩, _), _)] := .init ⟨⟨1, rfl⟩, rfl⟩
  have h₁ := h₀.record (.call 0 ⟨0, 1⟩ (.wait (some 10)) rfl rfl)
  have h₂ := h₁.record (.step (.thread 0 (.check_pending rfl rfl)))
  have h₃ := h₂.record (.step (.thread 0 (.setBit rfl)))
  have h₄ := h₃.record (.step (.thread 0 (.loadReg_null rfl rfl)))
  have h₅ := h₄.record (.step (.thread 0 (.casReg rfl)))
  have h₆ := h₅.record (.step (.thread 0 (.acquire_wait rfl rfl)))
  have h₇ := h₆.record (.step (.thread 0 (.push rfl)))
  have h₈ := h₇.record (.step (.thread 0 (.recheck_timed_pending rfl rfl)))
  have h₉ := h₈.record (.step (.thread 0 (.unlock_clock rfl)))
  have h₁₀ := h₉.record (.complete 42 rfl)
  have h₁₁ := h₁₀.record (.step (.complete (.write rfl)))
  have h₁₂ := h₁₁.record (.step (.complete (.publish_waiters rfl rfl)))
  have h₁₃ := h₁₂.record (.tick 10 (Nat.zero_le 10))
  have h₁₄ := h₁₃.record (.step (.thread 0 (.clock_expired rfl (Nat.le_refl 10))))
  have h₁₅ := h₁₄.record (.step (.thread 0 (.loadReg_some rfl nofun)))
  have h₁₆ := h₁₅.record (.step (.thread 0 (.acquire_timeout rfl rfl)))
  have h₁₇ := h₁₆.record (.step (.thread 0 (.expire rfl)))
  have h₁₈ := h₁₇.record (.step (.thread 0 (.unlock_return rfl)))
  exact ⟨_, _, h₁₈, rfl, rfl, rfl⟩

theorem timeout_after_publication : ∃ x : (Env × SlotSys Nat Nat) × Deadlines,
    (deadlineSystem Nat Nat).Reachable x ∧ x.1.2.thr 0 = .returned .none ∧
      x.2.due 0 = some 10 ∧ x.2.published = some 0 := by
  have ⟨x, l, hrun, hret, hdue, hpub⟩ := late_run
  exact ⟨x, hrun.reachable x List.mem_cons_self, hret, hdue, hpub⟩

/-- That run takes the step in question. -/
theorem late_run_misses : ∃ l, (deadlineSystem Nat Nat).Run l ∧
    ¬ Lib.System.Steps NoMiss l := by
  have ⟨x, l, hrun, hret, hdue, hpub⟩ := late_run
  refine ⟨x :: l, hrun, ?_⟩
  intro hsteps
  have hin : InTime x := (timeouts_in_time_iff hrun).mpr hsteps x List.mem_cons_self
  have hle : 10 ≤ 0 := hin.pending 0 10 0 (by rw [hret]; rfl) hdue hpub
  omega

end Observe
