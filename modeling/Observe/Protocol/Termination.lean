import Observe.Protocol.Progress
import Observe.Protocol.Deadlines
import Mathlib.Algebra.Order.BigOperators.Group.Finset

/-!
# Termination

How many steps the calls of a slot have left.  A poll, a drop and a completion go straight to their
end; only a wait goes round a loop, and it leaves the loop when it finds the publication or when its
deadline has passed.  A park may return without a token at any time, so the bounds count these steps
as well.
-/

namespace Observe

variable {O W : Type}

/-! ## Ranks -/

/-- A bound on the steps that a thread's call has left once the outcome is published.  A thread that
does not know of the publication may go round the loop once more, up to its own `fetch_or`. -/
def ThreadPc.rank (knows : Bool) : ThreadPc O W → Nat
  | .idle | .returned _ | .fault => 0
  | .read | .unlock (.returned _) | .unlock .fault => 1
  | .tryGet | .readLocked | .expire | .store _ => 2
  | .dereg => 3
  -- behind its deadline a call enters the registry and returns
  | .acquire .timeout => 3
  | .casReg .timeout => 4
  | .loadReg .timeout => 5
  | .check _ => if knows then 2 else 10
  | .park _ => if knows then 3 else 11
  | .recheck _ => if knows then 4 else 14
  | .unlock .park => if knows then 4 else 12
  | .push _ => if knows then 5 else 15
  | .clock _ => if knows then 6 else 12
  | .acquire _ => if knows then 6 else 16
  | .casReg _ => if knows then 7 else 17
  | .unlock (.clock _) => if knows then 7 else 13
  | .loadReg _ => if knows then 8 else 18
  | .setBit _ => 9

/-- A thread that knows of the publication has fewer steps before it. -/
theorem ThreadPc.rank_le (k : ThreadPc O W) (b b' : Bool) (h : b = true → b' = true) :
    k.rank b' ≤ k.rank b := by
  cases b with
  | true => rw [h rfl]
  | false =>
    cases b' with
    | false => exact le_rfl
    | true =>
      cases k with
      | unlock next => cases next <;> simp [rank]
      | loadReg c => cases c <;> simp [rank]
      | casReg c => cases c <;> simp [rank]
      | acquire c => cases c <;> simp [rank]
      | _ => simp [rank]

theorem ThreadPc.rank_bound (k : ThreadPc O W) (b : Bool) :
    k.rank b ≤ if b then 9 else 18 := by
  cases b <;> cases k with
  | unlock next => cases next <;> simp [rank]
  | loadReg c => cases c <;> simp [rank]
  | casReg c => cases c <;> simp [rank]
  | acquire c => cases c <;> simp [rank]
  | _ => simp [rank]

def FutPc.rank : FutPc O W → Nat
  | .idle | .ready _ | .pending | .panicked | .dead | .fault => 0
  | .read | .unlock .panicked | .unlock .dead => 1
  | .poll2 .. | .remove => 2
  | .unlock (.poll2 _) => 3
  | .store _ => 4
  | .recheck _ => 5
  | .acquire _ => 6
  | .casReg _ => 7
  | .loadReg _ => 8
  | .setBit _ => 9
  | .check _ => 10
  | .poll _ => 11

theorem FutPc.rank_bound (k : FutPc O W) : k.rank ≤ 11 := by
  cases k with
  | unlock next => cases next <;> simp [rank]
  | _ => simp [rank]

def CompPc.rank : CompPc O W → Nat
  | .idle => 0
  | .write .. => 8
  | .publish .. => 7
  | .loadReg _ => 6
  | .casReg _ => 5
  | .acquire _ => 4
  | .take _ => 3
  | .unlock _ ws => ws.length + 2
  | .notify _ ws _ => ws.length + 1
  | .returned .. => 0

section Steps

variable [WillWake W] {t : Tid} {f : FutId} {e e' : Env} {s s' : SlotSys O W} {b b' : Bool}

/-- Whoever knows of the publication finds it, and whoever announces itself learns of it. -/
theorem ThreadStep.rank (h : ThreadStep t e s e' s')
    (hb : b = true → s.slot.state.completed = true) (hmono : b = true → b' = true)
    (hset : ∀ c, s.thr t = .setBit c → b' = true) :
    (s'.thr t).rank b' < (s.thr t).rank b := by
  cases h with
  | @setBit c hpc =>
    rw [hset c hpc, hpc]
    cases c <;> simp [ThreadPc.rank]
  | @loadReg_null c hpc hn => cases c <;> cases b <;> cases b' <;> simp_all [ThreadPc.rank]
  | @loadReg_some c hpc hn => cases c <;> cases b <;> cases b' <;> simp_all [ThreadPc.rank]
  | @casReg c hpc => cases c <;> cases b <;> cases b' <;> simp_all [ThreadPc.rank]
  | _ => cases b <;> cases b' <;> simp_all [ThreadPc.rank]

/-- Every step of a future brings its call nearer to its end. -/
theorem FutStep.rank (h : FutStep f s s') : (s'.fpc f).rank < (s.fpc f).rank := by
  cases h <;> simp_all [FutPc.rank]

theorem ThreadStep.length_registry (h : ThreadStep t e s e' s') :
    s'.slot.registry.length ≤ s.slot.registry.length + 1 := by
  cases h.edit with
  | none hpc hr =>
    rw [hr]
    omega
  | push d hpc hpc' hr =>
    rw [hr]
    exact Registry.length_pushThread ..
  | store w hpc hpc' hr =>
    rw [hr]
    exact Registry.length_registerWaker ..
  | retain hpc hpc' hr =>
    rw [hr]
    have hle : (s.slot.registry.retainOthers t).length ≤ s.slot.registry.length :=
      List.length_filter_le ..
    omega

theorem FutStep.length_registry (h : FutStep f s s') :
    s'.slot.registry.length ≤ s.slot.registry.length + 1 := by
  cases h.edit with
  | none hr =>
    rw [hr]
    omega
  | store w hpc hpc' hr => exact Registry.length_registerFutureWaker hr
  | record w b hpc hpc' hc hr =>
    rw [hr]
    omega
  | remove hpc hpc' hr =>
    rw [hr]
    have hle : (s.slot.registry.cancel (s.fut f).wakers).length ≤ s.slot.registry.length :=
      List.length_filterMap_le ..
    omega

omit [WillWake W] in
/-- The drain pays for an entry when it notifies it. -/
theorem CompStep.rank (h : CompStep e s e' s') :
    s'.slot.registry.length + s'.comp.rank < s.slot.registry.length + s.comp.rank := by
  cases h <;> simp_all [CompPc.rank, Slot.registry, Slot.setOutcome]

end Steps

/-! ## Work -/

namespace SlotSys

/-- A bound on the steps that the calls of the threads of `T`, the futures and the completion have
left.  A thread or a future pays twice for a step, in case the step leaves an entry to notify. -/
def work (T : Finset Tid) (knows : Tid → Bool) (s : SlotSys O W) : Nat :=
  2 * ∑ t ∈ T, (s.thr t).rank (knows t) + 2 * ∑ f ∈ s.futs, (s.fpc f).rank +
    s.slot.registry.length + s.comp.rank

variable {T : Finset Tid} {knows knows' : Tid → Bool} {s s' : SlotSys O W}

/-- Who takes a step pays for it. -/
theorem work_lt (hfuts : s'.futs = s.futs)
    (hthr : ∀ t ∈ T, (s'.thr t).rank (knows' t) ≤ (s.thr t).rank (knows t))
    (hfpc : ∀ f ∈ s.futs, (s'.fpc f).rank ≤ (s.fpc f).rank)
    (hpaid : (((∃ t ∈ T, (s'.thr t).rank (knows' t) < (s.thr t).rank (knows t)) ∨
          ∃ f ∈ s.futs, (s'.fpc f).rank < (s.fpc f).rank) ∧
        s'.slot.registry.length ≤ s.slot.registry.length + 1 ∧ s'.comp = s.comp) ∨
      s'.slot.registry.length + s'.comp.rank < s.slot.registry.length + s.comp.rank) :
    s'.work T knows' < s.work T knows := by
  unfold work
  rw [hfuts]
  have hthrs := Finset.sum_le_sum hthr
  have hfpcs := Finset.sum_le_sum hfpc
  rcases hpaid with ⟨⟨t, ht, hlt⟩ | ⟨f, hf, hlt⟩, hreg, hcomp⟩ | hlt
  · have hsum := Finset.sum_lt_sum hthr ⟨t, ht, hlt⟩
    rw [hcomp]
    omega
  · have hsum := Finset.sum_lt_sum hfpc ⟨f, hf, hlt⟩
    rw [hcomp]
    omega
  · omega

/-- The steps that are left, counted by threads, futures and entries. -/
theorem work_bound (m : Nat) (hm : ∀ t, (s.thr t).rank (knows t) ≤ m) :
    s.work T knows ≤
      2 * (T.card * m) + 22 * s.futs.card + s.slot.registry.length + s.comp.rank := by
  have hthr : ∑ t ∈ T, (s.thr t).rank (knows t) ≤ T.card * m :=
    Finset.sum_le_card_nsmul T _ _ fun t _ => hm t
  have hfpc : ∑ f ∈ s.futs, (s.fpc f).rank ≤ s.futs.card * 11 :=
    Finset.sum_le_card_nsmul s.futs _ _ fun f _ => (s.fpc f).rank_bound
  unfold work
  omega

end SlotSys

/-! ## After the publication -/

theorem CompPc.rank_bound {k : CompPc O W} (h : k.published = true) :
    k.rank ≤ k.rest.length + 6 := by
  cases k <;> simp_all [rank, rest, published]

section Published

variable [WillWake W] {e e' : Env} {s s' : SlotSys O W} {T : Finset Tid}

/-- No step of a call clears `COMPLETED`. -/
theorem CallStep.completed (h : CallStep e s e' s') (hc : s.slot.state.completed = true) :
    s'.slot.state.completed = true := by
  cases h with
  | thread t h => rwa [h.frame.completed]
  | future f he h => rwa [h.frame.completed]
  | complete h => exact h.completed hc

/-- Steps start no call. -/
theorem CallStep.active (h : CallStep e s e' s') (t : Tid) (hact : (s'.thr t).active = true) :
    (s.thr t).active = true := by
  cases h with
  | thread u h =>
    by_cases hut : t = u
    · rw [hut]
      exact h.active
    · rwa [h.frame.thr t hut] at hact
  | future f he h => rwa [h.frame.thr] at hact
  | complete h => rwa [h.frame.thr] at hact

/-- Behind the publication every step brings the calls nearer to their end. -/
theorem CallStep.work (h : CallStep e s e' s') (hc : s.slot.state.completed = true)
    (hfut : ∀ f, (s.fpc f).active = true → f ∈ s.futs)
    (hT : ∀ t, (s.thr t).active = true → t ∈ T) :
    s'.work T (fun _ => true) < s.work T fun _ => true := by
  cases h with
  | thread t h =>
    have hfr := h.frame
    have hlt : (s'.thr t).rank true < (s.thr t).rank true :=
      h.rank (fun _ => hc) id fun _ _ => rfl
    apply SlotSys.work_lt hfr.futs
    · intro u hu
      by_cases hut : u = t
      · rw [hut]
        exact hlt.le
      · rw [hfr.thr u hut]
    · intro f hf
      rw [hfr.fpc]
    · exact .inl ⟨.inl ⟨t, hT t h.active, hlt⟩, h.length_registry, hfr.comp⟩
  | future f he h =>
    have hfr := h.frame
    apply SlotSys.work_lt hfr.futs
    · intro u hu
      rw [hfr.thr]
    · intro i hi
      by_cases hif : i = f
      · rw [hif]
        exact h.rank.le
      · rw [hfr.fpc i hif]
    · exact .inl ⟨.inr ⟨f, hfut f h.active, h.rank⟩, h.length_registry, hfr.comp⟩
  | complete h =>
    have hfr := h.frame
    apply SlotSys.work_lt hfr.futs
    · intro u hu
      rw [hfr.thr]
    · intro i hi
      rw [hfr.fpc]
    · exact .inr h.rank

/-- **Published, every call returns.** From any reachable state whose outcome is published, the
calls in flight (the threads inside one are among `T`) take a bounded number of steps, in whatever
order and with whatever spurious wake-ups; and when none of them can move, none is left: the mutex
is free and every thread, every future and the completion has returned. -/
theorem published_calls_return (h : (slotSystem O W).Reachable (e, s))
    (hc : s.slot.state.completed = true) (hT : ∀ t, (s.thr t).active = true → t ∈ T) {n : Nat}
    {x : Env × SlotSys O W}
    (hrun : Lib.System.Count (fun y y' => CallStep y.1 y.2 y'.1 y'.2) (fun _ _ => True) n (e, s) x) :
    n ≤ 18 * T.card + 22 * s.futs.card + s.slot.registry.length + s.comp.rest.length + 6 ∧
    (x.2.Stuck x.1 → x.2.held = none ∧ x.2.comp.resting = true ∧
      (∀ t, (x.2.thr t).active = false) ∧ ∀ f, (x.2.fpc f).active = false) := by
  let I : Env × SlotSys O W → Prop := fun y => (slotSystem O W).Reachable y ∧
    y.2.slot.state.completed = true ∧ ∀ t, (y.2.thr t).active = true → t ∈ T
  have hkeep (y y' : Env × SlotSys O W) (hy : I y) (hst : CallStep y.1 y.2 y'.1 y'.2) : I y' := by
    obtain ⟨hreach, hcy, hTy⟩ := hy
    exact ⟨hreach.step (.step hst), hst.completed hcy, fun t hact => hTy t (hst.active t hact)⟩
  have hpay (y y' : Env × SlotSys O W) (hy : I y) (hst : CallStep y.1 y.2 y'.1 y'.2) :
      y'.2.work T (fun _ => true) < y.2.work T fun _ => true :=
    hst.work hy.2.1 (slotSystem_safe hy.1).records.mem hy.2.2
  obtain ⟨⟨hreach, hcx, -⟩, hn⟩ := hrun.add_rank_le (ρ := fun y => y.2.work T fun _ => true) hkeep
    (fun y y' hy hst _ => hpay y y' hy hst) (fun y y' hy hst _ => (hpay y y' hy hst).le) ⟨h, hc, hT⟩
  constructor
  · have hwork : s.work T (fun _ => true) ≤ _ :=
      SlotSys.work_bound 9 fun t => (s.thr t).rank_bound true
    have hpub : s.comp.published = true := by
      rw [← (slotSystem_safe h).wf.published.completed]
      exact hc
    have hcomp := CompPc.rank_bound hpub
    simp only at hn
    omega
  · intro hst
    obtain ⟨hheld, hrest, hfut, hthr⟩ := (slotSystem_safe hreach).stuck (slotSystem_looping hreach) hst
    refine ⟨hheld, hrest, fun t => ?_, hfut⟩
    by_contra hact
    obtain ⟨-, -, hpending⟩ := hthr t (by simpa using hact)
    rw [hcx] at hpending
    cases hpending

end Published

/-- Thread 0 calls `try_get` behind the publication. -/
theorem published_run : ∃ (e : Env) (s : SlotSys Nat Nat),
    (slotSystem Nat Nat).Reachable (e, s) ∧ s.slot.state.completed = true ∧
    s.slot.outcome = some (1, 42) ∧ s.thr 0 = .tryGet ∧
    ∀ t, (s.thr t).active = true → t ∈ ({0} : Finset Tid) := by
  have h₀ : (slotSystem Nat Nat).Reachable (⟨fun _ => false, 0⟩, SlotSys.blank.fresh 1) :=
    .init ⟨1, rfl⟩
  have h₁ := h₀.step (.complete 42 rfl)
  have h₂ := h₁.step (.step (.complete (.write rfl)))
  have h₃ := h₂.step (.step (.complete (.publish_alone rfl rfl)))
  have h₄ := h₃.step (.call 0 ⟨0, 1⟩ .tryGet rfl rfl)
  refine ⟨_, _, h₄, rfl, rfl, rfl, fun t hact => ?_⟩
  by_contra ht
  have ht0 : t ≠ 0 := by simpa using ht
  simp [SlotSys.startCall, SlotSys.startComplete, SlotSys.fresh, SlotSys.blank, ht0,
    ThreadPc.active] at hact

/-- When thread 0 has read, nobody is left. -/
theorem published_read_returns : ∃ (e : Env) (s : SlotSys Nat Nat),
    s.thr 0 = .returned (.value 42) ∧
    (s.Stuck e → s.held = none ∧ ∀ t, (s.thr t).active = false) := by
  obtain ⟨e, s, h, hc, hout, hpc, hT⟩ := published_run
  let s₁ := s.goThr 0 .read
  let s₂ := s₁.goThr 0 (.returned (.value 42))
  have hload : ThreadStep 0 e s e s₁ := .tryGet_done hpc hc
  have hread : ThreadStep 0 e s₁ e s₂ := .read (by simp [s₁]) hout
  obtain ⟨-, hdone⟩ := published_calls_return (x := (e, s₂)) h hc hT
    (((Lib.System.Count.refl (e, s)).own (c := (e, s₁)) (.thread 0 hload) trivial).own
      (.thread 0 hread) trivial)
  exact ⟨e, s₂, by simp [s₂], fun hst => ⟨(hdone hst).1, (hdone hst).2.2.1⟩⟩

/-! ## Behind a deadline -/

def Section.waits (now : Nat) : Section W → Bool
  | .wait none => true
  | .wait (some d) => now < d
  | _ => false

def ThreadPc.waits (now : Nat) : ThreadPc O W → Bool
  | .check c | .setBit c | .loadReg c | .casReg c | .acquire c | .recheck c => c.waits now
  | .push d | .park d => (Section.wait d : Section W).waits now
  | .unlock .park => true
  | .unlock (.clock d) | .clock d => now < d
  | _ => false

/-- A bound on the steps that a call has left when its deadline has passed. -/
def ThreadPc.overdue : ThreadPc O W → Nat
  | .idle | .returned _ | .fault => 0
  | .read | .unlock (.returned _) | .unlock .fault | .unlock .park => 1
  | .tryGet | .readLocked | .expire | .store _ => 2
  | .dereg => 3
  | .acquire .timeout => 3
  | .casReg .timeout => 4
  | .loadReg .timeout => 5
  | .clock _ => 6
  | .unlock (.clock _) => 7
  | .recheck _ => 8
  | .push _ => 9
  | .acquire _ => 10
  | .casReg _ => 11
  | .loadReg _ => 12
  | .setBit _ => 13
  | .check _ => 14
  | .park _ => 15

theorem ThreadPc.overdue_bound (k : ThreadPc O W) : k.overdue ≤ 15 := by
  cases k with
  | unlock next => cases next <;> simp [overdue]
  | loadReg c => cases c <;> simp [overdue]
  | casReg c => cases c <;> simp [overdue]
  | acquire c => cases c <;> simp [overdue]
  | _ => simp [overdue]

theorem Section.waits_mono {now now' : Nat} (hle : now ≤ now') (c : Section W)
    (h : c.waits now = false) : c.waits now' = false := by
  cases c with
  | wait d =>
    cases d with
    | none => cases h
    | some d =>
      simp only [waits, decide_eq_false_iff_not] at h ⊢
      omega
  | _ => rfl

theorem ThreadPc.waits_mono {now now' : Nat} (hle : now ≤ now') (k : ThreadPc O W)
    (h : k.waits now = false) : k.waits now' = false := by
  cases k with
  | unlock next =>
    cases next with
    | park => cases h
    | clock d =>
      simp only [waits, decide_eq_false_iff_not] at h ⊢
      omega
    | _ => rfl
  | clock d =>
    simp only [waits, decide_eq_false_iff_not] at h ⊢
    omega
  | check c | setBit c | loadReg c | casReg c | acquire c | recheck c => exact c.waits_mono hle h
  | push d | park d => exact (Section.wait d : Section W).waits_mono hle h
  | _ => rfl

section Overdue

variable [WillWake W] {t : Tid} {e e' : Env} {s s' : SlotSys O W}

/-- A call whose deadline has passed does not wait again. -/
theorem ThreadStep.waits (h : ThreadStep t e s e' s') (hw : (s.thr t).waits e.now = false) :
    (s'.thr t).waits e'.now = false := by
  rw [h.now]
  cases h <;> simp_all [ThreadPc.waits, Section.waits]

/-- Every step of an overdue call brings it nearer to its return. -/
theorem ThreadStep.overdue (h : ThreadStep t e s e' s') (hw : (s.thr t).waits e.now = false) :
    (s'.thr t).overdue < (s.thr t).overdue := by
  cases h with
  | @loadReg_null c hpc hn => cases c <;> simp_all [ThreadPc.overdue]
  | @loadReg_some c hpc hn => cases c <;> simp_all [ThreadPc.overdue]
  | @casReg c hpc => cases c <;> simp_all [ThreadPc.overdue]
  | @setBit c hpc => cases c <;> simp_all [ThreadPc.overdue]
  -- a call that waits no longer does not get to its park
  | clock_running hpc hnow => simp_all [ThreadPc.waits]
  | recheck_wait_pending hpc hc => simp_all [ThreadPc.waits, Section.waits]
  | unlock_park hpc => simp_all [ThreadPc.waits]
  | _ => simp_all [ThreadPc.overdue]

/-- Time does not go back. -/
theorem SlotMove.now {x x' : Env × SlotSys O W} (h : SlotMove x x') : x.1.now ≤ x'.1.now := by
  cases h with
  | step h =>
    cases h with
    | thread t h => exact h.now.ge
    | future f he h => rw [he]
    | complete h => exact h.now.ge
  | tick n hn => exact hn
  | _ => exact le_rfl

/-- **No call outlives its deadline.** However the rest of the slot goes on, and with whatever
spurious wake-ups, a thread inside a call that does not wait, or no longer, takes at most fifteen
steps of its own before the call returns: a `try_get`, a `register_waker`, and a `wait_timeout`
whose deadline has passed. -/
theorem overdue_call_returns (hw : (s.thr t).waits e.now = false) {n : Nat}
    {x : Env × SlotSys O W}
    (hrun : Lib.System.Count (fun y y' => SlotMove y y' ∧ (y.2.thr t).active = true)
      (fun y y' => ThreadStep t y.1 y.2 y'.1 y'.2) n (e, s) x) : n ≤ 15 := by
  let I : Env × SlotSys O W → Prop := fun y => (y.2.thr t).waits y.1.now = false
  have hstay {y y' : Env × SlotSys O W} (hm : SlotMove y y' ∧ (y.2.thr t).active = true)
      (hno : ¬ ThreadStep t y.1 y.2 y'.1 y'.2) : y'.2.thr t = y.2.thr t := by
    by_contra hne
    exact hno (hm.1.threadStep hm.2 hne)
  have hkeep (y y' : Env × SlotSys O W) (hy : I y)
      (hm : SlotMove y y' ∧ (y.2.thr t).active = true) : I y' := by
    by_cases hown : ThreadStep t y.1 y.2 y'.1 y'.2
    · exact hown.waits hy
    · show (y'.2.thr t).waits y'.1.now = false
      rw [hstay hm hown]
      exact (y.2.thr t).waits_mono hm.1.now hy
  obtain ⟨-, hn⟩ := hrun.add_rank_le (I := I) (ρ := fun y => (y.2.thr t).overdue) hkeep
    (fun y y' hy _ hown => hown.overdue hy) (fun y y' _ hm hno => by rw [hstay hm hno]) hw
  have hbound := (s.thr t).overdue_bound
  simp only at hn
  omega

end Overdue

/-- Thread 0 calls `wait_timeout` with a deadline that has passed, and is on its way. -/
theorem overdue_wait_on_its_way : ∃ (n : Nat) (x : Env × SlotSys Nat Nat),
    x.2.thr 0 = .setBit (.wait (some 0)) ∧ 0 < n ∧ n ≤ 15 := by
  let e : Env := ⟨fun _ => false, 0⟩
  let s : SlotSys Nat Nat := (SlotSys.blank.fresh 1).startCall 0 ⟨0, 1⟩ (.wait (some 0))
  let s₁ := s.goThr 0 (.setBit (.wait (some 0)))
  have hstep : ThreadStep 0 e s e s₁ := .check_pending rfl rfl
  exact ⟨1, (e, s₁), rfl, by omega, overdue_call_returns (t := 0) (s := s) rfl
    ((Lib.System.Count.refl (e, s)).own ⟨.step (.thread 0 hstep), rfl⟩ hstep)⟩

end Observe
