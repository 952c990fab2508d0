import Observe.Memory.Safety
import Observe.Protocol.Termination

/-!
# Termination in memory

In release-acquire memory a load may miss the publication again and again, but a wait announces
itself each time it goes round its loop, by a read-modify-write that does not.  The calls in flight
at the publication have a bounded number of steps left in memory as well.
-/

namespace Observe

open Lib

variable {O W : Type} [WillWake W]

namespace Weak

variable {e e' : Env} {x x' : Weak O W} {p : Proc}

def knows (x : Weak O W) (t : Tid) : Bool := decide (x.SeesDone (x.view (.thread t)))

/-- No call can move in memory, spurious wake-ups apart. -/
def Stuck (e : Env) (x : Weak O W) : Prop :=
  ∀ p e' x', WeakStep p e x e' x' →
    ∃ t d, x.sys.thr t = .park d ∧ e.token t = false ∧ x'.sys.thr t ≠ x.sys.thr t

/-- A slot that is stuck in memory is stuck. -/
theorem Inv.stuck (hi : x.Inv e) (hst : x.Stuck e) : x.sys.Stuck e := by
  intro e' s' h
  obtain ⟨hstep, hreal⟩ := h
  obtain ⟨p, hp⟩ := hstep.procStep
  obtain ⟨x', hx', hsys⟩ := hi.follow hp
  obtain ⟨t, d, hpc, htok, hne⟩ := hst p e' x' hx'
  rw [hsys] at hne
  exact hne (hreal t d hpc htok)

omit [WillWake W] in
theorem Grows.knows (h : x.Grows x') (t : Tid) (hk : x.knows t = true) : x'.knows t = true := by
  simp only [Weak.knows, decide_eq_true_eq] at hk ⊢
  exact h.seesDone hk

end Weak

section Steps

variable {p : Proc} {e e' : Env} {x x' : Weak O W} {T : Finset Tid}

/-- In memory, too, no call looks at the state word behind its timeout. -/
theorem weakSystem_looping {y : Env × Weak O W} (h : (weakSystem O W).Reachable y) (t : Tid) :
    (y.2.sys.thr t).looping = true := by
  induction h generalizing t with
  | init hi =>
    obtain ⟨g, hg⟩ := hi
    rw [hg]
    rfl
  | step hreach hst ih =>
    cases hst with
    | step p h =>
      obtain ⟨s, s', hproc, hpre⟩ := h.presents (weakSystem_inv hreach).views
      rw [hpre.thr.2]
      -- the step of the interleaved model, from the slot that the call is presented with
      have hmove : SlotMove (_, s) (_, s') := .step hproc.callStep
      refine hmove.looping (fun u => ?_) t
      rw [hpre.thr.1]
      exact ih u
    | outer h => exact h.slotMove.looping ih t
    | sync p q => exact ih t

/-- Whoever takes a step in memory pays for it. -/
theorem WeakStep.work (h : WeakStep p e x e' x') (hi : x.Inv e)
    (hc : x.sys.slot.state.completed = true) (hT : ∀ t, (x.sys.thr t).active = true → t ∈ T) :
    x'.sys.work T x'.knows < x.sys.work T x.knows := by
  obtain ⟨s, s', hproc, hpre⟩ := h.presents hi.views
  have hgrow := h.grows
  obtain ⟨hthr, hthr'⟩ := hpre.thr
  obtain ⟨hfpc, hfpc'⟩ := hpre.fpc
  obtain ⟨hcomp, hcomp'⟩ := hpre.comp
  obtain ⟨hfuts, hfuts'⟩ := hpre.futs
  have hreg := hpre.registry
  cases p with
  | thread t =>
    have hst : ThreadStep t e s e' s' := hproc
    have hfr := hst.frame
    have hact : (x.sys.thr t).active = true := by
      rw [← hthr]
      exact hst.active
    have hlt : (x'.sys.thr t).rank (x'.knows t) < (x.sys.thr t).rank (x.knows t) := by
      rw [hthr', ← hthr]
      refine hst.rank (fun hk => ?_) (hgrow.knows t) fun c hpc => ?_
      · exact hpre.coherent (by simpa [Weak.knows] using hk)
      · -- the announcement reads the newest word
        have ha : x.sys.access (.thread t) = .fetchOr .seqCst .HAS_WAITER := by
          rw [hthr] at hpc
          simp [SlotSys.access, hpc, ThreadPc.access]
        obtain ⟨hsame, hword, hsees⟩ := hpre.fetchOr _ _ ha
        simp only [Weak.knows, decide_eq_true_eq]
        apply hsees
        rw [hword, hfr.completed, hsame]
        exact hc
    apply SlotSys.work_lt (by rw [hfuts', hfr.futs, hfuts])
    · intro u hu
      by_cases hut : u = t
      · rw [hut]
        exact hlt.le
      · rw [hthr', hfr.thr u hut, hthr]
        exact ThreadPc.rank_le _ _ _ (hgrow.knows u)
    · intro f hf
      rw [hfpc', hfr.fpc, hfpc]
    · have hlen := hst.length_registry
      exact .inl ⟨.inl ⟨t, hT t hact, hlt⟩, by omega, by rw [hcomp', hfr.comp, hcomp]⟩
  | future f =>
    have hst : FutStep f s s' := hproc.2
    have hfr := hst.frame
    have hlt : (x'.sys.fpc f).rank < (x.sys.fpc f).rank := by
      rw [hfpc', ← hfpc]
      exact hst.rank
    have hmem : f ∈ x.sys.futs := by
      apply hi.safe.records.mem f
      rw [← hfpc]
      exact hst.active
    apply SlotSys.work_lt (by rw [hfuts', hfr.futs, hfuts])
    · intro u hu
      rw [hthr', hfr.thr, hthr]
      exact ThreadPc.rank_le _ _ _ (hgrow.knows u)
    · intro i hi'
      by_cases hif : i = f
      · rw [hif]
        exact hlt.le
      · rw [hfpc', hfr.fpc i hif, hfpc]
    · have hlen := hst.length_registry
      exact .inl ⟨.inr ⟨f, hmem, hlt⟩, by omega, by rw [hcomp', hfr.comp, hcomp]⟩
  | completer =>
    have hst : CompStep e s e' s' := hproc
    have hfr := hst.frame
    apply SlotSys.work_lt (by rw [hfuts', hfr.futs, hfuts])
    · intro u hu
      rw [hthr', hfr.thr, hthr]
      exact ThreadPc.rank_le _ _ _ (hgrow.knows u)
    · intro i hi'
      rw [hfpc', hfr.fpc, hfpc]
    · have hlen := hst.rank
      rw [← hcomp', hcomp] at hlen
      exact .inr (by omega)

theorem WeakStep.active (h : WeakStep p e x e' x') (hi : x.Inv e) (t : Tid)
    (hact : (x'.sys.thr t).active = true) : (x.sys.thr t).active = true := by
  obtain ⟨s, s', hproc, hpre⟩ := h.presents hi.views
  rw [hpre.thr.2] at hact
  rw [← hpre.thr.1]
  exact hproc.callStep.active t hact

/-- The publisher does not forget that it has published. -/
theorem WeakStep.completed (h : WeakStep p e x e' x') (hi : x.Inv e)
    (hc : x.sys.slot.state.completed = true) : x'.sys.slot.state.completed = true := by
  have hpub : x.sys.comp.published = true := by
    rw [← hi.safe.wf.published.completed]
    exact hc
  exact (hi.step h).views.completed_of_sees (h.grows.seesDone (hi.publisher hpub))

/-- **Published, every call returns, in memory.** From any state of a generation in memory that has
been published, although loads may miss the publication: the calls in flight (the threads inside one
are among `T`) take a bounded number of steps, in whatever order, with whatever old messages and
whatever spurious wake-ups; and when none of them can move, none is left. -/
theorem weak_published_calls_return (h : (weakSystem O W).Reachable (e, x))
    (hc : x.sys.slot.state.completed = true) (hT : ∀ t, (x.sys.thr t).active = true → t ∈ T)
    {n : Nat} {y : Env × Weak O W}
    (hrun : System.Count (fun y y' => ∃ p, WeakStep p y.1 y.2 y'.1 y'.2) (fun _ _ => True) n
      (e, x) y) :
    n ≤ 36 * T.card + 22 * x.sys.futs.card + x.sys.slot.registry.length +
      x.sys.comp.rest.length + 6 ∧
    (y.2.Stuck y.1 → y.2.sys.held = none ∧ y.2.sys.comp.resting = true ∧
      (∀ t, (y.2.sys.thr t).active = false) ∧ ∀ f, (y.2.sys.fpc f).active = false) := by
  let I : Env × Weak O W → Prop := fun z => (weakSystem O W).Reachable z ∧
    z.2.sys.slot.state.completed = true ∧ ∀ t, (z.2.sys.thr t).active = true → t ∈ T
  have hkeep (z z' : Env × Weak O W) (hz : I z) (hst : ∃ p, WeakStep p z.1 z.2 z'.1 z'.2) :
      I z' := by
    obtain ⟨hreach, hcz, hTz⟩ := hz
    obtain ⟨p, hp⟩ := hst
    have hi := weakSystem_inv hreach
    exact ⟨hreach.step (.step p hp), hp.completed hi hcz, fun t hact => hTz t (hp.active hi t hact)⟩
  have hpay (z z' : Env × Weak O W) (hz : I z) (hst : ∃ p, WeakStep p z.1 z.2 z'.1 z'.2) :
      z'.2.sys.work T z'.2.knows < z.2.sys.work T z.2.knows := by
    obtain ⟨p, hp⟩ := hst
    exact hp.work (weakSystem_inv hz.1) hz.2.1 hz.2.2
  obtain ⟨⟨hreach, hcy, -⟩, hn⟩ := hrun.add_rank_le (ρ := fun z => z.2.sys.work T z.2.knows) hkeep
    (fun z z' hz hst _ => hpay z z' hz hst) (fun z z' hz hst _ => (hpay z z' hz hst).le) ⟨h, hc, hT⟩
  constructor
  · have hwork : x.sys.work T x.knows ≤ _ := SlotSys.work_bound 18 fun t => by
      have hrank := (x.sys.thr t).rank_bound (x.knows t)
      split at hrank <;> omega
    have hpub : x.sys.comp.published = true := by
      rw [← (weakSystem_inv h).safe.wf.published.completed]
      exact hc
    have hcomp := CompPc.rank_bound hpub
    simp only at hn
    omega
  · intro hst
    have hi := weakSystem_inv hreach
    obtain ⟨hheld, hrest, hfut, hthr⟩ := hi.safe.stuck (weakSystem_looping hreach) (hi.stuck hst)
    refine ⟨hheld, hrest, fun t => ?_, hfut⟩
    by_contra hact
    obtain ⟨-, -, hpending⟩ := hthr t (by simpa using hact)
    rw [hcy] at hpending
    cases hpending

end Steps

/-- Thread 0 calls `try_get` behind the publication, and has not looked at the word. -/
theorem missed_read_run : ∃ (e : Env) (x : Weak Nat Nat),
    (weakSystem Nat Nat).Reachable (e, x) ∧ x.sys.slot.state.completed = true ∧
    x.sys.thr 0 = .tryGet ∧ (∃ m, x.words.Reads .state (x.view (.thread 0)) 0 m ∧ ¬ Done m.val) ∧
    ∀ t, (x.sys.thr t).active = true → t ∈ ({0} : Finset Tid) := by
  have h₀ : (weakSystem Nat Nat).Reachable (⟨fun _ => false, 0⟩, Weak.fresh 1) := .init ⟨1, rfl⟩
  have h₁ := h₀.step (.outer (.complete 42 rfl))
  have h₂ := h₁.step (.step .completer (.setOutcome rfl (CompStep.write rfl)))
  have h₃ := h₂.step (.step .completer (.fetchOr rfl (CompStep.publish_alone rfl rfl)))
  have h₄ := h₃.step (.outer (.call 0 ⟨0, 1⟩ .tryGet rfl rfl))
  refine ⟨_, _, h₄, rfl, rfl, ⟨_, ⟨le_rfl, rfl⟩, by decide⟩, fun t hact => ?_⟩
  by_contra ht
  have ht0 : t ≠ 0 := by simpa using ht
  simp [SlotSys.startCall, SlotSys.startComplete, SlotSys.fresh, SlotSys.blank, Weak.fresh, ht0,
    ThreadPc.active] at hact

/-- Thread 0 misses the publication, returns nothing, and nobody is left. -/
theorem missed_read_returns : ∃ (e : Env) (x : Weak Nat Nat),
    x.sys.thr 0 = .returned .none ∧ (x.Stuck e → ∀ t, (x.sys.thr t).active = false) := by
  obtain ⟨e, x, h, hc, hpc, ⟨m, hr, hm⟩, hT⟩ := missed_read_run
  have ha : x.sys.access (.thread 0) = .load .acquire := by
    simp [SlotSys.access, hpc, ThreadPc.access]
  have hstep : ProcStep (.thread 0) e (Weak.present x.sys m.val) e
      ((Weak.present x.sys m.val).goThr 0 (.returned .none)) :=
    ThreadStep.tryGet_pending hpc (by simpa [Weak.present] using hm)
  have hload := WeakStep.load ha hr hstep
  obtain ⟨-, hdone⟩ := weak_published_calls_return (y := (e, _)) h hc hT
    ((System.Count.refl (e, x)).own ⟨.thread 0, hload⟩ trivial)
  refine ⟨e, _, ?_, fun hst => (hdone hst).2.2.1⟩
  simp [Weak.present]

end Observe
