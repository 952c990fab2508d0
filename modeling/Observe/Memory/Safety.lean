import Observe.Memory.Invariant

/-!
# What acquire and release suffice for

The promises of the slot in release-acquire memory: the outcome cell and the registry's box are
accessed without data races, nobody is stranded although a recheck may miss the publication, and
whoever has the publication in view never waits again.
-/

namespace Observe

open Lib

variable {O W : Type} [WillWake W]

namespace SlotSys

variable {s : SlotSys O W} {p : Proc}

omit [WillWake W] in
/-- Whoever is about to read the cell has seen `COMPLETED`. -/
theorem seen_of_access (h : s.access p = .outcomeRef) : s.seen p = true := by
  cases p with
  | thread t =>
    simp only [access, seen] at h ⊢
    cases hk : s.thr t <;> rw [hk] at h <;> first | rfl | cases h
  | future f =>
    simp only [access, seen] at h ⊢
    cases hk : s.fpc f <;> rw [hk] at h <;> first | rfl | cases h
  | completer =>
    simp only [access] at h
    cases hk : s.comp with
    | notify g ws b =>
      rw [hk] at h
      cases ws with
      | nil => cases h
      | cons y ws => cases y <;> cases h
    | _ => rw [hk] at h; cases h

omit [WillWake W] in
/-- Only the completion writes the cell. -/
theorem write_of_access (h : s.access p = .setOutcome) :
    p = .completer ∧ ∃ g v, s.comp = .write g v := by
  cases p with
  | thread t =>
    simp only [access] at h
    cases hk : s.thr t <;> rw [hk] at h <;> cases h
  | future f =>
    simp only [access] at h
    cases hk : s.fpc f <;> rw [hk] at h <;> cases h
  | completer =>
    simp only [access] at h
    cases hk : s.comp with
    | write g v => exact ⟨rfl, g, v, rfl⟩
    | notify g ws b =>
      rw [hk] at h
      cases ws with
      | nil => cases h
      | cons y ws => cases y <;> cases h
    | _ => rw [hk] at h; cases h

omit [WillWake W] in
/-- Whoever is about to take the mutex has dereferenced the pointer. -/
theorem boxed_of_lock (h : s.access p = .lock) : s.boxed p = true := by
  cases p with
  | thread t =>
    simp only [access, boxed] at h ⊢
    cases hk : s.thr t <;> rw [hk] at h <;> first | rfl | cases h
  | future f =>
    simp only [access, boxed] at h ⊢
    cases hk : s.fpc f <;> rw [hk] at h <;> first | rfl | cases h
  | completer =>
    simp only [access, boxed] at h ⊢
    cases hk : s.comp with
    | acquire g => rfl
    | notify g ws b =>
      rw [hk] at h
      cases ws with
      | nil => cases h
      | cons y ws => cases y <;> cases h
    | _ => rw [hk] at h; cases h

end SlotSys

/-! ## A recheck that misses the publication -/

/-- The recheck of thread 0 reads the word from before the publication, so the thread parks; the
drain unparks it, it consumes its token, and its next load finds the outcome. -/
theorem missed_run : ∃ (e₁ e₂ e₃ : Env) (x₁ x₂ x₃ : Weak Nat Nat),
    (weakSystem Nat Nat).Reachable (e₁, x₁) ∧ x₁.sys.comp = .returned 1 false ∧
    x₁.sys.thr 0 = .park none ∧ (1, .thread 0 1) ∈ x₁.sys.notified ∧
    WeakStep (.thread 0) e₁ x₁ e₂ x₂ ∧ (e₁.token 0 = true ∧ e₂.token 0 = false) ∧
    x₂.SeesDone (x₂.view (.thread 0)) ∧ x₂.sys.thr 0 = .check (.wait none) ∧
    WeakStep (.thread 0) e₂ x₂ e₃ x₃ ∧ x₃.sys.access (.thread 0) = .outcomeRef := by
  have h₀ : (weakSystem Nat Nat).Reachable (⟨fun _ => false, 0⟩, Weak.fresh 1) := .init ⟨1, rfl⟩
  have h₁ := h₀.step (.outer (.call 0 ⟨0, 1⟩ (.wait none) rfl rfl))
  have h₂ := h₁.step (.step (.thread 0) (.load (i := 0) rfl ⟨le_rfl, rfl⟩
    (ThreadStep.check_pending rfl rfl)))
  have h₃ := h₂.step (.step (.thread 0) (.fetchOr rfl (ThreadStep.setBit rfl)))
  have h₄ := h₃.step (.step (.thread 0) (.loadPtr (i := 0) rfl ⟨le_rfl, rfl⟩
    (ThreadStep.loadReg_null rfl rfl)))
  have h₅ := h₄.step (.step (.thread 0) (.casPtr_won rfl rfl (ThreadStep.casReg rfl)))
  have h₆ := h₅.step (.step (.thread 0) (.lock rfl (ThreadStep.acquire_wait rfl rfl)))
  have h₇ := h₆.step (.step (.thread 0) (.plain rfl (ThreadStep.push rfl)))
  have h₈ := h₇.step (.outer (.complete 42 rfl))
  have h₉ := h₈.step (.step .completer (.setOutcome rfl (CompStep.write rfl)))
  have h₁₀ := h₉.step (.step .completer (.fetchOr rfl (CompStep.publish_waiters rfl rfl)))
  -- message 1 is the thread's own announcement, and message 2 the publication
  have h₁₁ := h₁₀.step (.step (.thread 0) (.load (i := 1) rfl ⟨by decide, rfl⟩
    (ThreadStep.recheck_wait_pending rfl rfl)))
  have h₁₂ := h₁₁.step (.step (.thread 0) (.unlock rfl (ThreadStep.unlock_park rfl)))
  have h₁₃ := h₁₂.step (.step .completer (.loadPtr (i := 1) rfl ⟨by decide, rfl⟩
    (CompStep.loadReg_some rfl (by intro h; cases h))))
  have h₁₄ := h₁₃.step (.step .completer (.lock rfl (CompStep.acquire rfl rfl)))
  have h₁₅ := h₁₄.step (.step .completer (.plain rfl (CompStep.take rfl)))
  have h₁₆ := h₁₅.step (.step .completer (.unlock rfl (CompStep.unlock rfl)))
  have h₁₇ := h₁₆.step (.step .completer (.unpark rfl (CompStep.unpark rfl)))
  have h₁₈ := h₁₇.step (.step .completer (.plain rfl (CompStep.finish rfl)))
  exact ⟨_, _, _, _, _, _, h₁₈, rfl, rfl, List.mem_singleton.mpr rfl,
    .park_token rfl rfl (ThreadStep.park_token rfl rfl) ⟨rfl, rfl⟩, ⟨rfl, rfl⟩,
    ⟨2, by decide, _, rfl, rfl⟩, rfl,
    .load (i := 2) rfl ⟨by decide, rfl⟩ (ThreadStep.check_wait_done rfl rfl), rfl⟩

/-! ## No data race -/

/-- **No data race.** In every reachable state of a generation on a new slot, up to the accesses of
a thread that has the slot to itself: whoever is about to read the outcome cell has the one write of
it in view, and finds the published value there; the write is the completion's, into an empty cell
that nobody is about to read; and whoever is about to lock the registry, or holds it, has the box in
view as its maker filled it. -/
theorem outcome_race_free {e : Env} {x : Weak O W} (h : (weakSystem O W).Reachable (e, x)) :
    (∀ p, x.sys.access p = .outcomeRef → Wrote (x.view p) ∧
      ∃ v, x.sys.slot.outcome = some (x.sys.gen, v) ∧ x.sys.published x.sys.gen = some v) ∧
    (∀ p, x.sys.access p = .setOutcome → p = .completer ∧ x.sys.slot.outcome = none ∧
      ∀ q, x.sys.access q ≠ .outcomeRef) ∧
    ∀ p, x.sys.access p = .lock ∨ x.sys.held = some p → Boxed (x.view p) := by
  have hi : x.Inv e := weakSystem_inv h
  have hw := hi.safe.wf
  refine ⟨?reads, ?writes, ?boxes⟩
  case reads =>
    intro p hp
    have hsees := hi.seen p (SlotSys.seen_of_access hp)
    exact ⟨(hi.views.view p).word.known hsees,
      hw.published.live (hi.views.completed_of_sees hsees)⟩
  case writes =>
    intro p hp
    obtain ⟨rfl, g, v, hc⟩ := SlotSys.write_of_access hp
    have hcell := hw.published.cell
    have hbit := hw.published.completed
    rw [hc] at hcell hbit
    refine ⟨rfl, hcell.2.1, fun q hq => ?_⟩
    -- a reader would have seen `COMPLETED`
    have hsees := hi.seen q (SlotSys.seen_of_access hq)
    rw [hi.views.completed_of_sees hsees] at hbit
    cases hbit
  case boxes =>
    intro p hp
    have hb : x.sys.boxed p = true := by
      rcases hp with hp | hp
      · exact SlotSys.boxed_of_lock hp
      · exact SlotSys.boxed_of_holding ((hw.mutex.holding p).mpr hp)
    exact (hi.views.view p).box.known (hi.boxed p hb)

/-- The thread that was unparked is about to read the cell, and has the write in view. -/
theorem missed_outcome_in_view : ∃ x : Weak Nat Nat,
    x.sys.access (.thread 0) = .outcomeRef ∧ Wrote (x.view (.thread 0)) := by
  obtain ⟨e₁, e₂, e₃, x₁, x₂, x₃, h, -, -, -, hpark, -, -, -, hload, hread⟩ := missed_run
  have hreach : (weakSystem Nat Nat).Reachable (e₃, x₃) :=
    (h.step (.step _ hpark)).step (.step _ hload)
  exact ⟨x₃, hread, ((outcome_race_free hreach).1 _ hread).1⟩

/-! ## No stranded waiter -/

/-- **No stranded waiter, in memory.** Although a recheck may read a word from before the
publication: once `complete` has returned, every thread at `park` or on its way there has its token,
and the token makes the publication known; every waker for which `register_waker` returned `false`
has been woken; and so has the waker of the last poll of every future whose last poll returned
`Pending`, unless its cancellation left the registry before the drain. -/
theorem weak_no_stranded_waiter {e : Env} {x : Weak O W}
    (h : (weakSystem O W).Reachable (e, x)) {g : Gen} {b : Bool}
    (hret : x.sys.comp = .returned g b) :
    (∀ t, (x.sys.thr t).parked = true → e.token t = true) ∧
    (∀ t g', (g, .thread t g') ∈ x.sys.notified → x.SeesDone (x.token t)) ∧
    (∀ w ∈ x.sys.answered, x.sys.Woken g w) ∧
    ∀ f ∈ x.sys.futs, ∀ w, (x.sys.fut f).last = some w → (x.sys.fut f).early = false →
      x.sys.Woken g w := by
  have hi : x.Inv e := weakSystem_inv h
  have hs := hi.safe
  have hg := hs.gen_of_returned hret
  refine ⟨?threads, fun t g' hn => hi.unparked g t g' hn, ?direct, ?futures⟩
  case threads =>
    intro t hp
    have htok := hs.awake.token t hp (by rw [hret]; rfl)
    rw [hret] at htok
    exact htok.resolve_right (by simp [CompPc.rest])
  case direct =>
    intro w hw
    rw [hg]
    apply SlotSys.Safe.woken_of_count
    have hdirect : known x.sys.direct w = true :=
      SlotSys.Safe.known_of_mem (hs.answered.answered w hw)
    rw [hs.count_of_returned hret, account_isSome, hdirect]
    simp
  case futures =>
    intro f hf w hlast hlate
    rw [hg]
    apply SlotSys.Safe.woken_of_count
    have hst := (hs.records.ok f hf).last w hlast
    have hown := SlotSys.Safe.owners_pos hf (SlotSys.Safe.owns_of_late hst hlate)
    rw [hs.count_of_returned hret, account_isSome]
    simp [hown]

/-- Thread 0 has its token although its recheck missed the publication. -/
theorem missed_waiter_unparked : ∃ (e : Env) (x : Weak Nat Nat),
    x.sys.thr 0 = .park none ∧ e.token 0 = true := by
  obtain ⟨e₁, -, -, x₁, -, -, h, hret, hpark, -⟩ := missed_run
  exact ⟨e₁, x₁, hpark, (weak_no_stranded_waiter h hret).1 0 (by rw [hpark]; rfl)⟩

/-! ## Whoever knows -/

/-- No move in memory makes anybody forget. -/
theorem WeakMove.grows {e e' : Env} {x x' : Weak O W} (h : WeakMove (e, x) (e', x')) :
    x.Grows x' := by
  cases h with
  | step p h => exact h.grows
  | outer h => exact .ofSys _
  | sync p q =>
    exact ⟨fun _ => id, fun _ => id, Weak.le_update_view le_sup_left, le_rfl, fun _ => le_rfl⟩

/-- What has come into view stays there. -/
theorem sees_forever {y y' : Env × Weak O W} {p : Proc}
    (h : Relation.ReflTransGen WeakMove y y') (hs : y.2.SeesDone (y.2.view p)) :
    y'.2.SeesDone (y'.2.view p) := by
  induction h with
  | refl => exact hs
  | tail _ hm ih => exact hm.grows.seesDone ih

/-- The thread goes on with the outcome, or with the answer that there is one. -/
def ThreadPc.informed : ThreadPc O W → Bool
  | .read | .dereg | .returned (.registered _ true) | .unlock (.returned (.registered _ true)) =>
    true
  | _ => false

def FutPc.informed : FutPc O W → Bool
  | .read | .unlock (.poll2 _) | .poll2 _ false => true
  | _ => false

def SlotSys.informed (s : SlotSys O W) : Proc → Bool
  | .thread t => (s.thr t).informed
  | .future f => (s.fpc f).informed
  | .completer => true

/-- A load that returns `COMPLETED` sends its call on to the outcome. -/
theorem ProcStep.informed {p : Proc} {e e' : Env} {s s' : SlotSys O W} {o : MemOrder}
    (h : ProcStep p e s e' s') (ha : s.access p = .load o)
    (hc : s.slot.state.completed = true) : s'.informed p = true := by
  cases p with
  | thread t =>
    have h : ThreadStep t e s e' s' := h
    simp only [SlotSys.access, SlotSys.informed] at ha ⊢
    cases h <;> simp_all [ThreadPc.access, ThreadPc.informed]
  | future f =>
    have h : FutStep f s s' := h.2
    simp only [SlotSys.access, SlotSys.informed] at ha ⊢
    cases h <;> simp_all [FutPc.access, FutPc.informed]
  | completer => rfl

/-- A load of the state word, and a `park`, step by the rule for their access. -/
theorem WeakStep.load_cases {e e' : Env} {x x' : Weak O W} {p : Proc} {o : MemOrder}
    (h : WeakStep p e x e' x') (ha : x.sys.access p = .load o) :
    ∃ i m s', x.words.Reads .state (x.view p) i m ∧
      ProcStep p e (Weak.present x.sys m.val) e' s' ∧
      x'.sys = Weak.present s' x.sys.slot.state := by
  cases h with
  | load ha' hr h => exact ⟨_, _, _, hr, h, rfl⟩
  | _ => simp_all

/-- Whoever consumes a token knows what its unpark knew. -/
theorem WeakStep.park_cases {e e' : Env} {x x' : Weak O W} {t : Tid}
    (h : WeakStep (.thread t) e x e' x') (ha : x.sys.access (.thread t) = .park)
    (htok : e.token t = true ∧ e'.token t = false) :
    x.token t ≤ x'.view (.thread t) := by
  cases h with
  | park_token hp ha' h htok' =>
    cases hp
    simp
  | park_spurious ha' h =>
    rw [htok.1] at htok
    cases htok.2
  | _ => simp_all

/-- **Whoever knows does not wait.** Once the publication is in somebody's view, every later load of
his finds it: none of his calls takes a pending branch any more, however the slot goes on in
between. -/
theorem informed_forever {e e' e'' : Env} {x x' x'' : Weak O W} {p : Proc} {o : MemOrder}
    (h : (weakSystem O W).Reachable (e, x)) (hs : x.SeesDone (x.view p))
    (hrun : Relation.ReflTransGen WeakMove (e, x) (e', x')) (hstep : WeakStep p e' x' e'' x'')
    (ha : x'.sys.access p = .load o) : x''.sys.informed p = true := by
  have hi : x'.Inv e' := weakSystem_inv (h.trans hrun)
  have hs' : x'.SeesDone (x'.view p) := sees_forever hrun hs
  obtain ⟨i, m, s', hr, hproc, heq⟩ := hstep.load_cases ha
  have hd : Done m.val := hr.coherent hi.views.words hs'
  have hacc : (Weak.present x'.sys m.val).access p = .load o := by
    cases p <;> exact ha
  have hinf := hproc.informed hacc hd
  rw [heq]
  cases p <;> exact hinf

/-- Thread 0 has the publication in view once it has consumed its token. -/
theorem missed_load_informed : ∃ x x' : Weak Nat Nat,
    x.sys.access (.thread 0) = .load .acquire ∧ x'.sys.informed (.thread 0) = true := by
  obtain ⟨e₁, e₂, e₃, x₁, x₂, x₃, h, -, -, -, hpark, -, hsees, hpc, hload, -⟩ := missed_run
  have ha : x₂.sys.access (.thread 0) = .load .acquire := by
    simp [SlotSys.access, hpc, ThreadPc.access]
  exact ⟨x₂, x₃, ha, informed_forever (h.step (.step _ hpark)) hsees .refl hload ha⟩

/-- **An unparked thread reads.** A thread that consumes its token after the drain has unparked it
does not go round the loop again: its next load, whenever it comes, finds the outcome. -/
theorem unparked_thread_reads {e₁ e₂ e₃ e₄ : Env} {x₁ x₂ x₃ x₄ : Weak O W} {t : Tid}
    {d : Option Nat} {g g' : Gen} (h : (weakSystem O W).Reachable (e₁, x₁))
    (hn : (g, .thread t g') ∈ x₁.sys.notified) (hpc : x₁.sys.thr t = .park d)
    (hpark : WeakStep (.thread t) e₁ x₁ e₂ x₂) (htok : e₁.token t = true ∧ e₂.token t = false)
    (hrun : Relation.ReflTransGen WeakMove (e₂, x₂) (e₃, x₃))
    (hpc' : x₃.sys.thr t = .check (.wait d)) (hstep : WeakStep (.thread t) e₃ x₃ e₄ x₄) :
    x₄.sys.thr t = .read := by
  have hi : x₁.Inv e₁ := weakSystem_inv h
  have htoken : x₁.SeesDone (x₁.token t) := hi.unparked g t g' hn
  have hpark' : x₁.sys.access (.thread t) = .park := by
    simp [SlotSys.access, hpc, ThreadPc.access]
  have hview : x₂.SeesDone (x₂.view (.thread t)) :=
    (hpark.grows.done _ htoken).mono (hpark.park_cases hpark' htok)
  have hreach : (weakSystem O W).Reachable (e₂, x₂) := h.step (.step _ hpark)
  have ha : x₃.sys.access (.thread t) = .load .acquire := by
    simp [SlotSys.access, hpc', ThreadPc.access]
  have hinf := informed_forever hreach hview hrun hstep ha
  obtain ⟨i, m, s', hr, hproc, heq⟩ := hstep.load_cases ha
  have hproc : ThreadStep t e₃ (Weak.present x₃.sys m.val) e₄ s' := hproc
  have hfrom : (Weak.present x₃.sys m.val).thr t = .check (.wait d) := hpc'
  rw [heq] at hinf ⊢
  show s'.thr t = .read
  have hinf : (s'.thr t).informed = true := hinf
  cases hproc <;> simp_all [ThreadPc.informed]

/-- Thread 0 goes on to the cell. -/
theorem missed_waiter_reads : ∃ x : Weak Nat Nat, x.sys.thr 0 = .read := by
  obtain ⟨e₁, e₂, e₃, x₁, x₂, x₃, h, -, hpc, hn, hpark, htok, -, hpc', hload, -⟩ := missed_run
  exact ⟨x₃, unparked_thread_reads h hn hpc hpark htok .refl hpc' hload⟩

/-! ## The interleaved runs -/

def generationSystem (O W : Type) [WillWake W] : Lib.System (Env × SlotSys O W) where
  init y := ∃ g, y.2 = SlotSys.blank.fresh g
  step y y' := CallStep y.1 y.2 y'.1 y'.2 ∨ OuterMove y y'

/-- Memory allows every interleaved step: each load reads the newest message. -/
theorem Weak.Inv.follow {p : Proc} {e e' : Env} {x : Weak O W} {s' : SlotSys O W} (hi : x.Inv e)
    (h : ProcStep p e x.sys e' s') : ∃ x', WeakStep p e x e' x' ∧ x'.sys = s' := by
  have hview := hi.views.view p
  cases ha : x.sys.access p with
  | plain => exact ⟨_, .plain ha h, rfl⟩
  | load o =>
    have hsame : Weak.present x.sys x.words.last.val = x.sys := by
      rw [hi.views.word]
      rfl
    have hstate : s'.slot.state = x.sys.slot.state := by rw [h.state, ha]
    refine ⟨_, .load ha (History.reads_last hview.word.bounded) (by rw [hsame]; exact h), ?_⟩
    show Weak.present s' x.sys.slot.state = s'
    rw [← hstate]
    rfl
  | fetchOr o mask => exact ⟨_, .fetchOr ha h, rfl⟩
  | loadPtr o =>
    have hsame : Weak.presentPtr x.sys x.boxes.last.val = x.sys := by
      have hptr : (if x.sys.slot.waiters.isSome then x.sys.slot.waiters else none) =
          x.sys.slot.waiters := by
        cases x.sys.slot.waiters <;> rfl
      unfold Weak.presentPtr
      rw [hi.views.box, hptr]
    refine ⟨_, .loadPtr ha (History.reads_last hview.box.bounded) (by rw [hsame]; exact h), ?_⟩
    show ({ s' with slot := x.sys.slot } : SlotSys O W) = s'
    rw [← h.slot_of_loadPtr ha]
  | casPtr o o' =>
    cases hl : x.boxes.last.val with
    | false => exact ⟨_, .casPtr_won ha hl h, rfl⟩
    | true => exact ⟨_, .casPtr_lost ha (History.reads_last hview.box.bounded) hl h, rfl⟩
  | lock => exact ⟨_, .lock ha h, rfl⟩
  | unlock => exact ⟨_, .unlock ha h, rfl⟩
  | setOutcome => exact ⟨_, .setOutcome ha h, rfl⟩
  | outcomeRef => exact ⟨_, .outcomeRef ha h, rfl⟩
  | unpark t => exact ⟨_, .unpark ha h, rfl⟩
  | park =>
    cases p with
    | thread t =>
      have hstep : ThreadStep t e x.sys e' s' := h
      cases hstep with
      | park_token hpc htok =>
        exact ⟨_, .park_token rfl ha h ⟨htok, by simp⟩, rfl⟩
      | park_spurious hpc => exact ⟨_, .park_spurious ha h, rfl⟩
      | _ => simp_all [SlotSys.access, ThreadPc.access]
    | future f =>
      simp only [SlotSys.access] at ha
      cases hk : x.sys.fpc f <;> rw [hk] at ha <;> cases ha
    | completer =>
      simp only [SlotSys.access] at ha
      cases hk : x.sys.comp with
      | notify g ws b =>
        rw [hk] at ha
        cases ws with
        | nil => cases ha
        | cons y ws => cases y <;> cases ha
      | _ => rw [hk] at ha; cases ha

/-- **Memory only adds runs.** Every state that a generation reaches in the interleaved model is
reached in memory as well. -/
theorem interleaved_in_memory {e : Env} {s : SlotSys O W}
    (h : (generationSystem O W).Reachable (e, s)) :
    ∃ x, (weakSystem O W).Reachable (e, x) ∧ x.sys = s := by
  generalize hy : (e, s) = y at h
  induction h generalizing e s with
  | init hi =>
    obtain ⟨g, hg⟩ := hi
    subst hy
    exact ⟨Weak.fresh g, .init ⟨g, rfl⟩, hg.symm⟩
  | @step y y' hreach hst ih =>
    subst hy
    obtain ⟨x, hx, hs⟩ := ih (e := y.1) (s := y.2) rfl
    rcases hst with hcall | houter
    · obtain ⟨p, hp⟩ := hcall.procStep
      rw [← hs] at hp
      obtain ⟨x', hstep, hs'⟩ := (weakSystem_inv hx).follow hp
      exact ⟨x', hx.step (.step p hstep), hs'⟩
    · have houter' : OuterMove (y.1, x.sys) (e, s) := by
        rw [hs]
        exact houter
      exact ⟨_, hx.step (.outer houter'), rfl⟩

end Observe
