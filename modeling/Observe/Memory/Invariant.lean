import Observe.Memory.Views

/-!
# The invariant in memory

The invariants of the interleaved model hold in memory as well, together with what the views know:
the publication reaches whoever reads the cell, whoever rechecks behind the drain, and whoever is
unparked.
-/

namespace Observe

open Lib

variable {O W : Type}

namespace Weak

/-- Behind the drain: a call that may still register has the publication in view once it holds the
mutex.  It has it from the start when nobody had announced itself, and otherwise from the mutex. -/
structure Drain (x : Weak O W) : Prop where
  holder : ∀ p, x.sys.holding p = true → x.sys.announced p = true → x.SeesDone (x.view p)
  entering : (∀ p, x.sys.announced p = true → x.SeesDone (x.view p)) ∨
    x.sys.held = some .completer ∨ x.SeesDone x.guard

structure Grows (x x' : Weak O W) : Prop where
  done : ∀ v, x.SeesDone v → x'.SeesDone v
  box : ∀ v, x.SeesBox v → x'.SeesBox v
  view : ∀ p, x.view p ≤ x'.view p
  guard : x.guard ≤ x'.guard
  token : ∀ t, x.token t ≤ x'.token t

section Inv

variable [WillWake W]

structure Inv (e : Env) (x : Weak O W) : Prop where
  safe : x.sys.Safe e
  views : x.Views
  wrote : x.sys.comp.wrote = true → Wrote (x.view .completer)
  publisher : x.sys.comp.published = true → x.SeesDone (x.view .completer)
  seen : ∀ p, x.sys.seen p = true → x.SeesDone (x.view p)
  boxed : ∀ p, x.sys.boxed p = true → x.SeesBox (x.view p)
  drain : x.sys.comp.taken = true → x.Drain
  futures : ∀ f ∈ x.sys.futs, ¬ x.SeesDone (x.view (.future f)) →
    Fut.Unseen (x.sys.fpc f) (x.sys.fut f)
  unparked : ∀ g t g', (g, .thread t g') ∈ x.sys.notified → x.SeesDone (x.token t)

end Inv

variable {x x' : Weak O W} {p q : Proc} {v : View Loc}

namespace Grows

theorem ofSys (s : SlotSys O W) : x.Grows { x with sys := s } :=
  ⟨fun _ => id, fun _ => id, fun _ => le_rfl, le_rfl, fun _ => le_rfl⟩

theorem seesDone (h : x.Grows x') (hs : x.SeesDone (x.view p)) : x'.SeesDone (x'.view p) :=
  (h.done _ hs).mono (h.view p)

theorem seesBox (h : x.Grows x') (hs : x.SeesBox (x.view p)) : x'.SeesBox (x'.view p) :=
  (h.box _ hs).mono (h.view p)

theorem seesGuard (h : x.Grows x') (hs : x.SeesDone x.guard) : x'.SeesDone x'.guard :=
  (h.done _ hs).mono h.guard

theorem seesToken (h : x.Grows x') {t : Tid} (hs : x.SeesDone (x.token t)) :
    x'.SeesDone (x'.token t) :=
  (h.done _ hs).mono (h.token t)

end Grows

theorem le_update_view (hv : x.view p ≤ v) (q : Proc) :
    x.view q ≤ Function.update x.view p v q := by
  by_cases hq : q = p
  · subst hq
    simpa using hv
  · simp [hq]

end Weak

/-! ## What a step teaches -/

section Steps

variable [WillWake W] {p q : Proc} {e e' : Env} {x x' : Weak O W}

/-- No step in memory makes anybody forget. -/
theorem WeakStep.grows (h : WeakStep p e x e' x') : x.Grows x' := by
  cases h with
  | load ha hr h =>
    exact ⟨fun _ => id, fun _ => id, Weak.le_update_view History.le_learn, le_rfl, fun _ => le_rfl⟩
  | fetchOr ha h =>
    exact ⟨fun _ hs => hs.rmw _ _ _, fun _ => id, Weak.le_update_view History.le_rmwView, le_rfl,
      fun _ => le_rfl⟩
  | loadPtr ha hr h =>
    exact ⟨fun _ => id, fun _ => id, Weak.le_update_view History.le_learn, le_rfl, fun _ => le_rfl⟩
  | casPtr_won ha hn h =>
    exact ⟨fun _ => id, fun _ hs => hs.rmw _ _ _,
      Weak.le_update_view ((View.le_write _ _).trans History.le_rmwView), le_rfl, fun _ => le_rfl⟩
  | casPtr_lost ha hr hset h =>
    exact ⟨fun _ => id, fun _ => id, Weak.le_update_view History.le_learn, le_rfl, fun _ => le_rfl⟩
  | lock ha h =>
    exact ⟨fun _ => id, fun _ => id, Weak.le_update_view le_sup_left, le_rfl, fun _ => le_rfl⟩
  | unlock ha h => exact ⟨fun _ => id, fun _ => id, fun _ => le_rfl, le_sup_left, fun _ => le_rfl⟩
  | setOutcome ha h =>
    exact ⟨fun _ => id, fun _ => id, Weak.le_update_view (View.le_write _ _), le_rfl,
      fun _ => le_rfl⟩
  | park_token hp ha h htok =>
    exact ⟨fun _ => id, fun _ => id, Weak.le_update_view le_sup_left, le_rfl, fun _ => le_rfl⟩
  | @unpark e' s' t ha h =>
    refine ⟨fun _ => id, fun _ => id, fun _ => le_rfl, le_rfl, fun u => ?_⟩
    by_cases hu : u = t
    · subst hu
      simp
    · simp [hu]
  | _ => exact Weak.Grows.ofSys _

/-- The call goes on by a step of the interleaved model, from the slot `s` that it is presented with,
and learns what its access teaches. -/
structure Weak.Presents (p : Proc) (x x' : Weak O W) (s s' : SlotSys O W) : Prop where
  thr : s.thr = x.sys.thr ∧ x'.sys.thr = s'.thr
  fpc : s.fpc = x.sys.fpc ∧ x'.sys.fpc = s'.fpc
  comp : s.comp = x.sys.comp ∧ x'.sys.comp = s'.comp
  held : s.held = x.sys.held ∧ x'.sys.held = s'.held
  fut : s.fut = x.sys.fut ∧ x'.sys.fut = s'.fut
  futs : s.futs = x.sys.futs ∧ x'.sys.futs = s'.futs
  notified : s.notified = x.sys.notified ∧ x'.sys.notified = s'.notified
  /-- The registry grows and shrinks as in the step. -/
  registry : x'.sys.slot.registry.length + s.slot.registry.length =
    x.sys.slot.registry.length + s'.slot.registry.length
  coherent : x.SeesDone (x.view p) → s.slot.state.completed = true
  load : ∀ o, x.sys.access p = .load o → s.slot.state.completed = true → x'.SeesDone (x'.view p)
  fetchOr : ∀ o mask, x.sys.access p = .fetchOr o mask → s.slot.state = x.sys.slot.state ∧
    x'.sys.slot.state = s'.slot.state ∧
    (x'.sys.slot.state.completed = true → x'.SeesDone (x'.view p))
  loadPtr : ∀ o, x.sys.access p = .loadPtr o → s.slot.waiters ≠ none → x'.SeesBox (x'.view p)
  casPtr : ∀ o o', x.sys.access p = .casPtr o o' → x'.SeesBox (x'.view p)
  lock : x.sys.access p = .lock → x.guard ≤ x'.view p
  unlock : x.sys.access p = .unlock → x.view p ≤ x'.guard
  setOutcome : x.sys.access p = .setOutcome → Wrote (x'.view p)
  unpark : ∀ t, x.sys.access p = .unpark t → x.view p ≤ x'.token t

/-- Every step in memory is one of the interleaved model on the slot that the caller is presented
with. -/
theorem WeakStep.presents (h : WeakStep p e x e' x') (hx : x.Views) :
    ∃ s s', ProcStep p e s e' s' ∧ Weak.Presents p x x' s s' := by
  cases h with
  | load ha hr h =>
    refine ⟨_, _, h, ?_⟩
    constructor
    case load.registry => exact Nat.add_comm _ _
    case load.coherent => exact hr.coherent hx.words
    case load.load =>
      intro o _ hc
      simp only [Weak.look, Function.update_self]
      exact hr.sees hc
    all_goals first | exact ⟨rfl, rfl⟩ | simp [ha]
  | fetchOr ha h =>
    refine ⟨_, _, h, ?_⟩
    constructor
    case fetchOr.registry => exact Nat.add_comm _ _
    case fetchOr.coherent => exact hx.completed_of_sees
    case fetchOr.fetchOr =>
      intro o mask ho
      refine ⟨rfl, rfl, fun hc => ?_⟩
      simp only [Weak.look, h.state, ha] at hc
      simp only [Weak.look, Function.update_self]
      apply History.sees_rmwView
      show Done (x.words.last.val.fetchOr _)
      rw [hx.word]
      exact hc
    all_goals simp [ha]
  | @loadPtr e' s' o i m ha hr h =>
    refine ⟨_, _, h, ?_⟩
    constructor
    case loadPtr.registry =>
      -- the step keeps the slot that it is presented with
      have hacc : (Weak.presentPtr x.sys m.val).access p = .loadPtr o := by
        cases p <;> exact ha
      rw [h.slot_of_loadPtr hacc]
      rfl
    case loadPtr.coherent => exact hx.completed_of_sees
    case loadPtr.loadPtr =>
      intro o _ hn
      simp only [Weak.look, Function.update_self]
      exact hr.sees (presentPtr_waiters hn).1
    all_goals first | exact ⟨rfl, rfl⟩ | simp [ha]
  | casPtr_won ha hn h =>
    refine ⟨_, _, h, ?_⟩
    constructor
    case casPtr_won.registry => exact Nat.add_comm _ _
    case casPtr_won.coherent => exact hx.completed_of_sees
    case casPtr_won.casPtr =>
      intro o o' _
      simp only [Weak.look, Function.update_self]
      exact History.sees_rmwView (P := (· = true)) rfl
    all_goals simp [ha]
  | casPtr_lost ha hr hset h =>
    refine ⟨_, _, h, ?_⟩
    constructor
    case casPtr_lost.registry => exact Nat.add_comm _ _
    case casPtr_lost.coherent => exact hx.completed_of_sees
    case casPtr_lost.casPtr =>
      intro o o' _
      simp only [Weak.look, Function.update_self]
      exact hr.sees hset
    all_goals simp [ha]
  | lock ha h =>
    refine ⟨_, _, h, ?_⟩
    constructor
    case lock.registry => exact Nat.add_comm _ _
    case lock.coherent => exact hx.completed_of_sees
    case lock.lock =>
      intro _
      simp only [Weak.look, Function.update_self]
      exact le_sup_right
    all_goals simp [ha]
  | setOutcome ha h =>
    refine ⟨_, _, h, ?_⟩
    constructor
    case setOutcome.registry => exact Nat.add_comm _ _
    case setOutcome.coherent => exact hx.completed_of_sees
    case setOutcome.setOutcome =>
      intro _
      simp [Wrote]
    all_goals simp [ha]
  | @unpark e' s' t ha h =>
    refine ⟨_, _, h, ?_⟩
    constructor
    case unpark.registry => exact Nat.add_comm _ _
    case unpark.coherent => exact hx.completed_of_sees
    case unpark.unpark =>
      intro u hu
      rw [ha] at hu
      cases hu
      simp
    all_goals simp [ha]
  | unlock ha h =>
    refine ⟨_, _, h, ?_⟩
    constructor
    case unlock.registry => exact Nat.add_comm _ _
    case unlock.coherent => exact hx.completed_of_sees
    case unlock.unlock =>
      intro _
      exact le_sup_right
    all_goals simp [ha]
  -- the other accesses teach nothing about the slot
  | plain ha h | outcomeRef ha h | park_token hp ha h htok | park_spurious ha h =>
    refine ⟨_, _, h, ?_⟩
    constructor
    case registry => exact Nat.add_comm _ _
    case coherent => exact hx.completed_of_sees
    all_goals simp [ha]

omit [WillWake W] in
/-- Equal program counters, equal classes. -/
theorem SlotSys.classes_congr {s s' : SlotSys O W} (ht : s.thr = s'.thr) (hf : s.fpc = s'.fpc)
    (hc : s.comp = s'.comp) (p : Proc) :
    s.seen p = s'.seen p ∧ s.announced p = s'.announced p ∧ s.holding p = s'.holding p ∧
      s.boxed p = s'.boxed p ∧ s.access p = s'.access p := by
  cases p <;> simp [seen, announced, holding, boxed, access, ht, hf, hc]

namespace Weak.Presents

variable {s s' : SlotSys O W}

omit [WillWake W] in
theorem before (h : Presents p x x' s s') (q : Proc) :
    s.seen q = x.sys.seen q ∧ s.announced q = x.sys.announced q ∧
      s.holding q = x.sys.holding q ∧ s.boxed q = x.sys.boxed q ∧
      s.access q = x.sys.access q :=
  SlotSys.classes_congr h.thr.1 h.fpc.1 h.comp.1 q

omit [WillWake W] in
theorem after (h : Presents p x x' s s') (q : Proc) :
    x'.sys.seen q = s'.seen q ∧ x'.sys.announced q = s'.announced q ∧
      x'.sys.holding q = s'.holding q ∧ x'.sys.boxed q = s'.boxed q ∧
      x'.sys.access q = s'.access q :=
  SlotSys.classes_congr h.thr.2 h.fpc.2 h.comp.2 q

theorem other (h : Presents p x x' s s') (hs : ProcStep p e s e' s') (hq : q ≠ p) :
    x'.sys.seen q = x.sys.seen q ∧ x'.sys.announced q = x.sys.announced q ∧
      x'.sys.holding q = x.sys.holding q ∧ x'.sys.boxed q = x.sys.boxed q := by
  obtain ⟨h₁, h₂, h₃, h₄⟩ := (hs.other hq).classes
  obtain ⟨b₁, b₂, b₃, b₄, -⟩ := h.before q
  obtain ⟨a₁, a₂, a₃, a₄, -⟩ := h.after q
  exact ⟨by rw [a₁, h₁, b₁], by rw [a₂, h₂, b₂], by rw [a₃, h₃, b₃], by rw [a₄, h₄, b₄]⟩

omit [WillWake W] in
/-- Whoever holds the mutex on the presented slot holds it. -/
theorem owner (h : Presents p x x' s s') (hm : x.sys.Mutex) (q : Proc)
    (hq : s.holding q = true) : s.held = some q := by
  rw [(h.before q).2.2.1] at hq
  rw [h.held.1]
  exact (hm.holding q).mp hq

/-- Whoever gets to the cell has seen the publication. -/
theorem seen (h : Presents p x x' s s') (hs : ProcStep p e s e' s')
    (hp : x'.sys.seen p = true) : x.sys.seen p = true ∨ x'.SeesDone (x'.view p) := by
  rw [(h.after p).1] at hp
  rcases hs.seen hp with hold | ⟨hc, o, ha⟩
  · rw [(h.before p).1] at hold
    exact .inl hold
  · rw [(h.before p).2.2.2.2] at ha
    exact .inr (h.load o ha hc)

/-- Whoever gets to the registry has seen its pointer. -/
theorem boxed (h : Presents p x x' s s') (hs : ProcStep p e s e' s')
    (hp : x'.sys.boxed p = true) : x.sys.boxed p = true ∨ x'.SeesBox (x'.view p) := by
  have hacc := (h.before p).2.2.2.2
  rw [(h.after p).2.2.2.1] at hp
  rcases hs.boxed hp with hold | ⟨hn, o, ha⟩ | ⟨o, o', ha⟩
  · rw [(h.before p).2.2.2.1] at hold
    exact .inl hold
  · rw [hacc] at ha
    exact .inr (h.loadPtr o ha hn)
  · rw [hacc] at ha
    exact .inr (h.casPtr o o' ha)

/-- Whoever announces itself sees a publication that came before. -/
theorem announced (h : Presents p x x' s s') (hs : ProcStep p e s e' s')
    (hc : x.sys.slot.state.completed = true) (hp : x'.sys.announced p = true) :
    x.sys.announced p = true ∨ (x'.SeesDone (x'.view p) ∧ x'.sys.holding p = false) := by
  rw [(h.after p).2.1] at hp
  rcases hs.announced hp with hold | ⟨⟨o, mask, ha⟩, hnot⟩
  · rw [(h.before p).2.1] at hold
    exact .inl hold
  · have hstate := hs.state
    rw [ha] at hstate
    rw [(h.before p).2.2.2.2] at ha
    obtain ⟨hword, hword', hsees⟩ := h.fetchOr o mask ha
    refine .inr ⟨hsees ?_, by rw [(h.after p).2.2.1, hnot]⟩
    rw [hword', hstate, hword]
    simp [StateWord.fetchOr, hc]

/-- Whoever takes the mutex learns what its last owner knew. -/
theorem holding (h : Presents p x x' s s') (hs : ProcStep p e s e' s')
    (hp : x'.sys.holding p = true) :
    x.sys.holding p = true ∨
      (x.sys.held = none ∧ x.guard ≤ x'.view p ∧
        (x'.sys.announced p = true → x.sys.announced p = true)) := by
  rw [(h.after p).2.2.1] at hp
  rcases hs.holding hp with hold | ⟨ha, hfree⟩
  · rw [(h.before p).2.2.1] at hold
    exact .inl hold
  · have hann := SlotSys.announced_of_access ha hs
    rw [(h.before p).2.2.2.2] at ha
    rw [h.held.1] at hfree
    rw [(h.before p).2.1, ← (h.after p).2.1] at hann
    exact .inr ⟨hfree, h.lock ha, hann⟩

end Weak.Presents

/-! ## Behind the drain -/

namespace Weak.Drain

variable {s s' : SlotSys O W}

/-- The drain comes to pass: its owner has the mutex, or nobody has announced itself. -/
theorem start (hw : x.sys.Wf) (h : Presents p x x' s s') (hs : ProcStep p e s e' s')
    (htk : x.sys.comp.taken = false) (htk' : x'.sys.comp.taken = true) : x'.Drain := by
  have hp : p = .completer := by
    by_contra hne
    have hstay : s'.comp = s.comp := hs.other (q := .completer) (Ne.symm hne)
    rw [h.comp.2, hstay, h.comp.1, htk] at htk'
    cases htk'
  subst hp
  rw [h.comp.2] at htk'
  rcases hs.taken htk' with hold | ⟨g, hg⟩ | ⟨⟨o, mask, ha⟩, hno⟩
  · rw [h.comp.1, htk] at hold
    cases hold
  · rw [h.comp.1] at hg
    have hheld : x.sys.held = some .completer := (hw.mutex.comp).mp (by rw [hg]; rfl)
    have hheld' : x'.sys.held = some .completer := by
      rw [h.held.2]
      rcases hs.held_completer (h.owner hw.mutex) (by rw [h.held.1, hheld]) with hh | ⟨-, ha⟩
      · exact hh
      · rw [(h.before _).2.2.2.2] at ha
        simp only [SlotSys.access, hg, CompPc.access] at ha
        cases ha
    refine ⟨fun q hq ha => ?_, .inr (.inl hheld')⟩
    -- the owner of the mutex is the completion
    have hne : q ≠ .completer := by
      intro hq'
      rw [hq'] at ha
      cases ha
    rw [(h.other hs hne).2.2.1] at hq
    have hq' := (hw.mutex.holding q).mp hq
    rw [hheld, Option.some.injEq] at hq'
    exact absurd hq'.symm hne
  · rw [(h.before _).2.2.2.2] at ha
    rw [(h.fetchOr o mask ha).1] at hno
    have hnobody (q : Proc) : x'.sys.announced q ≠ true := by
      intro hq
      have hne : q ≠ .completer := by
        intro hq'
        rw [hq'] at hq
        cases hq
      rw [(h.other hs hne).2.1] at hq
      have hset : x.sys.slot.state.hasWaiter = true := by
        cases q with
        | thread t => exact hw.announced.thr t hq
        | future f => exact hw.announced.fut f hq
        | completer => exact absurd rfl hne
      rw [hno] at hset
      cases hset
    exact ⟨fun q _ ha => absurd ha (hnobody q), .inl fun q ha => absurd ha (hnobody q)⟩

/-- Behind the drain the mutex hands the publication on. -/
theorem step (hd : x.Drain) (hw : x.sys.Wf) (hc : x.sys.slot.state.completed = true)
    (hpub : x.SeesDone (x.view .completer)) (h : Presents p x x' s s')
    (hs : ProcStep p e s e' s') (hg : x.Grows x') : x'.Drain := by
  constructor
  case holder =>
    intro q hq ha
    by_cases hqp : q = p
    · subst hqp
      rcases h.announced hs hc ha with hann | ⟨hsees, -⟩
      · rcases h.holding hs hq with hold | ⟨hfree, hle, -⟩
        · exact hg.seesDone (hd.holder q hold hann)
        · -- the mutex was free, so the completion has given it back
          rcases hd.entering with hall | hheld | hguard
          · exact hg.seesDone (hall q hann)
          · rw [hfree] at hheld
            cases hheld
          · exact (hg.done _ hguard).mono hle
      · exact hsees
    · rw [(h.other hs hqp).2.1] at ha
      rw [(h.other hs hqp).2.2.1] at hq
      exact hg.seesDone (hd.holder q hq ha)
  case entering =>
    rcases hd.entering with hall | hheld | hguard
    · refine .inl fun q ha => ?_
      by_cases hqp : q = p
      · subst hqp
        rcases h.announced hs hc ha with hann | ⟨hsees, -⟩
        · exact hg.seesDone (hall q hann)
        · exact hsees
      · rw [(h.other hs hqp).2.1] at ha
        exact hg.seesDone (hall q ha)
    · rcases hs.held_completer (h.owner hw.mutex) (by rw [h.held.1, hheld]) with hh | ⟨hp, ha⟩
      · exact .inr (.inl (by rw [h.held.2, hh]))
      · -- the completion gives the mutex back, and its knowledge with it
        rw [(h.before p).2.2.2.2] at ha
        rw [← hp] at hpub
        exact .inr (.inr ((hg.done _ hpub).mono (h.unlock ha)))
    · exact .inr (.inr (hg.seesGuard hguard))

end Weak.Drain

/-! ## Every step keeps the invariant -/

/-- A step in memory keeps the views informed. -/
theorem WeakStep.views (h : WeakStep p e x e' x') (hi : x.Inv e) : x'.Views := by
  have hx := hi.views
  have hset (hh : x.sys.holding p = true) : x.sys.slot.waiters.isSome = true :=
    hx.waiters_of_sees (hi.boxed p (SlotSys.boxed_of_holding hh))
  cases h with
  | plain ha h =>
    apply hx.ofSys
    · rw [h.state, ha]
    · rw [h.pointer hset, ha]
  | @load e' s' o i m ha hr h =>
    have hacc : (Weak.present x.sys m.val).access p = .load o := by
      cases p <;> exact ha
    have hptr := h.pointer (by cases p <;> exact hset)
    rw [hacc] at hptr
    have hy : ({ x with sys := Weak.present s' x.sys.slot.state } : Weak O W).Views :=
      hx.ofSys rfl hptr
    have hv : x.Knows ((x.view p).learn .state i o m) :=
      (hx.view p).learnWord hx hr (SlotSys.acquires (.inl ha))
    exact hy.look hv
  | @fetchOr e' s' o mask ha h =>
    apply hx.fetchOr
    · rw [h.state, ha]
    · rw [h.pointer hset, ha]
    · intro hd
      rcases SlotSys.fetchOr_cases ha with ⟨rfl, rfl, -⟩ | ⟨rfl, rfl, hw⟩
      · refine .inl ⟨rfl, ?_⟩
        simpa [Done, StateWord.fetchOr, StateWord.HAS_WAITER] using hd
      · exact .inr ⟨rfl, hi.wrote hw⟩
  | @loadPtr e' s' o i m ha hr h =>
    have hy : ({ x with sys := { s' with slot := x.sys.slot } } : Weak O W).Views :=
      hx.ofSys rfl rfl
    have hv : x.Knows ((x.view p).learn .waiters i o m) :=
      (hx.view p).learnBox hx hr (SlotSys.acquires (.inr (.inl ha)))
    exact hy.look hv
  | @casPtr_won e' s' o o' ha hn h =>
    apply hx.casPtr
    · rw [h.state, ha]
    · rw [h.pointer hset, ha]
    · exact SlotSys.releases ha
  | @casPtr_lost e' s' o o' i m ha hr hm h =>
    have hptr := h.pointer hset
    rw [ha] at hptr
    have hsees : x.SeesBox ((x.view p).learn .waiters i o' m) := hr.sees hm
    have hy : ({ x with sys := s' } : Weak O W).Views := by
      apply hx.ofSys
      · rw [h.state, ha]
      · rw [hptr, hx.waiters_of_sees hsees]
    have hv : x.Knows ((x.view p).learn .waiters i o' m) :=
      (hx.view p).learnBox hx hr (SlotSys.acquires (.inr (.inr ⟨o, ha⟩)))
    exact hy.look hv
  | lock ha h =>
    refine (hx.ofSys ?_ ?_).look ((hx.view p).sup hx.guard)
    · rw [h.state, ha]
    · rw [h.pointer hset, ha]
  | unlock ha h =>
    refine (hx.ofSys ?_ ?_).release (hx.guard.sup (hx.view p))
    · rw [h.state, ha]
    · rw [h.pointer hset, ha]
  | setOutcome ha h =>
    refine (hx.ofSys ?_ ?_).look ((hx.view p).write (by simp) (by simp))
    · rw [h.state, ha]
    · rw [h.pointer hset, ha]
  | outcomeRef ha h =>
    apply hx.ofSys
    · rw [h.state, ha]
    · rw [h.pointer hset, ha]
  | @park_token e' s' t hp ha h htok =>
    refine (hx.ofSys ?_ ?_).look ((hx.view p).sup (hx.token t))
    · rw [h.state, ha]
    · rw [h.pointer hset, ha]
  | park_spurious ha h =>
    apply hx.ofSys
    · rw [h.state, ha]
    · rw [h.pointer hset, ha]
  | @unpark e' s' t ha h =>
    refine (hx.ofSys ?_ ?_).hand t ((hx.token t).sup (hx.view p))
    · rw [h.state, ha]
    · rw [h.pointer hset, ha]

/-- The invariants of the interleaved model survive a load that misses the publication. -/
theorem WeakStep.safe (h : WeakStep p e x e' x') (hi : x.Inv e) : x'.sys.Safe e' := by
  have hx := hi.views
  have hs := hi.safe
  cases h with
  | @load e' s' o i m ha hr h =>
    -- whoever sees the publication reads it, so a recheck behind the drain does not miss it
    have hmiss (hm : m.val.completed = false) (hc : x.SeesDone (x.view p)) : False := by
      have hd : Done m.val := hr.coherent hx.words hc
      rw [Done, hm] at hd
      cases hd
    have hdrain (hm : m.val.completed = false) (hh : x.sys.holding p = true)
        (han : x.sys.announced p = true) : x.sys.comp.taken = false := by
      by_contra htk
      exact hmiss hm ((hi.drain (by simpa using htk)).holder p hh han)
    have hdone (hm : m.val.completed = true) : x.sys.slot.state.completed = true := by
      rw [← hx.word]
      exact hx.words.last_of_getElem? hr.mem hm
    cases p with
    | thread t =>
      have h : ThreadStep t e (Weak.present x.sys m.val) e' s' := h
      obtain ⟨rfl, k, heq, hk⟩ := h.load ha
      show (Weak.present s' x.sys.slot.state).Safe e'
      rw [heq]
      rcases hk with ⟨hm, hk⟩ | ⟨hm, hk⟩
      · exact hs.missThr hk fun hh => hdrain hm hh (hk.announced_of_holds hh)
      · exact hs.callStep (.thread t (hk (hdone hm)))
    | future f =>
      obtain ⟨rfl, h⟩ := h
      obtain ⟨k, y, heq, hk⟩ := h.load ha
      show (Weak.present s' x.sys.slot.state).Safe e'
      rw [heq]
      rcases hk with ⟨hm, hk⟩ | ⟨hm, hk⟩
      · have hf : f ∈ x.sys.futs := hs.records.mem f hk.active
        exact hs.missFut hk (hi.futures f hf (hmiss hm)) fun hh =>
          hdrain hm hh (hk.announced_of_holds hh)
      · exact hs.callStep (.future f rfl (hk (hdone hm)))
    | completer => exact absurd ha (CompPc.access_ne_load _ o)
  | loadPtr ha hr h => exact hs.loadPtr ha h
  | plain ha h => exact hs.callStep h.callStep
  | fetchOr ha h => exact hs.callStep h.callStep
  | casPtr_won ha hn h => exact hs.callStep h.callStep
  | casPtr_lost ha hr hm h => exact hs.callStep h.callStep
  | lock ha h => exact hs.callStep h.callStep
  | unlock ha h => exact hs.callStep h.callStep
  | setOutcome ha h => exact hs.callStep h.callStep
  | outcomeRef ha h => exact hs.callStep h.callStep
  | park_token hp ha h htok => exact hs.callStep h.callStep
  | park_spurious ha h => exact hs.callStep h.callStep
  | unpark ha h => exact hs.callStep h.callStep

namespace Weak.Inv

variable {f : FutId}

/-- A future that has missed the publication has its record complete. -/
theorem stepFuture (hi : x.Inv e) {s s' : SlotSys O W} (hpre : Presents p x x' s s')
    (hs : ProcStep p e s e' s') (hg : x.Grows x') (hf : f ∈ x'.sys.futs)
    (hmiss : ¬ x'.SeesDone (x'.view (.future f))) :
    Fut.Unseen (x'.sys.fpc f) (x'.sys.fut f) := by
  have hold : f ∈ x.sys.futs → Fut.Unseen (x.sys.fpc f) (x.sys.fut f) :=
    fun hf => hi.futures f hf fun hsees => hmiss (hg.seesDone hsees)
  rw [hpre.futs.2] at hf
  rw [hpre.fpc.2, hpre.fut.2]
  rw [← hpre.futs.1, ← hpre.fpc.1, ← hpre.fut.1] at hold
  cases p with
  | thread t =>
    have hfr := ThreadStep.frame hs
    rw [hfr.fpc, hfr.fut]
    exact hold (by rwa [hfr.futs] at hf)
  | future i =>
    have hfr := FutStep.frame hs.2
    rw [hfr.futs] at hf
    by_cases hif : f = i
    · subst hif
      apply FutStep.unseen hs.2 _ (hold hf)
      -- a load that finds `COMPLETED` puts it in view
      intro o ha
      by_contra hc
      have ha' : x.sys.access (.future f) = .load o := by
        rw [← (hpre.before _).2.2.2.2]
        exact ha
      exact hmiss (hpre.load o ha' (by simpa using hc))
    · rw [hfr.fpc f hif, hfr.fut f hif]
      exact hold hf
  | completer =>
    have hfr := CompStep.frame hs
    rw [hfr.fpc, hfr.fut]
    exact hold (by rwa [hfr.futs] at hf)

/-- A step in memory keeps the invariant. -/
theorem step (hi : x.Inv e) (h : WeakStep p e x e' x') : x'.Inv e' := by
  have hsafe' := h.safe hi
  have hg := h.grows
  obtain ⟨s, s', hs, hpre⟩ := h.presents hi.views
  have hacc : s.access p = x.sys.access p := (hpre.before p).2.2.2.2
  refine ⟨hsafe', h.views hi, ?wrote, ?publisher, ?seen, ?boxed, ?drain,
    fun f hf hmiss => hi.stepFuture hpre hs hg hf hmiss, ?unparked⟩
  case wrote =>
    intro hw
    rw [hpre.comp.2] at hw
    rcases hs.wrote hw with hold | ⟨rfl, ha⟩
    · rw [hpre.comp.1] at hold
      exact wrote_mono (hg.view .completer) (hi.wrote hold)
    · rw [hacc] at ha
      exact hpre.setOutcome ha
  case publisher =>
    intro hp
    have hc : x'.sys.slot.state.completed = true := by
      rw [hsafe'.wf.published.completed, hp]
    rw [hpre.comp.2] at hp
    rcases hs.published hp with hold | ⟨rfl, o, mask, ha⟩
    · rw [hpre.comp.1] at hold
      exact hg.seesDone (hi.publisher hold)
    · rw [hacc] at ha
      exact (hpre.fetchOr o mask ha).2.2 hc
  case seen =>
    intro q hq
    by_cases hqp : q = p
    · subst hqp
      exact (hpre.seen hs hq).elim (fun h => hg.seesDone (hi.seen q h)) id
    · rw [(hpre.other hs hqp).1] at hq
      exact hg.seesDone (hi.seen q hq)
  case boxed =>
    intro q hq
    by_cases hqp : q = p
    · subst hqp
      exact (hpre.boxed hs hq).elim (fun h => hg.seesBox (hi.boxed q h)) id
    · rw [(hpre.other hs hqp).2.2.2] at hq
      exact hg.seesBox (hi.boxed q hq)
  case drain =>
    intro htk'
    have hw := hi.safe.wf
    cases htk : x.sys.comp.taken with
    | false => exact Weak.Drain.start hw hpre hs htk htk'
    | true =>
      exact (hi.drain htk).step hw (hw.completed_of_taken htk)
        (hi.publisher (CompPc.published_of_taken htk)) hpre hs hg
  case unparked =>
    intro g t g' hn
    rw [hpre.notified.2] at hn
    rcases hs.unparks hn with hold | ⟨rfl, ha, hp⟩
    · rw [hpre.notified.1] at hold
      exact hg.seesToken (hi.unparked g t g' hold)
    · rw [hacc] at ha
      rw [hpre.comp.1] at hp
      exact (hg.done _ (hi.publisher hp)).mono (hpre.unpark t ha)

end Weak.Inv

/-! ## The rest of the program -/

/-- What the rest of the program does in memory is a move of the interleaved slot. -/
theorem OuterMove.slotMove {y y' : Env × SlotSys O W} (h : OuterMove y y') : SlotMove y y' := by
  cases h with
  | call t h c hidle hg => exact .call t h c hidle hg
  | intoFuture f hf hidle => exact .intoFuture f hf hidle
  | poll f w hf hrest => exact .poll f w hf hrest
  | cancel f hf hrest => exact .cancel f hf hrest
  | complete v hidle => exact .complete v hidle
  | unparkElsewhere t => exact .unparkElsewhere t
  | parkElsewhere t hidle => exact .parkElsewhere t hidle
  | tick n hn => exact .tick n hn

structure SlotSys.Started (s s' : SlotSys O W) : Prop where
  slot : s'.slot = s.slot
  held : s'.held = s.held
  notified : s'.notified = s.notified
  comp : s'.comp = s.comp ∨ s'.comp.wrote = false
  classes : ∀ p, (s'.seen p = true → s.seen p = true) ∧
    (s'.announced p = true → s.announced p = true) ∧
    (s'.holding p = true → s.holding p = true) ∧ (s'.boxed p = true → s.boxed p = true)
  futures : ∀ f ∈ s'.futs, Fut.Unseen (s'.fpc f) (s'.fut f) ∨
    (f ∈ s.futs ∧ (Fut.Unseen (s.fpc f) (s.fut f) → Fut.Unseen (s'.fpc f) (s'.fut f)))

omit [WillWake W] in
theorem SlotSys.classes_goThr {s : SlotSys O W} {t : Tid} {k : ThreadPc O W}
    (hk : k.seen = false ∧ k.announced = false ∧ k.boxed = false) (p : Proc) :
    ((s.goThr t k).seen p = true → s.seen p = true) ∧
      ((s.goThr t k).announced p = true → s.announced p = true) ∧
      ((s.goThr t k).holding p = true → s.holding p = true) ∧
      ((s.goThr t k).boxed p = true → s.boxed p = true) := by
  obtain ⟨hs, ha, hb⟩ := hk
  have hh : k.holds = false := by
    cases k <;> first | rfl | cases hb
  cases p with
  | thread u =>
    simp only [seen, announced, holding, boxed, goThr]
    by_cases hu : u = t
    · subst hu
      simp [hs, ha, hh, hb]
    · simp [hu]
  | _ => exact ⟨id, id, id, id⟩

omit [WillWake W] in
theorem SlotSys.classes_goFut {s : SlotSys O W} {f : FutId} {k : FutPc O W}
    (hk : k.seen = false ∧ k.announced = false ∧ k.boxed = false) (p : Proc) :
    ((s.goFut f k).seen p = true → s.seen p = true) ∧
      ((s.goFut f k).announced p = true → s.announced p = true) ∧
      ((s.goFut f k).holding p = true → s.holding p = true) ∧
      ((s.goFut f k).boxed p = true → s.boxed p = true) := by
  obtain ⟨hs, ha, hb⟩ := hk
  have hh : k.holds = false := by
    cases k <;> first | rfl | cases hb
  cases p with
  | future i =>
    simp only [seen, announced, holding, boxed, goFut]
    by_cases hi : i = f
    · subst hi
      simp [hs, ha, hh, hb]
    · simp [hi]
  | _ => exact ⟨id, id, id, id⟩

/-- What the rest of the program starts is in front of all its accesses. -/
theorem OuterMove.started {s s' : SlotSys O W} (h : OuterMove (e, s) (e', s')) :
    s.Started s' := by
  have hid (p : Proc) : (s.seen p = true → s.seen p = true) ∧
      (s.announced p = true → s.announced p = true) ∧
      (s.holding p = true → s.holding p = true) ∧ (s.boxed p = true → s.boxed p = true) :=
    ⟨id, id, id, id⟩
  have hsame (f : FutId) (hf : f ∈ s.futs) : Fut.Unseen (s.fpc f) (s.fut f) ∨
      (f ∈ s.futs ∧ (Fut.Unseen (s.fpc f) (s.fut f) → Fut.Unseen (s.fpc f) (s.fut f))) :=
    .inr ⟨hf, id⟩
  cases h with
  | unparkElsewhere t => exact ⟨rfl, rfl, rfl, .inl rfl, hid, hsame⟩
  | parkElsewhere t hidle => exact ⟨rfl, rfl, rfl, .inl rfl, hid, hsame⟩
  | tick n hn => exact ⟨rfl, rfl, rfl, .inl rfl, hid, hsame⟩
  | call t h c hidle hg =>
    refine ⟨rfl, rfl, rfl, .inl rfl, SlotSys.classes_goThr (t := t) (k := c.entry) ?_, hsame⟩
    cases c <;> exact ⟨rfl, rfl, rfl⟩
  | intoFuture f hf hidle =>
    refine ⟨rfl, rfl, rfl, .inl rfl, SlotSys.classes_goFut (f := f) (k := .idle) ⟨rfl, rfl, rfl⟩,
      fun i hi => ?_⟩
    by_cases hif : i = f
    · -- a future that has never been polled has registered nothing
      subst hif
      refine .inl ⟨fun a ha => ?_, fun w hw => ?_⟩
      · simp [SlotSys.newFuture] at ha
      · simp [SlotSys.newFuture, FutPc.unrecorded] at hw
    · have hi' : i ∈ s.futs := (Finset.mem_insert.mp hi).resolve_left hif
      simp only [SlotSys.newFuture, Function.update_of_ne hif]
      exact hsame i hi'
  | poll f w hf hrest =>
    refine ⟨rfl, rfl, rfl, .inl rfl,
      SlotSys.classes_goFut (f := f) (k := .poll w) ⟨rfl, rfl, rfl⟩, fun i hi => .inr ⟨hi, ?_⟩⟩
    by_cases hif : i = f
    · subst hif
      simp only [SlotSys.startPoll, SlotSys.goFut, Function.update_self]
      exact fun hu => hu.complete (FutPc.unrecorded_of_resting hrest) rfl
    · simp [SlotSys.startPoll, hif]
  | cancel f hf hrest =>
    unfold SlotSys.startCancel
    split
    · refine ⟨rfl, rfl, rfl, .inl rfl,
        SlotSys.classes_goFut (f := f) (k := .dead) ⟨rfl, rfl, rfl⟩, fun i hi => .inr ⟨hi, ?_⟩⟩
      by_cases hif : i = f
      · subst hif
        simp only [SlotSys.goFut, SlotSys.setFut, Function.update_self]
        intro hu
        have hnext := hu.complete (k := .dead) (FutPc.unrecorded_of_resting hrest) rfl
        exact ⟨hnext.kept, hnext.settled⟩
      · simp [hif]
    · refine ⟨rfl, rfl, rfl, .inl rfl,
        SlotSys.classes_goFut (f := f) (k := .loadReg .cancel) ⟨rfl, rfl, rfl⟩,
        fun i hi => .inr ⟨hi, ?_⟩⟩
      by_cases hif : i = f
      · subst hif
        simp only [SlotSys.goFut, Function.update_self]
        exact fun hu => hu.complete (FutPc.unrecorded_of_resting hrest) rfl
      · simp [hif]
  | complete v hidle =>
    refine ⟨rfl, rfl, rfl, .inr rfl, fun p => ?_, hsame⟩
    cases p with
    | completer => simp [SlotSys.seen, SlotSys.announced, SlotSys.holding, SlotSys.boxed,
        SlotSys.startComplete, CompPc.holds, CompPc.boxed]
    | _ => exact ⟨id, id, id, id⟩

namespace Weak.Inv

/-- Somebody learns what somebody else knows. -/
theorem sync (hi : x.Inv e) (p q : Proc) : (x.look q (x.view q ⊔ x.view p)).Inv e := by
  have hg : x.Grows (x.look q (x.view q ⊔ x.view p)) :=
    ⟨fun _ => id, fun _ => id, Weak.le_update_view le_sup_left, le_rfl, fun _ => le_rfl⟩
  refine ⟨hi.safe, hi.views.look ((hi.views.view q).sup (hi.views.view p)),
    fun hw => wrote_mono (hg.view .completer) (hi.wrote hw),
    fun hp => hg.seesDone (hi.publisher hp), fun r hr => hg.seesDone (hi.seen r hr),
    fun r hr => hg.seesBox (hi.boxed r hr), fun htk => ?drain,
    fun f hf hmiss => hi.futures f hf fun hs => hmiss (hg.seesDone hs),
    fun g t g' hn => hg.seesToken (hi.unparked g t g' hn)⟩
  case drain =>
    refine ⟨fun r hh ha => hg.seesDone ((hi.drain htk).holder r hh ha), ?_⟩
    rcases (hi.drain htk).entering with hall | hheld | hguard
    · exact .inl fun r ha => hg.seesDone (hall r ha)
    · exact .inr (.inl hheld)
    · exact .inr (.inr (hg.seesGuard hguard))

/-- A call starts, or the environment moves. -/
theorem outer (hi : x.Inv e) {s' : SlotSys O W} (h : OuterMove (e, x.sys) (e', s')) :
    ({ x with sys := s' } : Weak O W).Inv e' := by
  have hst := h.started
  have hcomp (P : CompPc O W → Bool) (hP : ∀ c : CompPc O W, P c = true → c.wrote = true)
      (h : P s'.comp = true) : P x.sys.comp = true := by
    rcases hst.comp with heq | hno
    · rwa [← heq]
    · rw [hP _ h] at hno
      cases hno
  have hpub (c : CompPc O W) (h : c.published = true) : c.wrote = true := by
    cases c <;> first | rfl | cases h
  have htaken (c : CompPc O W) (h : c.taken = true) : c.wrote = true :=
    hpub c (CompPc.published_of_taken h)
  refine ⟨hi.safe.move h.slotMove, hi.views.ofSys (by rw [hst.slot]) (by rw [hst.slot]),
    fun h => hi.wrote (hcomp _ (fun _ => id) h), fun h => hi.publisher (hcomp _ hpub h),
    fun p h => hi.seen p ((hst.classes p).1 h), fun p h => hi.boxed p ((hst.classes p).2.2.2 h),
    fun htk => ?drain, fun f hf hmiss => ?futures, fun g t g' hn => ?unparked⟩
  case drain =>
    have hd := hi.drain (hcomp _ htaken htk)
    refine ⟨fun p hh ha => hd.holder p ((hst.classes p).2.2.1 hh) ((hst.classes p).2.1 ha), ?_⟩
    rcases hd.entering with hall | hheld | hguard
    · exact .inl fun p ha => hall p ((hst.classes p).2.1 ha)
    · exact .inr (.inl (by rw [← hheld]; exact hst.held))
    · exact .inr (.inr hguard)
  case futures =>
    rcases hst.futures f hf with hnew | ⟨hold, hkeep⟩
    · exact hnew
    · exact hkeep (hi.futures f hold hmiss)
  case unparked =>
    exact hi.unparked g t g' (by rw [← hst.notified]; exact hn)

theorem fresh (e : Env) (g : Gen) : (Weak.fresh g : Weak O W).Inv e := by
  have hknows : (Weak.fresh g : Weak O W).Knows ⊥ :=
    ⟨History.Informed.init (by simp [StateWord.zero]), History.Informed.init (by simp)⟩
  have hmsg {V : Type} {a : V} (m : Message Loc V)
      (hm : m ∈ (History.init a : History Loc V).messages) :
      (Weak.fresh g : Weak O W).Knows m.view := by
    have hm' : m = ⟨a, ⊥⟩ := by simpa using hm
    rw [hm']
    exact hknows
  refine ⟨SlotSys.Safe.fresh e g,
    ⟨rfl, rfl, History.Publishes.init (by simp [StateWord.zero]),
      History.Publishes.init (by simp), hmsg, hmsg, hknows, fun _ => hknows, hknows,
      fun _ => hknows⟩, fun h => ?_, fun h => ?_, fun p h => ?_, fun p h => ?_, fun h => ?_,
    fun f hf => ?_, fun g t g' hn => ?_⟩
  · cases h
  · cases h
  · cases p <;> cases h
  · cases p <;> cases h
  · cases h
  · cases hf
  · cases hn

/-- Every move in memory keeps the invariant. -/
theorem move {y y' : Env × Weak O W} (hi : y.2.Inv y.1) (h : WeakMove y y') : y'.2.Inv y'.1 := by
  cases h with
  | step p h => exact hi.step h
  | outer h => exact hi.outer h
  | sync p q => exact hi.sync p q

end Weak.Inv

end Steps

/-- Every reachable state of a generation in memory meets the invariant. -/
theorem weakSystem_inv [WillWake W] {y : Env × Weak O W} (h : (weakSystem O W).Reachable y) :
    y.2.Inv y.1 := by
  have hind : (weakSystem O W).Inductive fun y => y.2.Inv y.1 :=
    ⟨fun y ⟨g, hy⟩ => hy ▸ Weak.Inv.fresh y.1 g, fun _ _ => Weak.Inv.move⟩
  exact hind.reachable h

end Observe
