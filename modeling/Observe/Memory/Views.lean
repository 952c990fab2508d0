import Observe.Memory.Stale

/-!
# What the calls know

The views of a slot's calls against their program counters: whoever may touch the outcome cell or
the registry's box has the write of it in view, and whoever rechecks behind the drain has the
publication in view.
-/

namespace Observe

open Lib

variable {O W : Type}

/-! ## Classes of program counters -/

def ThreadPc.boxed : ThreadPc O W → Bool
  | .acquire _ => true
  | k => k.holds

def FutPc.boxed : FutPc O W → Bool
  | .acquire _ => true
  | k => k.holds

def CompPc.boxed : CompPc O W → Bool
  | .acquire _ => true
  | k => k.holds

def CompPc.wrote : CompPc O W → Bool
  | .idle | .write .. => false
  | _ => true

namespace SlotSys

def seen (s : SlotSys O W) : Proc → Bool
  | .thread t => (s.thr t).seen
  | .future f => (s.fpc f).seen
  | .completer => false

def announced (s : SlotSys O W) : Proc → Bool
  | .thread t => (s.thr t).announced
  | .future f => (s.fpc f).announced
  | .completer => false

def holding (s : SlotSys O W) : Proc → Bool
  | .thread t => (s.thr t).holds
  | .future f => (s.fpc f).holds
  | .completer => s.comp.holds

def boxed (s : SlotSys O W) : Proc → Bool
  | .thread t => (s.thr t).boxed
  | .future f => (s.fpc f).boxed
  | .completer => s.comp.boxed

def Stays (s s' : SlotSys O W) : Proc → Prop
  | .thread t => s'.thr t = s.thr t
  | .future f => s'.fpc f = s.fpc f
  | .completer => s'.comp = s.comp

/-- A call that stays where it is keeps its place in the protocol. -/
theorem Stays.classes {s s' : SlotSys O W} {p : Proc} (h : s.Stays s' p) :
    s'.seen p = s.seen p ∧ s'.announced p = s.announced p ∧ s'.holding p = s.holding p ∧
      s'.boxed p = s.boxed p := by
  cases p with
  | thread t =>
    have ht : s'.thr t = s.thr t := h
    simp [seen, announced, holding, boxed, ht]
  | future f =>
    have hf : s'.fpc f = s.fpc f := h
    simp [seen, announced, holding, boxed, hf]
  | completer =>
    have hc : s'.comp = s.comp := h
    simp [seen, announced, holding, boxed, hc]

/-- Whoever holds the mutex is the one that the mutex names. -/
theorem Mutex.holding {s : SlotSys O W} (hm : s.Mutex) (p : Proc) :
    s.holding p = true ↔ s.held = some p := by
  cases p with
  | thread t => exact hm.thr t
  | future f => exact hm.fut f
  | completer => exact hm.comp

end SlotSys

/-! ## What a step of one process changes -/

section Steps

variable [WillWake W] {p q : Proc} {e e' : Env} {s s' : SlotSys O W}

/-- A step of one call leaves the others where they are. -/
theorem ProcStep.other (h : ProcStep p e s e' s') (hq : q ≠ p) : s.Stays s' q := by
  cases p with
  | thread t =>
    have hfr := ThreadStep.frame h
    cases q with
    | thread u => exact hfr.thr u (by simpa using hq)
    | future f => exact congrFun hfr.fpc f
    | completer => exact hfr.comp
  | future f =>
    have hfr := FutStep.frame h.2
    cases q with
    | thread u => exact congrFun hfr.thr u
    | future i => exact hfr.fpc i (by simpa using hq)
    | completer => exact hfr.comp
  | completer =>
    have hfr := CompStep.frame h
    cases q with
    | thread u => exact congrFun hfr.thr u
    | future f => exact congrFun hfr.fpc f
    | completer => exact absurd rfl hq

/-- Only a load gets to the cell. -/
theorem ProcStep.seen (h : ProcStep p e s e' s') (hs : s'.seen p = true) :
    s.seen p = true ∨ s.slot.state.completed = true ∧ ∃ o, s.access p = .load o := by
  cases p with
  | thread t =>
    have h : ThreadStep t e s e' s' := h
    simp only [SlotSys.seen, SlotSys.access] at hs ⊢
    cases h <;> simp_all [ThreadPc.seen, ThreadPc.access]
  | future f =>
    have h : FutStep f s s' := h.2
    simp only [SlotSys.seen, SlotSys.access] at hs ⊢
    cases h <;> simp_all [FutPc.seen, FutPc.access]
  | completer => cases hs

/-- Only `fetch_or` announces a waiter. -/
theorem ProcStep.announced (h : ProcStep p e s e' s') (hs : s'.announced p = true) :
    s.announced p = true ∨
      (∃ o mask, s.access p = .fetchOr o mask) ∧ s'.holding p = false := by
  cases p with
  | thread t =>
    have h : ThreadStep t e s e' s' := h
    simp only [SlotSys.announced, SlotSys.access, SlotSys.holding] at hs ⊢
    cases h <;> simp_all [ThreadPc.announced, ThreadPc.access, ThreadPc.holds]
  | future f =>
    have h : FutStep f s s' := h.2
    simp only [SlotSys.announced, SlotSys.access, SlotSys.holding] at hs ⊢
    cases h with
    | @loadReg_null c hpc => cases c <;> simp_all [FutPc.announced]
    | @loadReg_some c hpc => cases c <;> simp_all [FutPc.announced]
    | @casReg c hpc => cases c <;> simp_all [FutPc.announced]
    | _ => simp_all [FutPc.announced, FutPc.access, FutPc.holds]
  | completer => cases hs

/-- Only `lock` takes the mutex, and it needs it free. -/
theorem ProcStep.holding (h : ProcStep p e s e' s') (hs : s'.holding p = true) :
    s.holding p = true ∨ s.access p = .lock ∧ s.held = none := by
  cases p with
  | thread t =>
    have h : ThreadStep t e s e' s' := h
    simp only [SlotSys.holding, SlotSys.access] at hs ⊢
    cases h <;> simp_all [ThreadPc.holds, ThreadPc.access]
  | future f =>
    have h : FutStep f s s' := h.2
    simp only [SlotSys.holding, SlotSys.access] at hs ⊢
    cases h <;> simp_all [FutPc.holds, FutPc.access]
  | completer =>
    have h : CompStep e s e' s' := h
    simp only [SlotSys.holding, SlotSys.access] at hs ⊢
    cases h <;> simp_all [CompPc.holds, CompPc.access]

/-- Whoever gets to the registry has its pointer. -/
theorem ProcStep.boxed (h : ProcStep p e s e' s') (hs : s'.boxed p = true) :
    s.boxed p = true ∨ (s.slot.waiters ≠ none ∧ ∃ o, s.access p = .loadPtr o) ∨
      ∃ o o', s.access p = .casPtr o o' := by
  cases p with
  | thread t =>
    have h : ThreadStep t e s e' s' := h
    simp only [SlotSys.boxed, SlotSys.access] at hs ⊢
    cases h <;> simp_all [ThreadPc.boxed, ThreadPc.holds, ThreadPc.access]
  | future f =>
    have h : FutStep f s s' := h.2
    simp only [SlotSys.boxed, SlotSys.access] at hs ⊢
    cases h <;> simp_all [FutPc.boxed, FutPc.holds, FutPc.access]
  | completer =>
    have h : CompStep e s e' s' := h
    simp only [SlotSys.boxed, SlotSys.access] at hs ⊢
    cases h <;> simp_all [CompPc.boxed, CompPc.holds, CompPc.access]

/-- A call that takes the mutex has announced itself before. -/
theorem SlotSys.announced_of_access (hl : s.access p = .lock) (h : ProcStep p e s e' s')
    (ha : s'.announced p = true) : s.announced p = true := by
  rcases h.announced ha with hold | ⟨⟨o, mask, hf⟩, -⟩
  · exact hold
  · rw [hl] at hf
    cases hf

/-- The completion gets behind the drain through the registry, or by its `fetch_or`. -/
theorem ProcStep.taken (h : ProcStep p e s e' s') (ht : s'.comp.taken = true) :
    s.comp.taken = true ∨ (∃ g, s.comp = .take g) ∨
      (∃ o mask, s.access p = .fetchOr o mask) ∧ s.slot.state.hasWaiter = false := by
  cases p with
  | thread t =>
    rw [(ThreadStep.frame h).comp] at ht
    exact .inl ht
  | future f =>
    rw [(FutStep.frame h.2).comp] at ht
    exact .inl ht
  | completer =>
    have h : CompStep e s e' s' := h
    simp only [SlotSys.access]
    cases h <;> simp_all [CompPc.taken, CompPc.access]

/-- Nobody but the completion gives back a mutex that the completion holds. -/
theorem ProcStep.held_completer (h : ProcStep p e s e' s')
    (hm : ∀ q, s.holding q = true → s.held = some q) (hheld : s.held = some .completer) :
    s'.held = some .completer ∨ (p = .completer ∧ s.access p = .unlock) := by
  have hother (q : Proc) (hq : q ≠ .completer) : s.holding q ≠ true := by
    intro hh
    have hq' := hm q hh
    rw [hheld, Option.some.injEq] at hq'
    exact hq hq'.symm
  cases p with
  | thread t =>
    rcases ThreadStep.held h with heq | ⟨hfree, -⟩ | ⟨hh, -⟩
    · rw [heq]
      exact .inl hheld
    · rw [hheld] at hfree
      cases hfree
    · exact absurd hh (hother (.thread t) (by simp))
  | future f =>
    rcases FutStep.held h.2 with heq | ⟨hfree, -⟩ | ⟨hh, -⟩
    · rw [heq]
      exact .inl hheld
    · rw [hheld] at hfree
      cases hfree
    · exact absurd hh (hother (.future f) (by simp))
  | completer =>
    have h : CompStep e s e' s' := h
    simp only [SlotSys.access]
    cases h <;> simp_all [CompPc.access]

/-- The cell is written by the completion alone. -/
theorem ProcStep.wrote (h : ProcStep p e s e' s') (hw : s'.comp.wrote = true) :
    s.comp.wrote = true ∨ (p = .completer ∧ s.access p = .setOutcome) := by
  cases p with
  | thread t =>
    rw [(ThreadStep.frame h).comp] at hw
    exact .inl hw
  | future f =>
    rw [(FutStep.frame h.2).comp] at hw
    exact .inl hw
  | completer =>
    have h : CompStep e s e' s' := h
    simp only [SlotSys.access]
    cases h <;> simp_all [CompPc.wrote, CompPc.access]

/-- The bit is set by the completion's `fetch_or` alone. -/
theorem ProcStep.published (h : ProcStep p e s e' s') (hp : s'.comp.published = true) :
    s.comp.published = true ∨ (p = .completer ∧ ∃ o mask, s.access p = .fetchOr o mask) := by
  cases p with
  | thread t =>
    rw [(ThreadStep.frame h).comp] at hp
    exact .inl hp
  | future f =>
    rw [(FutStep.frame h.2).comp] at hp
    exact .inl hp
  | completer =>
    have h : CompStep e s e' s' := h
    simp only [SlotSys.access]
    cases h <;> simp_all [CompPc.published, CompPc.access]

/-- A thread is notified by `unpark`, and by the completion. -/
theorem ProcStep.unparks (h : ProcStep p e s e' s') {g g' : Gen} {t : Tid}
    (hn : (g, Waiter.thread t g') ∈ s'.notified) :
    (g, Waiter.thread t g') ∈ s.notified ∨
      (p = .completer ∧ s.access p = .unpark t ∧ s.comp.published = true) := by
  cases p with
  | thread u =>
    rw [(ThreadStep.frame h).notified] at hn
    exact .inl hn
  | future f =>
    rw [(FutStep.frame h.2).notified] at hn
    exact .inl hn
  | completer =>
    have h : CompStep e s e' s' := h
    simp only [SlotSys.access]
    cases h with
    | @unpark g₀ t₀ g₁ ws b hpc =>
      simp only [SlotSys.goComp, SlotSys.noteNotified, List.mem_cons, Prod.mk.injEq,
        Waiter.thread.injEq] at hn
      rcases hn with ⟨-, rfl, -⟩ | hn
      · exact .inr ⟨trivial, by rw [hpc]; rfl, by rw [hpc]; rfl⟩
      · exact .inl hn
    | wake panics hpc =>
      simp only [SlotSys.goComp, SlotSys.noteNotified, List.mem_cons, Prod.mk.injEq, reduceCtorEq,
        and_false, false_or] at hn
      exact .inl hn
    | _ => exact .inl hn

/-- The newest word after a step. -/
theorem ProcStep.state (h : ProcStep p e s e' s') :
    s'.slot.state = match s.access p with
      | .fetchOr _ mask => s.slot.state.fetchOr mask
      | _ => s.slot.state := by
  cases p with
  | thread t =>
    have h : ThreadStep t e s e' s' := h
    simp only [SlotSys.access]
    cases h <;> simp_all [ThreadPc.access, StateWord.announce]
  | future f =>
    have h : FutStep f s s' := h.2
    simp only [SlotSys.access]
    cases h <;> simp_all [FutPc.access, StateWord.announce]
  | completer =>
    have h : CompStep e s e' s' := h
    simp only [SlotSys.access]
    cases h <;> simp_all [CompPc.access, StateWord.publish, Slot.setOutcome]

/-- Only the compare-exchange sets the pointer; the holder of the mutex has found it set. -/
theorem ProcStep.pointer (h : ProcStep p e s e' s')
    (hb : s.holding p = true → s.slot.waiters.isSome = true) :
    s'.slot.waiters.isSome = match s.access p with
      | .casPtr .. => true
      | _ => s.slot.waiters.isSome := by
  cases p with
  | thread t =>
    have h : ThreadStep t e s e' s' := h
    simp only [SlotSys.access, SlotSys.holding] at hb ⊢
    cases h <;> simp_all [ThreadPc.access, ThreadPc.holds]
  | future f =>
    have h : FutStep f s s' := h.2
    simp only [SlotSys.access, SlotSys.holding] at hb ⊢
    cases h <;> simp_all [FutPc.access, FutPc.holds]
  | completer =>
    have h : CompStep e s e' s' := h
    simp only [SlotSys.access, SlotSys.holding] at hb ⊢
    cases h <;> simp_all [CompPc.access, CompPc.holds, Slot.setOutcome]

/-- A load of the pointer moves the call only. -/
theorem ProcStep.slot_of_loadPtr {o : MemOrder} (h : ProcStep p e s e' s')
    (ha : s.access p = .loadPtr o) : s'.slot = s.slot := by
  cases p with
  | thread t =>
    have h : ThreadStep t e s e' s' := h
    simp only [SlotSys.access] at ha
    cases h <;> simp_all [ThreadPc.access]
  | future f =>
    have h : FutStep f s s' := h.2
    simp only [SlotSys.access] at ha
    cases h <;> simp_all [FutPc.access]
  | completer =>
    have h : CompStep e s e' s' := h
    simp only [SlotSys.access] at ha
    cases h <;> simp_all [CompPc.access]

/-- A step of one call is a step of the slot. -/
theorem ProcStep.callStep (h : ProcStep p e s e' s') : CallStep e s e' s' := by
  cases p with
  | thread t => exact .thread t h
  | future f => exact .future f h.1 h.2
  | completer => exact .complete h

/-- A step of the slot is one of some call. -/
theorem CallStep.procStep (h : CallStep e s e' s') :
    ∃ p, ProcStep p e s e' s' := by
  cases h with
  | thread t h => exact ⟨.thread t, h⟩
  | future f he h => exact ⟨.future f, he, h⟩
  | complete h => exact ⟨.completer, h⟩

omit [WillWake W] in
/-- Whoever holds the mutex has the box. -/
theorem SlotSys.boxed_of_holding (h : s.holding p = true) : s.boxed p = true := by
  cases p with
  | thread t =>
    simp only [SlotSys.holding, SlotSys.boxed] at h ⊢
    cases hk : s.thr t <;> rw [hk] at h <;> first | rfl | cases h
  | future f =>
    simp only [SlotSys.holding, SlotSys.boxed] at h ⊢
    cases hk : s.fpc f <;> rw [hk] at h <;> first | rfl | cases h
  | completer =>
    simp only [SlotSys.holding, SlotSys.boxed] at h ⊢
    cases hk : s.comp <;> rw [hk] at h <;> first | rfl | cases h

omit [WillWake W] in
/-- Every load of the slot acquires. -/
theorem SlotSys.acquires {o : MemOrder}
    (ha : s.access p = .load o ∨ s.access p = .loadPtr o ∨ ∃ o', s.access p = .casPtr o' o) :
    o.acquires = true := by
  cases p with
  | thread t =>
    simp only [SlotSys.access] at ha
    cases hk : s.thr t <;> simp_all [ThreadPc.access] <;> subst ha <;> rfl
  | future f =>
    simp only [SlotSys.access] at ha
    cases hk : s.fpc f <;> simp_all [FutPc.access] <;> subst ha <;> rfl
  | completer =>
    simp only [SlotSys.access] at ha
    cases hk : s.comp with
    | notify g ws b =>
      rw [hk] at ha
      cases ws with
      | nil => simp [CompPc.access] at ha
      | cons y ws => cases y <;> simp [CompPc.access] at ha
    | _ => simp_all [CompPc.access] <;> subst ha <;> rfl

omit [WillWake W] in
/-- The completion never looks at the state word by a load. -/
theorem CompPc.access_ne_load (c : CompPc O W) (o : MemOrder) : c.access ≠ .load o := by
  cases c with
  | notify g ws b =>
    cases ws with
    | nil => simp [CompPc.access]
    | cons y ws => cases y <;> simp [CompPc.access]
  | _ => simp [CompPc.access]

omit [WillWake W] in
/-- The compare-exchange of the registry's box releases. -/
theorem SlotSys.releases {o o' : MemOrder} (ha : s.access p = .casPtr o o') :
    o.releases = true := by
  cases p with
  | thread t =>
    simp only [SlotSys.access] at ha
    cases hk : s.thr t <;> rw [hk] at ha <;> cases ha
    rfl
  | future f =>
    simp only [SlotSys.access] at ha
    cases hk : s.fpc f <;> rw [hk] at ha <;> cases ha
    rfl
  | completer =>
    simp only [SlotSys.access] at ha
    cases hk : s.comp with
    | casReg g =>
      rw [hk] at ha
      cases ha
      rfl
    | notify g ws b =>
      rw [hk] at ha
      cases ws with
      | nil => cases ha
      | cons y ws => cases y <;> cases ha
    | _ => rw [hk] at ha; cases ha

omit [WillWake W] in
/-- The two `fetch_or`s on the state word. -/
theorem SlotSys.fetchOr_cases {o : MemOrder} {mask : StateWord}
    (ha : s.access p = .fetchOr o mask) :
    (o = .seqCst ∧ mask = .HAS_WAITER ∧ p ≠ .completer) ∨
      (o = .release ∧ p = .completer ∧ s.comp.wrote = true) := by
  cases p with
  | thread t =>
    simp only [SlotSys.access] at ha
    cases hk : s.thr t <;> rw [hk] at ha <;> cases ha
    exact .inl ⟨rfl, rfl, by simp⟩
  | future f =>
    simp only [SlotSys.access] at ha
    cases hk : s.fpc f <;> rw [hk] at ha <;> cases ha
    exact .inl ⟨rfl, rfl, by simp⟩
  | completer =>
    simp only [SlotSys.access] at ha
    cases hk : s.comp with
    | publish g v =>
      rw [hk] at ha
      cases ha
      exact .inr ⟨rfl, rfl, rfl⟩
    | notify g ws b =>
      rw [hk] at ha
      cases ws with
      | nil => cases ha
      | cons x ws => cases x <;> cases ha
    | _ => rw [hk] at ha; cases ha

end Steps

/-! ## Informed views -/

abbrev Done (b : StateWord) : Prop := b.completed = true

def Wrote (v : View Loc) : Prop := 1 ≤ v .outcome

def Boxed (v : View Loc) : Prop := 1 ≤ v .box

theorem wrote_mono : Monotone Wrote := fun _ _ hle hv => le_trans hv (hle .outcome)

theorem boxed_mono : Monotone Boxed := fun _ _ hle hv => le_trans hv (hle .box)

/-- Who sees the publication knows the outcome, and who sees the pointer knows its box. -/
structure Informed (words : History Loc StateWord) (boxes : History Loc Bool) (v : View Loc) :
    Prop where
  word : words.Informed .state Done Wrote v
  box : boxes.Informed .waiters (· = true) Boxed v

namespace Weak

abbrev SeesDone (x : Weak O W) (v : View Loc) : Prop := x.words.Sees .state Done v

/-- The pointer is in view as it was published. -/
abbrev SeesBox (x : Weak O W) (v : View Loc) : Prop := x.boxes.Sees .waiters (· = true) v

abbrev Knows (x : Weak O W) (v : View Loc) : Prop := Informed x.words x.boxes v

structure Views (x : Weak O W) : Prop where
  word : x.words.last.val = x.sys.slot.state
  box : x.boxes.last.val = x.sys.slot.waiters.isSome
  words : x.words.Publishes .state Done Wrote
  boxes : x.boxes.Publishes .waiters (· = true) Boxed
  wordViews : ∀ m ∈ x.words.messages, x.Knows m.view
  boxViews : ∀ m ∈ x.boxes.messages, x.Knows m.view
  bot : x.Knows ⊥
  view : ∀ p, x.Knows (x.view p)
  guard : x.Knows x.guard
  token : ∀ t, x.Knows (x.token t)

variable {x x' : Weak O W} {v w : View Loc} {p : Proc} {o : MemOrder} {i : Nat}

namespace Knows

/-- What two know, they know together. -/
theorem sup (hv : x.Knows v) (hw : x.Knows w) : x.Knows (v ⊔ w) :=
  ⟨hv.word.sup wrote_mono hw.word, hv.box.sup boxed_mono hw.box⟩

/-- An acquire load of the state word keeps its reader informed. -/
theorem learnWord {m : Message Loc StateWord} (hx : x.Views) (hv : x.Knows v)
    (hr : x.words.Reads .state v i m) (ho : o.acquires = true) :
    x.Knows (v.learn .state i o m) :=
  ⟨hv.word.learn wrote_mono hx.words hr ho,
    hv.box.learn_of_ne boxed_mono (hx.wordViews m hr.message).box (by simp)⟩

/-- An acquire load of the pointer keeps its reader informed. -/
theorem learnBox {m : Message Loc Bool} (hx : x.Views) (hv : x.Knows v)
    (hr : x.boxes.Reads .waiters v i m) (ho : o.acquires = true) :
    x.Knows (v.learn .waiters i o m) :=
  ⟨hv.word.learn_of_ne wrote_mono (hx.boxViews m hr.message).word (by simp),
    hv.box.learn boxed_mono hx.boxes hr ho⟩

/-- A write of plain memory keeps its writer informed. -/
theorem write {l : Loc} (hv : x.Knows v) (hs : Loc.state ≠ l) (hw : Loc.waiters ≠ l) :
    x.Knows (v.write l) :=
  ⟨hv.word.of_le wrote_mono (v.le_write l) (v.write_of_ne hs),
    hv.box.of_le boxed_mono (v.le_write l) (v.write_of_ne hw)⟩

end Knows

namespace Views

/-- What is seen to be published is published. -/
theorem completed_of_sees (hx : x.Views) (hs : x.SeesDone v) :
    x.sys.slot.state.completed = true := by
  rw [← hx.word]
  exact hs.last hx.words

/-- A pointer that is seen is set. -/
theorem waiters_of_sees (hx : x.Views) (hs : x.SeesBox v) : x.sys.slot.waiters.isSome = true := by
  rw [← hx.box]
  exact hs.last hx.boxes

/-- A step that leaves both words alone. -/
theorem ofSys (hx : x.Views) {s' : SlotSys O W} (hstate : s'.slot.state = x.sys.slot.state)
    (hptr : s'.slot.waiters.isSome = x.sys.slot.waiters.isSome) :
    ({ x with sys := s' } : Weak O W).Views :=
  ⟨hx.word.trans hstate.symm, hx.box.trans hptr.symm, hx.words, hx.boxes, hx.wordViews,
    hx.boxViews, hx.bot, hx.view, hx.guard, hx.token⟩

/-- Looking keeps the views in order. -/
theorem look (hx : x.Views) (hv : x.Knows v) : (x.look p v).Views := by
  refine ⟨hx.word, hx.box, hx.words, hx.boxes, hx.wordViews, hx.boxViews, hx.bot, fun q => ?_, hx.guard,
    hx.token⟩
  show x.Knows (Function.update x.view p v q)
  by_cases hq : q = p
  · subst hq
    simpa using hv
  · simpa [hq] using hx.view q

theorem release (hx : x.Views) (hv : x.Knows v) : ({ x with guard := v } : Weak O W).Views :=
  ⟨hx.word, hx.box, hx.words, hx.boxes, hx.wordViews, hx.boxViews, hx.bot, hx.view, hv, hx.token⟩

theorem hand (hx : x.Views) (t : Tid) (hv : x.Knows v) :
    ({ x with token := Function.update x.token t v } : Weak O W).Views := by
  refine ⟨hx.word, hx.box, hx.words, hx.boxes, hx.wordViews, hx.boxViews, hx.bot, hx.view,
    hx.guard, fun u => ?_⟩
  show x.Knows (Function.update x.token t v u)
  by_cases hu : u = t
  · subst hu
    simpa using hv
  · simpa [hu] using hx.token u

/-- A `fetch_or` that finds `COMPLETED` acquires it, and one that sets it releases the outcome. -/
theorem fetchOr (hx : x.Views) {s' : SlotSys O W} {mask : StateWord}
    (hstate : s'.slot.state = x.sys.slot.state.fetchOr mask)
    (hptr : s'.slot.waiters.isSome = x.sys.slot.waiters.isSome)
    (hnew : Done (x.sys.slot.state.fetchOr mask) →
      (o.acquires = true ∧ x.sys.slot.state.completed = true) ∨
        (o.releases = true ∧ Wrote (x.view p))) :
    (({ x with
        sys := s'
        words := x.words.rmw .state o (·.fetchOr mask) (x.view p) } : Weak O W).look p
      (x.words.rmwView .state o (x.view p))).Views := by
  have hkeep (a : StateWord) (ha : Done a) : Done (a.fetchOr mask) := by
    simp only [Done, StateWord.fetchOr] at ha ⊢
    rw [ha, Bool.true_or]
  have hmine := (hx.view p).word
  rw [← hx.word] at hnew
  have hrel : Done (x.words.last.val.fetchOr mask) →
      Done x.words.last.val ∨ (o.releases = true ∧ Wrote (x.view p)) :=
    fun h => (hnew h).imp_left And.right
  have hacq : Done (x.words.last.val.fetchOr mask) →
      Wrote (x.view p) ∨ (o.acquires = true ∧ Done x.words.last.val) :=
    fun h => (hnew h).symm.imp_left And.right
  let y : Weak O W :=
    { x with sys := s', words := x.words.rmw .state o (·.fetchOr mask) (x.view p) }
  have hold (v : View Loc) (hv : x.Knows v) : y.Knows v := ⟨hv.word.rmw o (·.fetchOr mask) (x.view p), hv.box⟩
  have hview : y.Knows (x.words.rmwView .state o (x.view p)) :=
    ⟨hmine.rmwView wrote_mono hx.words hkeep hacq,
      (hx.view p).box.learn_of_ne boxed_mono (hx.wordViews _ History.last_mem).box (by simp)⟩
  have hy : y.Views := by
    refine ⟨?_, hx.box.trans hptr.symm, hx.words.rmw wrote_mono hmine hkeep hrel, hx.boxes, ?_,
      fun m hm => hold _ (hx.boxViews m hm), hold _ hx.bot, fun q => hold _ (hx.view q), hold _ hx.guard,
      fun t => hold _ (hx.token t)⟩
    · show x.words.last.val.fetchOr mask = s'.slot.state
      rw [hstate, hx.word]
    · exact History.views_rmw (fun v w => Knows.sup) (fun m hm => hold _ (hx.wordViews m hm))
        (hold _ hx.bot) hview
  exact hy.look hview

/-- The winner of the compare-exchange releases the box that it has filled. -/
theorem casPtr (hx : x.Views) {s' : SlotSys O W} (hstate : s'.slot.state = x.sys.slot.state)
    (hptr : s'.slot.waiters.isSome = true) (ho : o.releases = true) :
    (({ x with
        sys := s'
        boxes := x.boxes.rmw .waiters o (fun _ => true) ((x.view p).write .box) } : Weak O W).look p
      (x.boxes.rmwView .waiters o ((x.view p).write .box))).Views := by
  have hmine : x.Knows ((x.view p).write .box) := (hx.view p).write (by simp) (by simp)
  have hboxed : Boxed ((x.view p).write .box) := by simp [Boxed]
  let y : Weak O W :=
    { x with
      sys := s'
      boxes := x.boxes.rmw .waiters o (fun _ => true) ((x.view p).write .box) }
  have hold (v : View Loc) (hv : x.Knows v) : y.Knows v :=
    ⟨hv.word, hv.box.rmw o (fun _ => true) ((x.view p).write .box)⟩
  have hview : y.Knows (x.boxes.rmwView .waiters o ((x.view p).write .box)) :=
    ⟨hmine.word.learn_of_ne wrote_mono (hx.boxViews _ History.last_mem).word (by simp),
      hmine.box.rmwView boxed_mono hx.boxes (fun _ _ => rfl) fun _ => .inl hboxed⟩
  have hy : y.Views := by
    refine ⟨hx.word.trans hstate.symm, hptr.symm, hx.words,
      hx.boxes.rmw boxed_mono hmine.box (fun _ _ => rfl) fun _ => .inr ⟨ho, hboxed⟩,
      fun m hm => hold _ (hx.wordViews m hm), ?_, hold _ hx.bot, fun q => hold _ (hx.view q),
      hold _ hx.guard, fun t => hold _ (hx.token t)⟩
    exact History.views_rmw (fun v w => Knows.sup) (fun m hm => hold _ (hx.boxViews m hm))
      (hold _ hx.bot) hview
  exact hy.look hview

end Views

end Weak

end Observe
