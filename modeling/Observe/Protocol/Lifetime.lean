import Observe.Protocol.Safety
import Mathlib.Data.List.Count

/-!
# What a slot leaves behind

The history of a slot outlives its generations and, once the last handle is dropped, the slot
itself: what was published, what became of each value, which answers the calls gave and who was
notified.
-/

namespace Observe

variable {O W : Type} {e e' : Env} {s s' : SlotSys O W} {t : Tid} {f : FutId}

/-! ## Answers -/

def ThreadPc.Returns (r : Ret O W) (k : ThreadPc O W) : Prop :=
  k = .returned r ∨ k = .unlock (.returned r)

/-- The answer agrees with what the generation has published, `p`. -/
def Ret.Agrees (p : Option O) : Ret O W → Prop
  | .value v => p = some v
  | .registered _ true => p ≠ Option.none
  | .registered _ false | .none => True

/-- An answer that agrees with what has been published agrees with it later, too. -/
theorem Ret.Agrees.mono {p p' : Option O} (hp : ∀ v, p = some v → p' = some v) {r : Ret O W}
    (h : r.Agrees p) : r.Agrees p' := by
  cases r with
  | value v => exact hp v h
  | none => trivial
  | registered w b =>
    cases b with
    | false => trivial
    | true =>
      obtain ⟨v, hv⟩ := Option.ne_none_iff_exists'.mp (show p ≠ Option.none from h)
      show p' ≠ Option.none
      rw [hp v hv]
      exact Option.some_ne_none v

/-! ## The invariant -/

structure SlotSys.Past (s : SlotSys O W) : Prop where
  notified : ∀ p ∈ s.notified, p.2.Belongs p.1 s.stored ∧ s.published p.1 ≠ none
  past : ∀ g, s.published g ≠ none → g ≤ s.gen
  /-- A published value is in the cell, or has been moved out once, or destroyed once. -/
  settled : ∀ g, s.moved.count g + s.destroyed.count g + s.slot.destroys.count g =
    (s.published g).isSome.toNat
  thr : ∀ t r, (s.thr t).Returns r → r.Agrees (s.published (s.via t).gen)
  fut : ∀ f v, s.fpc f = .ready v → s.published (s.fut f).gen = some v

theorem Slot.destroys_congr {m m' : Slot O W} (ho : m'.outcome = m.outcome)
    (hv : m'.state.outcomeValid = m.state.outcomeValid) : m'.destroys = m.destroys := by
  unfold Slot.destroys
  rw [ho, hv]

/-! ## Steps -/

section Steps

variable [WillWake W]

/-- Where a thread's answer comes from. -/
theorem ThreadStep.returns (h : ThreadStep t e s e' s') {r : Ret O W}
    (hr : (s'.thr t).Returns r) :
    (s.thr t).Returns r ∨ r = .none ∨ (∃ w, r = .registered w false) ∨
      ((s.thr t).seen = true ∧ ∃ g v, s.slot.outcome = some (g, v) ∧ r = .value v) ∨
      (s.slot.state.completed = true ∧ ∃ w, r = .registered w true) := by
  unfold ThreadPc.Returns at hr ⊢
  cases h with
  | tryGet_pending hpc hc =>
    have hr' : Ret.none = r := by simpa using hr
    exact .inr (.inl hr'.symm)
  | @check_register_done w hpc hc =>
    have hr' : Ret.registered w true = r := by simpa using hr
    exact .inr (.inr (.inr (.inr ⟨hc, w, hr'.symm⟩)))
  | @recheck_register_done w hpc hc =>
    have hr' : Ret.registered w true = r := by simpa using hr
    exact .inr (.inr (.inr (.inr ⟨hc, w, hr'.symm⟩)))
  | @store w hpc =>
    have hr' : Ret.registered w false = r := by simpa using hr
    exact .inr (.inr (.inl ⟨w, hr'.symm⟩))
  | @readLocked g v hpc hv =>
    have hr' : Ret.value v = r := by simpa using hr
    exact .inr (.inr (.inr (.inl ⟨by rw [hpc]; rfl, g, v, hv, hr'.symm⟩)))
  | @unlock_return r' hpc =>
    have hr' : r' = r := by simpa using hr
    exact .inl (.inr (by rw [hpc, hr']))
  | expire hpc =>
    have hr' : Ret.none = r := by simpa using hr
    exact .inr (.inl hr'.symm)
  | @read g v hpc hv =>
    have hr' : Ret.value v = r := by simpa using hr
    exact .inr (.inr (.inr (.inl ⟨by rw [hpc]; rfl, g, v, hv, hr'.symm⟩)))
  | _ => simp at hr

/-- A future becomes ready by a read of the cell. -/
theorem FutStep.ready (h : FutStep f s s') {v : O} (hv : s'.fpc f = .ready v) :
    (s.fpc f).seen = true ∧ ∃ g, s.slot.outcome = some (g, v) := by
  cases h with
  | @read g v' hpc hcell =>
    have hvv : v' = v := by simpa using hv
    exact ⟨by rw [hpc]; rfl, g, by rw [hcell, hvv]⟩
  | _ => simp at hv

omit [WillWake W] in
/-- The completion publishes its own generation, once. -/
theorem CompStep.published_of (h : CompStep e s e' s') (hp : s.Published) :
    s'.published = s.published ∨ (s.published s.gen = none ∧
      ∃ v, s'.published = Function.update s.published s.gen (some v)) := by
  have hcell := hp.cell
  cases h with
  | @publish_alone g v hpc hw | @publish_waiters g v hpc hw =>
    rw [hpc] at hcell
    obtain ⟨rfl, -, hnone⟩ := hcell
    exact .inr ⟨hnone, v, rfl⟩
  | _ => exact .inl rfl

end Steps

namespace SlotSys.Past

section

variable [WillWake W]

/-- A thread returns what the cell holds, which is what the generation has published. -/
theorem threadStep (hp : s.Past) (hs : s.Safe e) (h : ThreadStep t e s e' s')
    (hs' : s'.Safe e') : s'.Past := by
  have hfr := h.frame
  have hact := h.active
  refine ⟨hs'.tags.notified, hs'.tags.past, fun g => ?_, fun u r hr => ?_, fun f v hv => ?_⟩
  · rw [hfr.moved, hfr.destroyed, hfr.published,
      Slot.destroys_congr hfr.outcome hfr.outcomeValid]
    exact hp.settled g
  · rw [hfr.via, hfr.published]
    by_cases hut : u = t
    · subst hut
      rcases h.returns hr with hold | rfl | ⟨w, rfl⟩ | ⟨hseen, g, v, hcell, rfl⟩ | ⟨hc, w, rfl⟩
      · exact hp.thr u r hold
      · trivial
      · trivial
      · obtain ⟨v', hv', hpub⟩ := hs.wf.published.live (hs.wf.published.thr u hseen)
        rw [hcell] at hv'
        cases hv'
        rw [hs.tags.via u hact]
        exact hpub
      · obtain ⟨v', -, hpub⟩ := hs.wf.published.live hc
        rw [hs.tags.via u hact, Ret.Agrees, hpub]
        simp
    · rw [hfr.thr u hut] at hr
      exact hp.thr u r hr
  · rw [hfr.fpc] at hv
    rw [hfr.fut, hfr.published]
    exact hp.fut f v hv

/-- A future is ready with what the cell holds. -/
theorem futStep (hp : s.Past) (hs : s.Safe e) (h : FutStep f s s') (hs' : s'.Safe e) :
    s'.Past := by
  have hfr := h.frame
  refine ⟨hs'.tags.notified, hs'.tags.past, fun g => ?_, fun u r hr => ?_, fun i v hv => ?_⟩
  · rw [hfr.moved, hfr.destroyed, hfr.published,
      Slot.destroys_congr hfr.outcome hfr.outcomeValid]
    exact hp.settled g
  · rw [hfr.thr] at hr
    rw [hfr.via, hfr.published]
    exact hp.thr u r hr
  · rw [hfr.published]
    by_cases hif : i = f
    · subst hif
      obtain ⟨hseen, g, hcell⟩ := h.ready hv
      obtain ⟨v', hv', hpub⟩ := hs.wf.published.live (hs.wf.published.fut i hseen)
      rw [hcell] at hv'
      cases hv'
      rw [hfr.futGen, hs.records.gen i (hs.records.mem i h.active)]
      exact hpub
    · rw [hfr.fpc i hif] at hv
      rw [hfr.fut i hif]
      exact hp.fut i v hv

omit [WillWake W] in
/-- The write fills a dead cell, and the publication makes the cell live; no other step of the
completion touches it. -/
theorem settled_compStep (hp : s.Past) (hpub : s.Published) (h : CompStep e s e' s') (g : Gen) :
    s'.moved.count g + s'.destroyed.count g + s'.slot.destroys.count g =
      (s'.published g).isSome.toNat := by
  have hfr := h.frame
  have hcell := hpub.cell
  have hvalid := hpub.outcomeValid
  have hold := hp.settled g
  rw [hfr.moved, hfr.destroyed]
  cases h with
  | write hpc =>
    rw [hpc] at hvalid
    have hdead : s.slot.state.outcomeValid = false := hvalid
    simpa [Slot.destroys, Slot.setOutcome, hdead] using hold
  | @publish_alone g' v hpc hw | @publish_waiters g' v hpc hw =>
    rw [hpc] at hcell hvalid
    obtain ⟨rfl, hout, hnone⟩ := hcell
    have hdead : s.slot.state.outcomeValid = false := hvalid
    have hold' : s.moved.count g + s.destroyed.count g = (s.published g).isSome.toNat := by
      simpa [Slot.destroys, hdead] using hold
    by_cases hg : g = s.gen
    · subst hg
      rw [hnone] at hold'
      simpa [Slot.destroys, hout] using hold'
    · have hother : [s.gen].count g = 0 := List.count_eq_zero.mpr (by simpa using hg)
      simpa [Slot.destroys, hout, hg, hother] using hold'
  | _ => exact hold

/-- What the completion publishes agrees with every answer so far. -/
theorem compStep (hp : s.Past) (hs : s.Safe e) (h : CompStep e s e' s') (hs' : s'.Safe e') :
    s'.Past := by
  have hfr := h.frame
  have hmono (g : Gen) (v : O) (hv : s.published g = some v) : s'.published g = some v := by
    rcases h.published_of hs.wf.published with hpub | ⟨hnone, v', hpub⟩
    · rw [hpub, hv]
    · have hne : g ≠ s.gen := by
        rintro rfl
        rw [hnone] at hv
        cases hv
      rw [hpub, Function.update_of_ne hne, hv]
  refine ⟨hs'.tags.notified, hs'.tags.past, hp.settled_compStep hs.wf.published h,
    fun u r hr => ?_, fun f v hv => ?_⟩
  · rw [hfr.thr] at hr
    rw [hfr.via]
    exact (hp.thr u r hr).mono (hmono _)
  · rw [hfr.fpc] at hv
    rw [hfr.fut]
    exact hmono _ _ (hp.fut f v hv)

end

/-- The slot's memory and history stay, and no call gives a new answer. -/
theorem congr (hp : s.Past) (hslot : s'.slot = s.slot) (hn : s'.notified = s.notified)
    (hst : s'.stored = s.stored) (hpub : s'.published = s.published) (hg : s'.gen = s.gen)
    (hm : s'.moved = s.moved) (hd : s'.destroyed = s.destroyed)
    (hthr : ∀ t r, (s'.thr t).Returns r → (s.thr t).Returns r ∧ s'.via t = s.via t)
    (hfut : ∀ f v, s'.fpc f = .ready v → s.fpc f = .ready v ∧ (s'.fut f).gen = (s.fut f).gen) :
    s'.Past := by
  refine ⟨?notified, ?past, ?settled, ?thr, ?fut⟩
  case notified =>
    rw [hn, hst, hpub]
    exact hp.notified
  case past =>
    rw [hpub, hg]
    exact hp.past
  case settled =>
    rw [hm, hd, hslot, hpub]
    exact hp.settled
  case thr =>
    intro t r hr
    obtain ⟨hr', hvia⟩ := hthr t r hr
    rw [hvia, hpub]
    exact hp.thr t r hr'
  case fut =>
    intro f v hv
    obtain ⟨hv', hgen⟩ := hfut f v hv
    rw [hgen, hpub]
    exact hp.fut f v hv'

/-- The value that leaves the slot with its memory is destroyed. -/
theorem discard (hp : s.Past) {m : Slot O W} (hm : m.destroys = []) {g : Gen} (hg : s.gen ≤ g)
    (hn : s'.notified = s.notified) (hst : s'.stored = s.stored)
    (hpub : s'.published = s.published) (hgen : s'.gen = g) (hslot : s'.slot = m)
    (hmoved : s'.moved = s.moved) (hd : s'.destroyed = s.slot.destroys ++ s.destroyed)
    (hthr : s'.thr = s.thr) (hvia : s'.via = s.via) (hfpc : s'.fpc = s.fpc)
    (hfut : s'.fut = s.fut) : s'.Past := by
  refine ⟨?notified, ?past, ?settled, ?thr, ?fut⟩
  case notified =>
    rw [hn, hst, hpub]
    exact hp.notified
  case past =>
    intro g' hg'
    rw [hpub] at hg'
    rw [hgen]
    exact (hp.past g' hg').trans hg
  case settled =>
    intro g'
    rw [hmoved, hd, hslot, hm, hpub, List.count_append, ← hp.settled g']
    simp only [List.count_nil]
    omega
  case thr =>
    rw [hthr, hvia, hpub]
    exact hp.thr
  case fut =>
    rw [hfpc, hfut, hpub]
    exact hp.fut

/-- A recycled slot keeps the answers that old handles have got. -/
theorem recycle (hp : s.Past) {g : Gen} (hg : s.gen ≤ g) : (s.recycle g).Past :=
  hp.discard rfl hg rfl rfl rfl rfl rfl rfl rfl rfl rfl rfl rfl

/-- The final drop destroys what has not been moved out or destroyed before. -/
theorem finalDrop (hp : s.Past) : s.finalDrop.Past :=
  hp.discard rfl le_rfl rfl rfl rfl rfl rfl rfl rfl rfl rfl rfl rfl

/-- The value that `into_outcome` takes is moved out. -/
theorem takeOutcome (hp : s.Past) (hv : s.slot.state.outcomeValid = true) :
    s.takeOutcome.Past := by
  refine ⟨hp.notified, hp.past, fun g => ?_, hp.thr, hp.fut⟩
  refine Eq.trans ?_ (hp.settled g)
  simp only [SlotSys.takeOutcome, Slot.destroys, hv, if_true, List.count_append,
    Bool.false_eq_true, if_false, List.count_nil]
  omega

theorem fresh (g : Gen) : (blank.fresh g : SlotSys O W).Past :=
  ⟨by rintro _ ⟨⟩, fun _ h => absurd rfl h, fun _ => rfl,
    fun _ _ h => (by rcases h with h | h <;> cases h), fun _ _ h => (by cases h)⟩

theorem blank : (SlotSys.blank : SlotSys O W).Past :=
  ⟨by rintro _ ⟨⟩, fun _ h => absurd rfl h, fun _ => rfl,
    fun _ _ h => (by rcases h with h | h <;> cases h), fun _ _ h => (by cases h)⟩

variable [WillWake W]

/-- Every move of a slot in use keeps its past. -/
theorem move (hp : s.Past) (hs : s.Safe e) (h : SlotMove (e, s) (e', s')) : s'.Past := by
  have hs' : s'.Safe e' := SlotSys.Safe.move (x := (e, s)) hs h
  cases h with
  | step h =>
    cases h with
    | thread t h => exact hp.threadStep hs h hs'
    | future f he h => exact hp.futStep hs h (he ▸ hs')
    | complete h => exact hp.compStep hs h hs'
  | call t h c hidle hg =>
    refine hp.congr rfl rfl rfl rfl rfl rfl rfl (fun u r hr => ?_) fun _ _ hv => ⟨hv, rfl⟩
    by_cases hut : u = t
    · subst hut
      cases c <;> simp [SlotSys.startCall, Call.entry, ThreadPc.Returns] at hr
    · simpa [SlotSys.startCall, hut] using hr
  | intoFuture f hf hidle =>
    refine hp.congr rfl rfl rfl rfl rfl rfl rfl (fun u r hr => ⟨hr, rfl⟩) fun i v hv => ?_
    by_cases hif : i = f
    · simp [SlotSys.newFuture, hif] at hv
    · simpa [SlotSys.newFuture, hif] using hv
  | poll f w hf hrest =>
    refine hp.congr rfl rfl rfl rfl rfl rfl rfl (fun u r hr => ⟨hr, rfl⟩) fun i v hv => ?_
    by_cases hif : i = f
    · simp [SlotSys.startPoll, hif] at hv
    · simpa [SlotSys.startPoll, hif] using hv
  | cancel f hf hrest =>
    unfold SlotSys.startCancel
    split
    all_goals
      refine hp.congr rfl rfl rfl rfl rfl rfl rfl (fun u r hr => ⟨hr, rfl⟩) fun i v hv => ?_
      by_cases hif : i = f
      · simp [hif] at hv
      · simpa [hif] using hv
  | complete v hidle =>
    exact hp.congr rfl rfl rfl rfl rfl rfl rfl (fun _ _ hr => ⟨hr, rfl⟩) fun _ _ hv => ⟨hv, rfl⟩
  | recycle g hq hg => exact hp.recycle hg.le
  | unparkElsewhere t => exact hp
  | parkElsewhere t hidle => exact hp
  | tick n hn => exact hp

end SlotSys.Past

/-- Only a completion in flight publishes. -/
theorem SlotMove.published_of [WillWake W] (hs : s.Safe e) (h : SlotMove (e, s) (e', s')) :
    s'.published = s.published ∨ (s.comp.resting = false ∧ s.published s.gen = none ∧
      ∃ v, s'.published = Function.update s.published s.gen (some v)) := by
  cases h with
  | step h =>
    cases h with
    | thread t h => exact .inl h.frame.published
    | future f he h => exact .inl h.frame.published
    | complete h =>
      refine (h.published_of hs.wf.published).imp_right fun hpub => ⟨?_, hpub⟩
      cases h <;> simp_all [CompPc.resting]
  | cancel f hf hrest =>
    unfold SlotSys.startCancel
    split <;> exact .inl rfl
  | _ => exact .inl rfl

end Observe
