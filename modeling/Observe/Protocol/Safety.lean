import Observe.Protocol.Notification

/-!
# One slot, over all its runs

The invariants together, kept by every move of the slot and of its environment, and what they say
about the waiters of a slot: nobody is stranded, every task is woken as often as it should be, and
no notification crosses from one generation to another.
-/

namespace Observe

variable {O W : Type} [WillWake W]

namespace SlotSys

structure Safe (e : Env) (s : SlotSys O W) : Prop where
  wf : s.Wf
  records : s.Records
  accounts : s.Accounts
  tags : s.Tags
  awake : s.Awake e
  answered : s.Answered

variable {e e' : Env} {s s' : SlotSys O W} {t : Tid} {f : FutId} {g : Gen}

theorem Safe.callStep (hs : s.Safe e) (h : CallStep e s e' s') : s'.Safe e' := by
  obtain ⟨hw, hr, ha, ht, hk, hn⟩ := hs
  cases h with
  | thread t h =>
    exact ⟨hw.threadStep h, hr.threadStep h, ha.threadStep hw h, ht.threadStep h,
      hk.threadStep hw h, hn.threadStep h⟩
  | future f he h =>
    subst he
    have hfr := h.frame
    exact ⟨hw.futStep h, hr.futStep hw h, ha.futStep hw hr h, ht.futStep hr h, hk.futStep h,
      hn.congr hfr.answered hfr.direct fun u => .inl (by rw [hfr.thr])⟩
  | complete h =>
    have hfr := h.frame
    exact ⟨hw.compStep h, hr.compStep h, ha.compStep hw h, ht.compStep hw.published h,
      hk.compStep hw h, hn.congr hfr.answered hfr.direct fun u => .inl (by rw [hfr.thr])⟩

theorem Safe.startCall (hs : s.Safe e) (hidle : (s.thr t).active = false) {h : Handle}
    (hg : h.gen = s.gen) (c : Call W) : (s.startCall t h c).Safe e := by
  obtain ⟨hw, hr, ha, ht, hk, hn⟩ := hs
  refine ⟨hw.startCall hidle h c, hr.congr rfl rfl rfl rfl rfl, ha.congr rfl rfl rfl rfl rfl
    fun _ => rfl, ht.startCall hg c, hk.startCall hidle h c, hn.congr rfl rfl fun u => ?_⟩
  by_cases hut : u = t
  · refine .inr ?_
    cases c <;> simp [SlotSys.startCall, hut, Call.entry, ThreadPc.holds]
  · exact .inl (by simp [SlotSys.startCall, hut])

theorem Safe.newFuture (hs : s.Safe e) (hf : f ∉ s.futs) (hidle : (s.fpc f).active = false) :
    (s.newFuture f s.gen).Safe e := by
  obtain ⟨hw, hr, ha, ht, hk, hn⟩ := hs
  exact ⟨hw.newFuture hidle s.gen, hr.newFuture, ha.newFuture hf s.gen,
    ht.congr ht.via rfl rfl rfl rfl rfl rfl,
    hk.congr (fun _ => .inl rfl) (fun _ _ => id) rfl rfl rfl rfl, hn.congr rfl rfl fun _ => .inl rfl⟩

theorem Safe.startPoll (hs : s.Safe e) (hf : f ∈ s.futs) (hrest : (s.fpc f).resting = true)
    (w : W) : (s.startPoll f w).Safe e := by
  obtain ⟨hw, hr, ha, ht, hk, hn⟩ := hs
  exact ⟨hw.startPoll hrest w, hr.startPoll hf hrest w, ha.congr rfl rfl rfl rfl rfl fun _ => rfl,
    ht.congr ht.via rfl rfl rfl rfl rfl rfl,
    hk.congr (fun _ => .inl rfl) (fun _ _ => id) rfl rfl rfl rfl, hn.congr rfl rfl fun _ => .inl rfl⟩

theorem Safe.startCancel (hs : s.Safe e) (hf : f ∈ s.futs) (hrest : (s.fpc f).resting = true) :
    (s.startCancel f).Safe e := by
  obtain ⟨hw, hr, ha, ht, hk, hn⟩ := hs
  refine ⟨hw.startCancel hrest, hr.startCancel hw hf hrest, ha.startCancel f, ht.startCancel f,
    ?_, ?_⟩ <;> unfold SlotSys.startCancel <;> split
  · exact hk.congr (fun _ => .inl rfl) (fun _ _ => id) rfl rfl rfl rfl
  · exact hk.congr (fun _ => .inl rfl) (fun _ _ => id) rfl rfl rfl rfl
  · exact hn.congr rfl rfl fun _ => .inl rfl
  · exact hn.congr rfl rfl fun _ => .inl rfl

theorem Safe.startComplete (hs : s.Safe e) (hidle : s.comp = .idle) (v : O) :
    (s.startComplete s.gen v).Safe e := by
  obtain ⟨hw, hr, ha, ht, hk, hn⟩ := hs
  exact ⟨hw.startComplete hidle v, hr.congr rfl rfl rfl rfl rfl, ha.startComplete hidle s.gen v,
    ht.startComplete hidle s.gen v, hk.startComplete hidle s.gen v,
    hn.congr rfl rfl fun _ => .inl rfl⟩

/-- `reset` makes a slot without calls in flight ready for a later generation. -/
theorem Safe.recycle (hs : s.Safe e) (hq : s.Quiescent) (hg : s.gen < g) :
    (s.recycle g).Safe e := by
  obtain ⟨hw, hr, ha, ht, hk, hn⟩ := hs
  have hreg : (s.recycle g).slot.registry = [] := Slot.reset_registry hw.announced.registry
  refine ⟨hw.recycle hq ?_, SlotSys.Records.prepared hq.fut rfl rfl,
    SlotSys.Accounts.prepared hreg rfl rfl rfl fun x hx => ?_,
    ht.prepared hq.thr rfl hreg rfl rfl rfl rfl hg.le,
    SlotSys.Awake.prepared hq.thr rfl hreg, ⟨by simp [SlotSys.recycle], fun t w hw' => ?_⟩⟩
  · by_contra hpub
    exact absurd hg (not_lt.mpr (ht.past g hpub))
  · have hpast := ht.past x.1 (ht.notified x hx).2
    exact (lt_of_le_of_lt hpast hg).ne
  · have hidle := hq.thr t
    rw [show s.thr t = _ from hw'] at hidle
    cases hidle

theorem Safe.fresh (e : Env) (g : Gen) : (blank.fresh g : SlotSys O W).Safe e :=
  ⟨.fresh, SlotSys.Records.prepared (s := blank) (fun _ => rfl) rfl rfl,
    SlotSys.Accounts.prepared rfl rfl rfl rfl (by rintro _ ⟨⟩),
    ⟨fun _ h => (by cases h), by rintro _ ⟨⟩, by rintro _ ⟨⟩, by rintro _ ⟨⟩,
      fun _ h => absurd rfl h⟩,
    SlotSys.Awake.prepared (s := blank) (fun _ => rfl) rfl rfl,
    ⟨by rintro _ ⟨⟩, by rintro _ _ ⟨⟩⟩⟩

/-- The environment takes no token from a thread that is inside a call. -/
theorem Safe.env (hs : s.Safe e)
    (htok : ∀ t, (s.thr t).active = true → e.token t = true → e'.token t = true) : s.Safe e' := by
  obtain ⟨hw, hr, ha, ht, hk, hn⟩ := hs
  refine ⟨hw, hr, ha, ht,
    hk.congr (fun _ => .inl rfl) (fun t hp => htok t (ThreadPc.active_of_parked hp)) rfl rfl rfl
      rfl, hn⟩

/-- Every move of the slot and of its environment keeps the invariant. -/
theorem Safe.move {x x' : Env × SlotSys O W} (hs : x.2.Safe x.1) (h : SlotMove x x') :
    x'.2.Safe x'.1 := by
  cases h with
  | step h => exact hs.callStep h
  | call t h c hidle hg => exact hs.startCall hidle hg c
  | intoFuture f hf hidle => exact hs.newFuture hf hidle
  | poll f w hf hrest => exact hs.startPoll hf hrest w
  | cancel f hf hrest => exact hs.startCancel hf hrest
  | complete v hidle => exact hs.startComplete hidle v
  | recycle g hq hg => exact hs.recycle hq hg
  | unparkElsewhere t =>
    refine hs.env fun u _ hu => ?_
    by_cases hut : u = t
    · simp [hut]
    · simpa [hut] using hu
  | parkElsewhere t hidle =>
    refine hs.env fun u hact hu => ?_
    have hut : u ≠ t := by
      rintro rfl
      rw [hidle] at hact
      cases hact
    simpa [hut] using hu
  | tick n hn => exact hs.env fun _ _ => id

end SlotSys

/-- Every reachable state of a slot meets the invariant. -/
theorem slotSystem_safe {x : Env × SlotSys O W} (h : (slotSystem O W).Reachable x) :
    x.2.Safe x.1 := by
  have hind : (slotSystem O W).Inductive fun x => x.2.Safe x.1 :=
    ⟨fun x ⟨g, hx⟩ => hx ▸ SlotSys.Safe.fresh x.1 g, fun _ _ => SlotSys.Safe.move⟩
  exact hind.reachable h

/-! ## No stranded waiter -/

/-- The task of `w` has been woken by the completion of generation `g`. -/
def SlotSys.Woken (s : SlotSys O W) (g : Gen) (w : W) : Prop :=
  ∃ x, (g, x) ∈ s.notified ∧ x.wakes w = true

namespace SlotSys.Safe

variable {e : Env} {s : SlotSys O W} {g : Gen} {b : Bool}

/-- A waker entry that was notified has woken its task. -/
theorem woken_of_count {w : W} (h : 0 < s.woken.countP (Waiter.wakes w)) : s.Woken s.gen w := by
  obtain ⟨x, hx, hw⟩ := List.countP_pos_iff.mp h
  obtain ⟨⟨g, y⟩, hmem, rfl⟩ := List.mem_map.mp hx
  obtain ⟨hmem, hg⟩ := List.mem_filter.mp hmem
  have hgs : g = s.gen := by simpa using hg
  subst hgs
  exact ⟨_, hmem, hw⟩

theorem gen_of_returned (hs : s.Safe e) (hret : s.comp = .returned g b) : g = s.gen := by
  have hcell := hs.wf.published.cell
  rw [hret] at hcell
  exact hcell.1

/-- When the completion has returned, each task has been woken once if it had an owner at the
drain, and not at all otherwise. -/
theorem count_of_returned (hs : s.Safe e) (hret : s.comp = .returned g b) (w : W) :
    s.woken.countP (Waiter.wakes w) =
      if (account (known s.direct w) (s.owners w)).isSome then 1 else 0 := by
  have hcount := hs.accounts.drained (by rw [hret]; rfl) w
  rw [hret] at hcount
  exact hcount

theorem owners_pos {f : FutId} (hf : f ∈ s.futs) {w : W} (hown : (s.fut f).owns w = true) :
    s.owners w ≠ 0 :=
  Finset.card_ne_zero_of_mem (Finset.mem_filter.mpr ⟨hf, hown⟩)

/-- A future that did not give the task back before the drain owns it there. -/
theorem owns_of_late {x : Fut W} {w : W} (hst : known x.stored w = true) (hlate : x.early = false) :
    x.owns w = true := by
  simp [Fut.owns, hst, hlate]

theorem known_of_mem {ws : List W} {w : W} (h : w ∈ ws) : known ws w = true :=
  List.any_eq_true.mpr ⟨w, h, WillWake.refl w⟩

end SlotSys.Safe

/-- **No stranded waiter.** A slot notifies nobody for a generation before its `COMPLETED` is set,
and once `complete` has returned: every thread at `park`, or on its way there, has its token; every
waker for which `register_waker` returned `false` has been woken; and so has the waker of the last
poll of every future whose last poll returned `Pending`, unless its cancellation left the registry
before the drain. -/
theorem no_stranded_waiter {e : Env} {s : SlotSys O W}
    (h : (slotSystem O W).Reachable (e, s)) :
    (s.slot.state.completed = false → ∀ x, (s.gen, x) ∉ s.notified) ∧
      ∀ g b, s.comp = .returned g b →
        (∀ t, (s.thr t).parked = true → e.token t = true) ∧
        (∀ w ∈ s.answered, s.Woken g w) ∧
        ∀ f ∈ s.futs, ∀ w, (s.fut f).last = some w → (s.fut f).early = false → s.Woken g w := by
  have hs : s.Safe e := slotSystem_safe h
  refine ⟨?pending, fun g b hret => ⟨?threads, ?direct, ?futures⟩⟩
  case pending =>
    intro hc x hx
    exact (hs.tags.notified _ hx).2 (hs.wf.published.pending hc)
  case threads =>
    intro t hp
    have htok := hs.awake.token t hp (by rw [hret]; rfl)
    rw [hret] at htok
    exact htok.resolve_right (by simp [CompPc.rest])
  case direct =>
    intro w hw
    rw [hs.gen_of_returned hret]
    refine SlotSys.Safe.woken_of_count ?_
    have hdirect : known s.direct w = true :=
      SlotSys.Safe.known_of_mem (hs.answered.answered w hw)
    rw [hs.count_of_returned hret, account_isSome, hdirect]
    simp
  case futures =>
    intro f hf w hlast hlate
    rw [hs.gen_of_returned hret]
    refine SlotSys.Safe.woken_of_count ?_
    have hst := (hs.records.ok f hf).last w hlast
    have hown := SlotSys.Safe.owners_pos hf (SlotSys.Safe.owns_of_late hst hlate)
    rw [hs.count_of_returned hret, account_isSome]
    simp [hown]

/-- Thread 0 parks in `wait`, thread 1 has registered the waker 5 and future 0 the waker 6 when the
completion drains the registry. -/
theorem drained_run : ∃ (e : Env) (s : SlotSys Nat Nat), (slotSystem Nat Nat).Reachable (e, s) ∧
    s.comp = .returned 1 false ∧ s.thr 0 = .park none ∧ s.answered = [5] ∧ s.direct = [5] ∧
    0 ∈ s.futs ∧ (s.fut 0).last = some 6 ∧ (s.fut 0).early = false := by
  have h₀ : (slotSystem Nat Nat).Reachable (⟨fun _ => false, 0⟩, _) := .init ⟨1, rfl⟩
  have h₁ := h₀.step (.call 0 ⟨0, 1⟩ (.wait none) rfl rfl)
  have h₂ := h₁.step (.step (.thread 0 (.check_pending rfl rfl)))
  have h₃ := h₂.step (.step (.thread 0 (.setBit rfl)))
  have h₄ := h₃.step (.step (.thread 0 (.loadReg_null rfl rfl)))
  have h₅ := h₄.step (.step (.thread 0 (.casReg rfl)))
  have h₆ := h₅.step (.step (.thread 0 (.acquire_wait rfl rfl)))
  have h₇ := h₆.step (.step (.thread 0 (.push rfl)))
  have h₈ := h₇.step (.step (.thread 0 (.recheck_wait_pending rfl rfl)))
  have h₉ := h₈.step (.step (.thread 0 (.unlock_park rfl)))
  have h₁₀ := h₉.step (.call 1 ⟨1, 1⟩ (.registerWaker 5) rfl rfl)
  have h₁₁ := h₁₀.step (.step (.thread 1 (.check_pending rfl rfl)))
  have h₁₂ := h₁₁.step (.step (.thread 1 (.setBit rfl)))
  have h₁₃ := h₁₂.step (.step (.thread 1 (.loadReg_some rfl nofun)))
  have h₁₄ := h₁₃.step (.step (.thread 1 (.acquire_register rfl rfl)))
  have h₁₅ := h₁₄.step (.step (.thread 1 (.recheck_register_pending rfl rfl)))
  have h₁₆ := h₁₅.step (.step (.thread 1 (.store rfl)))
  have h₁₇ := h₁₆.step (.step (.thread 1 (.unlock_return rfl)))
  have h₁₈ := h₁₇.step (.intoFuture 0 (Finset.notMem_empty 0) rfl)
  have h₁₉ := h₁₈.step (.poll 0 6 (Finset.mem_insert_self _ _) rfl)
  have h₂₀ := h₁₉.step (.step (.future 0 rfl (.poll_new rfl rfl rfl)))
  have h₂₁ := h₂₀.step (.step (.future 0 rfl (.check_pending rfl rfl)))
  have h₂₂ := h₂₁.step (.step (.future 0 rfl (.setBit rfl)))
  have h₂₃ := h₂₂.step (.step (.future 0 rfl (.loadReg_some rfl nofun)))
  have h₂₄ := h₂₃.step (.step (.future 0 rfl (.acquire_register rfl rfl)))
  have h₂₅ := h₂₄.step (.step (.future 0 rfl (.recheck_pending rfl rfl)))
  have h₂₆ := h₂₅.step (.step (.future 0 rfl (.store rfl rfl)))
  have h₂₇ := h₂₆.step (.step (.future 0 rfl (.unlock_poll2 rfl)))
  have h₂₈ := h₂₇.step (.step (.future 0 rfl (.poll2_pending rfl rfl)))
  have h₂₉ := h₂₈.step (.complete 42 rfl)
  have h₃₀ := h₂₉.step (.step (.complete (.write rfl)))
  have h₃₁ := h₃₀.step (.step (.complete (.publish_waiters rfl rfl)))
  have h₃₂ := h₃₁.step (.step (.complete (.loadReg_some rfl nofun)))
  have h₃₃ := h₃₂.step (.step (.complete (.acquire rfl rfl)))
  have h₃₄ := h₃₃.step (.step (.complete (.take rfl)))
  have h₃₅ := h₃₄.step (.step (.complete (.unlock rfl)))
  have h₃₆ := h₃₅.step (.step (.complete (.unpark rfl)))
  have h₃₇ := h₃₆.step (.step (.complete (.wake false rfl)))
  have h₃₈ := h₃₇.step (.step (.complete (.wake false rfl)))
  have h₃₉ := h₃₈.step (.step (.complete (.finish rfl)))
  exact ⟨_, _, h₃₉, rfl, rfl, rfl, rfl, Finset.mem_insert_self _ _, rfl, rfl⟩

/-- Each of the three kinds of waiters is notified. -/
theorem drained_waiters_notified : ∃ (e : Env) (s : SlotSys Nat Nat), s.comp = .returned 1 false ∧
    s.thr 0 = .park none ∧ e.token 0 = true ∧ s.Woken 1 5 ∧ s.Woken 1 6 := by
  obtain ⟨e, s, h, hret, hpark, hans, -, hmem, hlast, hlate⟩ := drained_run
  obtain ⟨htoken, hdirect, hfuture⟩ := (no_stranded_waiter h).2 1 false hret
  refine ⟨e, s, hret, hpark, htoken 0 (by rw [hpark]; rfl), hdirect 5 (by rw [hans]; simp), ?_⟩
  exact hfuture 0 hmem 6 hlast hlate

/-! ## Exact wake counts -/

namespace SlotSys

def liveOwners (s : SlotSys O W) (w : W) : Nat :=
  (s.futs.filter fun f => known (s.fut f).stored w = true ∧ (s.fut f).cancelled = false).card

/-- The bookkeeping of the registry, and how often each task is woken. -/
structure WakeAccounts (s : SlotSys O W) : Prop where
  oneEntry : ∀ w, s.slot.registry.countP (Waiter.wakes w) ≤ 1
  /-- `*future_owners -= 1` does not underflow. -/
  noUnderflow : ∀ f, s.fpc f = .remove → ∀ e p n g, .waker e p n g ∈ s.slot.registry →
    known (s.fut f).wakers e = true → 0 < n
  futureOwners : s.slot.state.completed = false → s.held = none → ∀ e p n g,
    .waker e p n g ∈ s.slot.registry → n = s.liveOwners e
  persistent : s.slot.state.completed = false → s.held = none → ∀ e p n g,
    .waker e p n g ∈ s.slot.registry → (p = true ↔ ∃ w ∈ s.direct, willWake w e = true)
  exists_iff : s.slot.state.completed = false → s.held = none → ∀ w,
    (∃ x ∈ s.slot.registry, x.wakes w = true) ↔
      (∃ w' ∈ s.direct, willWake w' w = true) ∨ s.liveOwners w ≠ 0
  atMostOnce : ∀ w, s.woken.countP (Waiter.wakes w) ≤ 1
  /-- A direct registration, or a future that registered the task and was not dropped before the
  drain. -/
  exactlyOnce : ∀ g b, s.comp = .returned g b → ∀ w,
    ((∃ w' ∈ s.direct, willWake w' w = true) ∨
      ∃ f ∈ s.futs, known (s.fut f).stored w = true ∧ (s.fut f).early = false) →
    s.woken.countP (Waiter.wakes w) = 1
  /-- No direct registration, and every future that registered the task was dropped before
  `COMPLETED` was set, or at least gave the task back before the drain. -/
  never : ∀ w, (∀ w' ∈ s.direct, willWake w' w = false) →
    (∀ f ∈ s.futs, known (s.fut f).stored w = true →
      (s.fut f).prompt = true ∨ ((s.fut f).early = true ∧ known (s.fut f).wakers w = true)) →
    s.woken.countP (Waiter.wakes w) = 0

namespace Safe

variable {e : Env} {s : SlotSys O W}

/-- While the slot is pending, the owners of a task are the futures that are not dropped. -/
theorem liveOwners_eq (hs : s.Safe e) (hc : s.slot.state.completed = false) (w : W) :
    s.liveOwners w = s.owners w := by
  unfold liveOwners owners
  congr 1
  refine Finset.filter_congr fun f hf => ?_
  have hok := hs.records.ok f hf
  cases hx : (s.fut f).cancelled with
  | false =>
    have hlate : (s.fut f).early = false := by
      by_contra he
      rw [hok.early (by simpa using he)] at hx
      cases hx
    simp [Fut.owns, hlate]
  | true =>
    -- a future that was dropped while the slot is pending has given everything back
    obtain ⟨hearly, hback⟩ := hok.prompt (hok.left hc hx)
    simp only [Bool.true_eq_false, and_false, false_iff, Fut.owns, hearly, Bool.true_and,
      Bool.and_eq_true, Bool.not_eq_true', not_and, Bool.not_eq_false]
    exact hback w

/-- A task is known by any one of the wakers that `will_wake` takes for it. -/
theorem known_iff {ws : List W} {w : W} : known ws w = true ↔ ∃ w' ∈ ws, willWake w' w = true :=
  List.any_eq_true

theorem not_known_iff {ws : List W} {w : W} :
    known ws w = false ↔ ∀ w' ∈ ws, willWake w' w = false := by
  simp [known]

/-- The entry of a pending slot that wakes the task of `e'`. -/
theorem entry_of_mem (hs : s.Safe e) (htk : s.comp.taken = false) {e' : W} {p : Bool} {n : Nat}
    {g : Gen} (hx : .waker e' p n g ∈ s.slot.registry) :
    account (known s.direct e') (s.owners e') = some (p, n) := by
  rw [← hs.accounts.entry htk e']
  exact Registry.entry_of_mem hs.accounts.distinct hx (WillWake.refl e')

theorem owners_eq_zero {w : W} (h : ∀ f ∈ s.futs, (s.fut f).owns w = false) : s.owners w = 0 := by
  rw [owners, Finset.card_eq_zero, Finset.filter_eq_empty_iff]
  intro f hf
  simp [h f hf]

/-- The completion wakes a task once at most, and only if it is registered. -/
theorem countP_woken (hs : s.Safe e) (w : W) :
    s.woken.countP (Waiter.wakes w) ≤
      if (account (known s.direct w) (s.owners w)).isSome then 1 else 0 := by
  cases htk : s.comp.taken with
  | false =>
    rw [hs.accounts.quiet htk]
    exact Nat.zero_le _
  | true =>
    rw [← hs.accounts.drained htk w, List.countP_append]
    exact Nat.le_add_left _ _

end Safe
end SlotSys

/-- **Waker accounting.** In every reachable state of a slot its entries count their owners, and no
completion wakes a task more often, or less often, than it should.  A task is a class of wakers under
`will_wake`, and the clone that an entry keeps is of the class of its original
(`WillWake.clone_willWake`). -/
theorem wake_accounts {e : Env} {s : SlotSys O W} (h : (slotSystem O W).Reachable (e, s)) :
    s.WakeAccounts := by
  have hs : s.Safe e := slotSystem_safe h
  have hntk (hc : s.slot.state.completed = false) := hs.wf.not_taken_of_pending hc
  constructor
  case oneEntry =>
    intro w
    rw [Registry.countP_wakes hs.accounts.distinct]
    split <;> simp
  case noUnderflow =>
    intro f hpc e' p n g hx hmine
    have hf : f ∈ s.futs := hs.records.mem f (by rw [hpc]; rfl)
    have hok := hs.records.ok f hf
    cases htk : s.comp.taken with
    | false =>
      have hown := SlotSys.Accounts.owns_of_not_gone hok (by rw [hpc]; rfl) e'
      rw [hok.recorded e' hmine] at hown
      rw [(account_eq_some (hs.entry_of_mem htk hx)).2]
      exact Nat.pos_of_ne_zero (SlotSys.Safe.owners_pos hf hown)
    | true =>
      -- behind the drain only threads are in the registry
      obtain ⟨t, ht, -⟩ := hs.wf.drained.registry htk _ hx
      cases ht
  case futureOwners =>
    intro hc _ e' p n g hx
    rw [hs.liveOwners_eq hc, (account_eq_some (hs.entry_of_mem (hntk hc) hx)).2]
  case persistent =>
    intro hc _ e' p n g hx
    rw [(account_eq_some (hs.entry_of_mem (hntk hc) hx)).1, SlotSys.Safe.known_iff]
  case exists_iff =>
    intro hc _ w
    have hcount := Registry.countP_wakes hs.accounts.distinct w
    rw [hs.accounts.entry (hntk hc), account_isSome] at hcount
    rw [← List.countP_pos_iff, hcount, hs.liveOwners_eq hc, ← SlotSys.Safe.known_iff]
    cases known s.direct w <;> simp [Nat.pos_iff_ne_zero]
  case atMostOnce =>
    intro w
    refine (hs.countP_woken w).trans ?_
    split <;> simp
  case exactlyOnce =>
    intro g b hret w hown
    rw [hs.count_of_returned hret, account_isSome]
    rcases hown with hdirect | ⟨f, hf, hst, hlate⟩
    · rw [SlotSys.Safe.known_iff.mpr hdirect]
      simp
    · have hpos := SlotSys.Safe.owners_pos hf (SlotSys.Safe.owns_of_late hst hlate)
      simp [hpos]
  case never =>
    intro w hdirect hback
    have hzero : s.owners w = 0 := by
      refine SlotSys.Safe.owners_eq_zero fun f hf => ?_
      cases hst : known (s.fut f).stored w with
      | false => simp [Fut.owns, hst]
      | true =>
        have hgave : (s.fut f).early = true ∧ known (s.fut f).wakers w = true := by
          rcases hback f hf hst with hp | hgave
          · obtain ⟨hearly, hall⟩ := (hs.records.ok f hf).prompt hp
            exact ⟨hearly, hall w hst⟩
          · exact hgave
        simp [Fut.owns, hgave.1, hgave.2]
    have hle := hs.countP_woken w
    rw [account_isSome, SlotSys.Safe.not_known_iff.mpr hdirect, hzero] at hle
    exact Nat.le_zero.mp hle

/-- The waker of a direct registration is woken once, and nobody's waker not at all. -/
theorem drained_wakers_counted : ∃ (e : Env) (s : SlotSys Nat Nat),
    (slotSystem Nat Nat).Reachable (e, s) ∧ s.direct = [5] ∧
      s.woken.countP (Waiter.wakes 5) = 1 ∧ s.woken.countP (Waiter.wakes 7) ≤ 1 := by
  obtain ⟨e, s, h, hret, -, -, hdirect, -, -, -⟩ := drained_run
  have hacc := wake_accounts h
  refine ⟨e, s, h, hdirect, hacc.exactlyOnce 1 false hret 5 (.inl ⟨5, ?_, rfl⟩), hacc.atMostOnce 7⟩
  rw [hdirect]
  exact List.mem_cons_self

end Observe
