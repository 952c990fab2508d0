import Observe.Space.Take

/-!
# What the pool retains

A slot goes into the pool as its generation has left it.  The entries of threads and of futures are
gone by then, for those had to give up their handles; a waker that `register_waker` stored has no
owner, and stays until a completion drains it or the slot is reset for another generation.
-/

namespace Observe

variable {K O W : Type} [Key K] {bits : Nat} [WillWake W]

/-! ## The registry of an unused slot -/

section Slots

variable {e : Env} {s : SlotSys O W}

omit [WillWake W] in
/-- A completion that is not running has not started, or has drained. -/
theorem CompPc.taken_of_resting (c : CompPc O W) (h : c.resting = true) :
    c.taken = c.published := by
  cases c <;> first | rfl | cases h

/-- A future that left before the completion owns nothing. -/
theorem Fut.Ok.owns_of_dead {x : Fut W} (h : x.Ok false (.dead : FutPc O W)) (w : W) :
    x.owns w = false := by
  have hcancelled : x.cancelled = true := h.cancelled
  have ⟨hearly, hrecorded⟩ := h.prompt (h.left rfl hcancelled)
  unfold Fut.owns
  cases hst : known x.stored w with
  | false => rfl
  | true => simp [hearly, hrecorded w hst]

/-- Only direct registrations outlive the calls and the futures of a pending generation. -/
theorem SlotSys.Safe.registry_of_quiescent (hs : s.Safe e) (hq : s.Quiescent) :
    s.slot.registry = [] ↔ s.slot.state.completed = true ∨ s.direct = [] := by
  cases hc : s.slot.state.completed with
  | true =>
    have htaken : s.comp.taken = true := by
      have hpub : s.comp.published = true := hs.wf.published.completed ▸ hc
      rw [s.comp.taken_of_resting hq.comp, hpub]
    have hnil := hs.wf.registry_nil htaken (hq.free hs.wf.mutex)
    simp [hnil]
  | false =>
    have hntk := hs.wf.not_taken_of_pending hc
    have howners (w : W) : s.owners w = 0 := by
      apply SlotSys.Safe.owners_eq_zero
      intro f hf
      have hok := hs.records.ok f hf
      rw [hc, hq.futs f hf] at hok
      exact hok.owns_of_dead w
    have hentry (w : W) : s.slot.registry.entry w = account (known s.direct w) 0 := by
      rw [hs.accounts.entry hntk, howners]
    constructor
    · intro hnil
      right
      rw [List.eq_nil_iff_forall_not_mem]
      intro w hw
      have hnone := hentry w
      rw [hnil, SlotSys.Safe.known_of_mem hw] at hnone
      cases hnone
    · intro hdirect
      have hnone := hdirect.resolve_left nofun
      rw [List.eq_nil_iff_forall_not_mem]
      intro x hx
      cases x with
      | thread t g =>
        -- the thread would still be waiting, and no call is in flight
        rcases hs.awake.inside t (Registry.queued_of_mem hx (beq_self_eq_true t)) with hw | ⟨hd, _⟩
        · rw [ThreadPc.not_waiting_of_inactive (hq.thr t)] at hw
          cases hw
        · rw [hc] at hd
          cases hd
      | waker w p n g =>
        have hfound := SlotSys.Safe.entry_of_mem hs hntk hx
        rw [hnone, howners] at hfound
        cases hfound

end Slots

namespace World

variable {w w' : World K O W bits}

structure Bounded (w : World K O W bits) : Prop where
  /-- The `Subject` of `g` has been dropped, and so have all its observations and futures: no entry
  made through one of these is in the table's or the pool's slots. -/
  dropped : ∀ g, (∀ k n i c, w.auth g ≠ .subject k n i c) → (∀ o i, (w.obs o).at? ≠ some (i, g)) →
    (∀ f i, (w.futs f).at? ≠ some (i, g)) →
    ∀ i, (i ∈ w.pool ∨ ∃ k e, w.map.get k = some e ∧ e.slot = i) →
      ∀ x ∈ (w.slots i).slot.registry, x.gen ≠ g
  pooled : ∀ i ∈ w.pool, (w.slots i).slot.registry = []

/-- A `Subject` is dropped before its completion, as the only owner of its slot besides the table,
when a waker has been stored directly, and there is room in the pool. -/
inductive PoolsWaiters (w : World K O W bits) : World K O W bits → Prop where
  | retire {g : Gen} {k : K} {n : BitVec bits} {i : SlotId} {c : Bool}
      (ha : w.auth g = .subject k n i c) (hroom : w.pool.length < slotPoolCap)
      (hlast : ∀ y, w.arcs.of y = some i → y = .table g ∨ y = .subject g)
      (hpending : (w.slots i).slot.state.completed = false) (hdirect : (w.slots i).direct ≠ []) :
      PoolsWaiters w (w.retire g k n i)

/-- A pooled slot has waiters exactly when it was not completed and a waker was stored directly. -/
theorem Inv.registry_of_pooled (h : w.Inv) {i : SlotId} (hi : i ∈ w.pool) :
    (w.slots i).slot.registry = [] ↔
      (w.slots i).slot.state.completed = true ∨ (w.slots i).direct = [] :=
  (h.safe_of_pooled hi).registry_of_quiescent (h.quiescent hi)

/-- An entry in a slot of the table is of the generation in the table. -/
theorem Inv.bounded (h : w.Inv) (hpool : ∀ i ∈ w.pool, (w.slots i).slot.registry = []) :
    w.Bounded := by
  refine ⟨?_, hpool⟩
  intro g hdropped _ _ i hi x hx hgen
  rcases hi with hmem | ⟨k, e, hget, hslot⟩
  · rw [hpool i hmem] at hx
    cases hx
  · have ⟨k', c, _, ha⟩ := h.mapped.find k e hget
    rw [hslot] at ha
    have hpin : w.pin (.subject e.gen) = some (i, e.gen) := by
      simp [pin, ha, Authority.current?]
    have hbelongs := (h.safe_of_pin hpin).tags.registry x hx
    rw [h.pinned _ _ _ hpin] at hbelongs
    rw [← hgen, hbelongs.gen] at hdropped
    exact hdropped k' e.generation i c ha

/-- When a dropped `Subject` puts its slot into the pool. -/
theorem Inv.retire_pooled (h : w.Inv) {g : Gen} {k : K} {n : BitVec bits} {i : SlotId} {c : Bool}
    (ha : w.auth g = .subject k n i c) :
    i ∈ (w.retire g k n i).pool ↔ w.pool.length < slotPoolCap ∧
      ∀ y, w.arcs.of y = some i → y = .table g ∨ y = .subject g := by
  have hunpooled : i ∉ w.pool := fun hmem =>
    h.pooled.free i hmem (.subject g) g (by simp [pin, ha, Authority.current?])
  have hsub : (w.unlist g k n i).arcs.of (.subject g) = some i := by
    rw [unlist_of, if_neg (by simp), h.held]
    simp [handle, ha, Authority.slot?]
  have hcount : (w.unlist g k n i).arcs.count i = 1 ↔
      ∀ y, w.arcs.of y = some i → y = .table g ∨ y = .subject g := by
    rw [Lib.Handles.count_eq_one_iff _ hsub]
    constructor
    · intro hall y hy
      by_cases hyt : y = .table g
      · exact .inl hyt
      · exact .inr (hall y (by rw [unlist_of, if_neg hyt, hy]))
    · intro hall y hy
      rw [unlist_of] at hy
      split at hy
      · cases hy
      · rename_i hyt
        exact (hall y hy).resolve_left hyt
  rw [h.retire_eq ha, ← hcount]
  by_cases hroom : (w.unlist g k n i).arcs.count i = 1 ∧ w.pool.length < slotPoolCap
  · rw [if_pos hroom]
    constructor
    · intro _
      exact ⟨hroom.2, hroom.1⟩
    · intro _
      exact List.mem_cons_self
  · rw [if_neg hroom]
    constructor
    · intro hmem
      exact absurd hmem hunpooled
    · intro hnow
      exact absurd ⟨hnow.2, hnow.1⟩ hroom

/-- `Subject::drop` itself changes no slot. -/
theorem Inv.retire_slots (h : w.Inv) {g : Gen} {k : K} {n : BitVec bits} {i : SlotId} {c : Bool}
    (ha : w.auth g = .subject k n i c) : (w.retire g k n i).slots = w.slots := by
  rw [h.retire_eq ha]
  split
  · exact h.unlist_slots ha
  · exact h.unlist_slots ha

/-- What a step leaves in the registry of a slot that nobody uses. -/
theorem Inv.registry_step (h : w.Inv) (hs : Step w w') {i : SlotId}
    (hq : (w.slots i).Quiescent) (hreg : (w.slots i).slot.registry = []) :
    (w'.slots i).slot.registry = [] := by
  cases h.touch hs i with
  | same hsame => rw [hsame, hreg]
  | made _ _ hnew => rw [hnew]; rfl
  | dropped _ _ hgone =>
    rcases hgone with hgone | ⟨_, hgone⟩
    · rw [hgone]; rfl
    · rw [hgone]; rfl
  | moved _ _ hm =>
    generalize w'.slots i = s' at hm ⊢
    generalize w'.env = e' at hm
    cases hm with
    | step hcall =>
      -- no call is in flight
      exfalso
      cases hcall with
      | thread t ht =>
        have hact := ht.active
        rw [hq.thr t] at hact
        cases hact
      | future f _ hf =>
        have hact := hf.active
        rw [hq.fut f] at hact
        cases hact
      | complete hc =>
        have hrest := hc.notResting
        rw [hq.comp] at hrest
        cases hrest
    | cancel f hf hrest =>
      have hslot := ((w.slots i).startCancel_frame f).2.1
      rw [hslot, hreg]
    | recycle g _ hg =>
      apply Slot.reset_registry
      intro hne
      exact absurd hreg hne
    | _ => exact hreg

/-- A step that pools no waiters keeps the space bounded. -/
theorem Bounded.step (hb : w.Bounded) (h : w.Inv) (hs : Step w w')
    (hclean : ¬ w.PoolsWaiters w') : w'.Bounded := by
  have h' : w'.Inv := h.step hs
  apply h'.bounded
  intro i hi
  rcases h.pool_of_step hs hi with hold | ⟨g, k, n, c, ha, hw'⟩
  · exact h.registry_step hs (h.quiescent hold) (hb.pooled i hold)
  · have ⟨hroom, hlast⟩ := (h.retire_pooled ha).mp (hw' ▸ hi)
    rw [h'.registry_of_pooled hi, hw', h.retire_slots ha]
    by_contra hstale
    have ⟨hpending, hdirect⟩ := not_or.mp hstale
    apply hclean
    rw [hw']
    exact .retire ha hroom hlast (by simpa using hpending) hdirect

/-- A step that pools waiters leaves the space unbounded. -/
theorem PoolsWaiters.not_bounded (hd : w.PoolsWaiters w') (h : w.Inv) (h' : w'.Inv) :
    ¬ w'.Bounded := by
  intro hb
  cases hd with
  | retire ha hroom hlast hpending hdirect =>
    have hi := (h.retire_pooled ha).mpr ⟨hroom, hlast⟩
    rcases (h'.registry_of_pooled hi).mp (hb.pooled _ hi) with hc | hnone
    · rw [h.retire_slots ha, hpending] at hc
      cases hc
    · rw [h.retire_slots ha] at hnone
      exact hdirect hnone

end World

/-! ## Waiters without owners -/

/-- **Retained waiters are bounded by live owners** along a run, exactly when the run pools no slot
of a pending generation on which `register_waker` has stored a waker. -/
theorem waiters_bounded_iff {l : List (World K O W bits)} (hr : (worldSystem K O W bits).Run l) :
    (∀ w ∈ l, w.Bounded) ↔ Lib.System.Steps (fun w w' => ¬ w.PoolsWaiters w') l := by
  apply hr.forall_iff_steps (I := fun w => w.Inv ∧ w.Bounded)
  · intro w hi
    have ⟨e, he⟩ := hi
    rw [he]
    exact ⟨.new e, (World.Inv.new e).bounded nofun⟩
  · intro w w' hw hs hclean
    exact ⟨hw.1.step hs, hw.2.step hw.1 hs hclean⟩
  · intro w hw
    exact hw.2
  · intro w w' hw hs hdirty
    exact (not_not.mp hdirty).not_bounded hw.1 (hw.1.step hs)

/-- An observation of generation 1 stores a waker and is dropped; then the `Subject` is dropped,
and the slot is pooled with the waker. -/
theorem stale_run : ∃ w l, (worldSystem Nat Nat Nat 64).Run (w :: l) ∧ w.auth 1 = .gone ∧
    w.obs 0 = .gone 1 none ∧ w.pool = [0] ∧ w.arcs.count 0 = 1 ∧ w.map = .inline [] ∧
      w.nextGeneration = 2 ∧
      (w.slots 0).slot = ⟨.HAS_WAITER, none, some [.waker 5 true 0 1]⟩ := by
  have h₀ : (worldSystem Nat Nat Nat 64).Run [_] := .init ⟨⟨fun _ => false, 0⟩, rfl⟩
  have h₁ := h₀.step (.subject 7 (by decide))
  have h₂ := h₁.step (.observe 7 (by decide))
  have h₃ := h₂.step (.call (o := 0) 0 (.registerWaker 5) rfl (by intro i; cases i <;> rfl))
  have h₄ := h₃.step (.callStep 0 (.thread 0 (.check_pending rfl rfl)))
  have h₅ := h₄.step (.callStep 0 (.thread 0 (.setBit rfl)))
  have h₆ := h₅.step (.callStep 0 (.thread 0 (.loadReg_null rfl rfl)))
  have h₇ := h₆.step (.callStep 0 (.thread 0 (.casReg rfl)))
  have h₈ := h₇.step (.callStep 0 (.thread 0 (.acquire_register rfl rfl)))
  have h₉ := h₈.step (.callStep 0 (.thread 0 (.recheck_register_pending rfl rfl)))
  have h₁₀ := h₉.step (.callStep 0 (.thread 0 (.store rfl)))
  have h₁₁ := h₁₀.step (.callStep 0 (.thread 0 (.unlock_return rfl)))
  have h₁₂ := h₁₁.step (.dropObs (o := 0) rfl (by
    intro i t hact
    rcases i with _ | i <;> rcases t with _ | t <;> cases hact))
  have h₁₃ := h₁₂.step (.retire (g := 1) rfl rfl)
  have h₁₄ := h₁₃.step (.releaseInner (g := 1) rfl)
  have h₁₅ := h₁₄.step (.releaseSubject (g := 1) rfl)
  exact ⟨_, _, h₁₅, rfl, rfl, rfl, rfl, rfl, rfl, rfl⟩

theorem waker_retained : ¬ ∀ w : World Nat Nat Nat 64,
    (worldSystem Nat Nat Nat 64).Reachable w → w.Bounded := by
  intro hclaim
  have ⟨w, l, hrun, _, _, hpool, _, _, _, hslot⟩ := stale_run
  have hb := hclaim w (hrun.reachable w List.mem_cons_self)
  have hnil := hb.pooled 0 (by rw [hpool]; exact List.mem_cons_self)
  rw [hslot] at hnil
  cases hnil

/-- That run pools a slot of the kind in question. -/
theorem stale_run_pools : ∃ l, (worldSystem Nat Nat Nat 64).Run l ∧
    ¬ Lib.System.Steps (fun w w' => ¬ w.PoolsWaiters w') l := by
  have ⟨w, l, hrun, _, _, hpool, _, _, _, hslot⟩ := stale_run
  refine ⟨w :: l, hrun, ?_⟩
  intro hclean
  have hb : w.Bounded := (waiters_bounded_iff hrun).mpr hclean w List.mem_cons_self
  have hnil := hb.pooled 0 (by rw [hpool]; exact List.mem_cons_self)
  rw [hslot] at hnil
  cases hnil

end Observe
