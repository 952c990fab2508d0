import Observe.Memory.Recycling

/-!
# Who has a slot for his own comes after everybody who has used it

`reset`, `into_outcome` and the final drop of a slot run without any synchronisation of their own:
that nobody is inside a call is known from the count.  Whether they also come after every earlier
call, so that what they do cannot race with it, depends on the ordering of the load that returned
the one.  With acquire, and with drops that release as `Arc` documents them, they do, for all runs;
without it there are runs in which they do not.
-/

namespace Observe

open Lib

variable {K O W : Type} [Key K] {bits : Nat}

namespace World

variable {w w' : World K O W bits} {y z : Owner} {i j : SlotId} {g : Gen}

/-- Calls are made through the handle of `y`, or clones of it are. -/
def Lends (w : World K O W bits) (y : Owner) (i : SlotId) : Prop :=
  (∃ g, w.pin y = some (i, g)) ∨ ∃ g, y = .table g ∧ (w.auth g).table? = some i

/-- What the pool has is not lent. -/
theorem not_lends_pool : ¬ w.Lends (.pool i) j := by
  intro h
  rcases h with ⟨g, hp⟩ | ⟨g, heq, -⟩
  · cases hp
  · cases heq

/-- An authority that gives up its slot and its entry lends them no more. -/
theorem lends_setAuth {a : Authority K bits} (hcur : a.current? = none) (htab : a.table? = none)
    (h : ({ w with auth := Function.update w.auth g a } : World K O W bits).Lends y i) :
    w.Lends y i ∧ y ≠ .subject g ∧ y ≠ .table g := by
  rcases h with ⟨g', hp⟩ | ⟨g', rfl, ht⟩
  · cases y with
    | subject g₀ =>
      by_cases hg : g₀ = g
      · subst hg
        simp [pin, hcur] at hp
      · refine ⟨.inl ⟨g', ?_⟩, by simpa using hg, by simp⟩
        simpa [pin, hg] using hp
    | obs o => exact ⟨.inl ⟨g', hp⟩, by simp, by simp⟩
    | fut f => exact ⟨.inl ⟨g', hp⟩, by simp, by simp⟩
    | table g₀ => cases hp
    | pool j => cases hp
  · by_cases hg : g' = g
    · subst hg
      simp [htab] at ht
    · refine ⟨.inr ⟨g', rfl, ?_⟩, by simp, by simpa using hg⟩
      simpa [hg] using ht

/-- An observation that changes lends nothing that it did not lend before. -/
theorem lends_setObs {o : ObsId} {st : ObsState O}
    (hst : ∀ p, st.at? = some p → (w.obs o).at? = some p)
    (h : ({ w with obs := Function.update w.obs o st } : World K O W bits).Lends y i) :
    w.Lends y i ∧ (y = .obs o → st.at? ≠ none) := by
  rcases h with ⟨g', hp⟩ | ⟨g', rfl, ht⟩
  · cases y with
    | obs o' =>
      by_cases ho : o' = o
      · subst ho
        have hat : st.at? = some (i, g') := by simpa [pin] using hp
        exact ⟨.inl ⟨g', hst _ hat⟩, fun _ hnone => by rw [hnone] at hat; cases hat⟩
      · refine ⟨.inl ⟨g', ?_⟩, fun heq => absurd heq (by simpa using ho)⟩
        simpa [pin, ho] using hp
    | subject g₀ => exact ⟨.inl ⟨g', hp⟩, by simp⟩
    | fut f => exact ⟨.inl ⟨g', hp⟩, by simp⟩
    | table g₀ => cases hp
    | pool j => cases hp
  · exact ⟨.inr ⟨g', rfl, ht⟩, by simp⟩

theorem lends_setFut {f : FutId}
    (h : ({ w with futs := Function.update w.futs f .gone } : World K O W bits).Lends y i) :
    w.Lends y i ∧ y ≠ .fut f := by
  rcases h with ⟨g', hp⟩ | ⟨g', rfl, ht⟩
  · cases y with
    | fut f' =>
      by_cases hf : f' = f
      · subst hf
        simp [pin, FutState.at?] at hp
      · refine ⟨.inl ⟨g', ?_⟩, by simpa using hf⟩
        simpa [pin, hf] using hp
    | subject g₀ => exact ⟨.inl ⟨g', hp⟩, by simp⟩
    | obs o => exact ⟨.inl ⟨g', hp⟩, by simp⟩
    | table g₀ => cases hp
    | pool j => cases hp
  · exact ⟨.inr ⟨g', rfl, ht⟩, by simp⟩

/-- The pins and the entries are those of before. -/
theorem lends_of_same (hpin : ∀ y, w'.pin y = w.pin y)
    (htab : ∀ g, (w'.auth g).table? = (w.auth g).table?) (h : w'.Lends y i) : w.Lends y i := by
  rcases h with ⟨g', hp⟩ | ⟨g', rfl, ht⟩
  · exact .inl ⟨g', by rw [← hpin, hp]⟩
  · exact .inr ⟨g', rfl, by rw [← htab, ht]⟩

theorem lends_newObs (h : (w.newObs i g).Lends y j) :
    y = .obs w.nextObs ∧ j = i ∨ w.Lends y j := by
  rcases h with ⟨g', hp⟩ | ⟨g', rfl, ht⟩
  · rw [newObs_pin] at hp
    split at hp
    · rename_i hy
      cases hp
      exact .inl ⟨hy, rfl⟩
    · exact .inr (.inl ⟨g', hp⟩)
  · exact .inr (.inr ⟨g', rfl, ht⟩)

/-- The future lends what the observation has lent. -/
theorem lends_intoFuture {o : ObsId} (h : (w.intoFuture o i g).Lends y j) :
    y = .fut w.nextFut ∧ j = i ∨ w.Lends y j := by
  rcases h with ⟨g', hp⟩ | ⟨g', rfl, ht⟩
  · rw [intoFuture_pin] at hp
    split at hp
    · rename_i hy
      cases hp
      exact .inl ⟨hy, rfl⟩
    · split at hp
      · cases hp
      · exact .inr (.inl ⟨g', hp⟩)
  · exact .inr (.inr ⟨g', rfl, ht⟩)

/-- A new generation lends its slot through its authority and its entry. -/
theorem lends_claim {a : Authority K bits} {m : SmallMap K bits} (hcur : a.current? = some i)
    (htab : ∀ k, a.table? = some k → k = i) (h : (w.claim i a m).Lends y j) :
    (y = .subject w.nextGen ∨ y = .table w.nextGen) ∧ j = i ∨ w.Lends y j := by
  rcases h with ⟨g', hp⟩ | ⟨g', rfl, ht⟩
  · rw [claim_pin m hcur] at hp
    split at hp
    · rename_i hy
      cases hp
      exact .inl ⟨.inl hy, rfl⟩
    · exact .inr (.inl ⟨g', hp⟩)
  · by_cases hg : g' = w.nextGen
    · subst hg
      refine .inl ⟨.inr rfl, htab j ?_⟩
      simpa [World.claim] using ht
    · refine .inr (.inr ⟨g', rfl, ?_⟩)
      simpa [World.claim, hg] using ht

/-- A slot that is lent is pinned. -/
theorem pin_of_lends (hy : w.Lends y i) : ∃ z g, w.pin z = some (i, g) := by
  rcases hy with ⟨g, hp⟩ | ⟨g, rfl, ht⟩
  · exact ⟨y, g, hp⟩
  · refine ⟨.subject g, g, ?_⟩
    cases ha : w.auth g <;> rw [ha] at ht <;> cases ht
    simp [pin, ha, Authority.current?]

variable [WillWake W]

/-- Whoever lends a slot has a handle of it. -/
theorem Inv.of_lends (h : w.Inv) (hy : w.Lends y i) : w.arcs.of y = some i := by
  rw [h.held]
  rcases hy with ⟨g, hp⟩ | ⟨g, rfl, ht⟩
  · exact handle_of_pin hp
  · exact ht

/-- A slot that is lent is not in the pool. -/
theorem Inv.lends_not_pooled (h : w.Inv) (hy : w.Lends y i) : i ∉ w.pool := by
  intro hi
  obtain ⟨z, g, hp⟩ := pin_of_lends hy
  exact h.pooled.free i hi z g hp

theorem Aside.lends (h : Aside w w') (hy : w'.Lends y i) : w.Lends y i := by
  cases h with
  | @complete g k n i v ha =>
    refine lends_of_same (pin_setCompleted (ha ▸ .subject)) (fun g' => ?_) hy
    by_cases hg : g' = g
    · subst hg
      simp [ha, Authority.table?]
    · simp [hg]
  | @publish g i v ha =>
    refine lends_of_same (pin_setCompleted (ha ▸ .publisher)) (fun g' => ?_) hy
    by_cases hg : g' = g
    · subst hg
      simp [ha, Authority.table?]
    · simp [hg]
  | releaseInner ha => exact (lends_setAuth rfl rfl hy).1
  | published ha hrest => exact (lends_setAuth rfl rfl hy).1
  | dropPublisher ha => exact (lends_setAuth rfl rfl hy).1
  | _ => exact lends_of_same (fun z => by cases z <;> rfl) (fun _ => rfl) hy

end World

open World

variable [WillWake W] {l : CountOrders} {a : ArcOrders} {x : ArcWorld K O W bits}
  {w w' : World K O W bits} {m m' : ArcMem Owner SlotId}

/-- What the next steps make is not lent yet. -/
theorem ArcWorld.Sound.lends_old (h : (⟨w, m⟩ : ArcWorld K O W bits).Sound a) {y : Owner}
    {i : SlotId} (hy : w.Lends y i) : y ≠ .subject w.nextGen ∧ y ≠ .table w.nextGen ∧ y ≠ .obs w.nextObs ∧
      y ≠ .fut w.nextFut := by
  have hof := h.inv.of_lends hy
  obtain ⟨hsub, htab, hobs, hfut⟩ := h.next_free
  have hne (z : Owner) (hz : w.arcs.of z = none) : y ≠ z := by
    rintro rfl
    rw [hz] at hof
    cases hof
  exact ⟨hne _ hsub, hne _ htab, hne _ hobs, hne _ hfut⟩

omit [WillWake W] in
/-- What those who are about to access a slot know. -/
structure ArcWorld.Ordered (x : ArcWorld K O W bits) : Prop where
  /-- `reset` will come after every access of the slot, -/
  pooled : ∀ i ∈ x.world.pool, x.mem.Covers (x.mem.view (.pool i)) i
  /-- and a call after every `reset`. -/
  lent : ∀ y i, x.world.Lends y i → x.mem.clock (.owned i) ≤ x.mem.lent y (.owned i)
  ordered : ¬ x.mem.unordered

namespace ArcWorld.Ordered

omit [WillWake W] in
/-- Every borrower knows what an earlier one of the same slot knew, and the slot has not been taken
by anybody. -/
theorem of_keeps (ho : (⟨w, m⟩ : ArcWorld K O W bits).Ordered)
    (hpool : ∀ j ∈ w'.pool, j ∈ w.pool ∧ m.Keeps m' (.pool j) j)
    (hlends : ∀ y j, w'.Lends y j → ∃ z, w.Lends z j ∧ m.lent z ≤ m'.lent y ∧
      m'.clock (.owned j) = m.clock (.owned j))
    (hord : ¬ m'.unordered) : (⟨w', m'⟩ : ArcWorld K O W bits).Ordered where
  pooled j hj := by
    obtain ⟨hold, hkeeps⟩ := hpool j hj
    exact hkeeps.covers (ho.pooled j hold)
  lent y j hy := by
    obtain ⟨z, hz, hle, hclock⟩ := hlends y j hy
    show m'.clock _ ≤ m'.lent y _
    rw [hclock]
    exact (ho.lent z j hz).trans (hle _)
  ordered := hord

omit [WillWake W] in
theorem lends_keeps {y : Owner} {j : SlotId} (hy : w.Lends y j) (hk : m.Keeps m' y j) :
    ∃ z, w.Lends z j ∧ m.lent z ≤ m'.lent y ∧ m'.clock (.owned j) = m.clock (.owned j) :=
  ⟨y, hy, hk.lent, hk.clock (.owned j) rfl⟩

/-- A handle is dropped. -/
theorem drop (ho : (⟨w, m⟩ : ArcWorld K O W bits).Ordered)
    (h : (⟨w, m⟩ : ArcWorld K O W bits).Sound a) (hdoc : a.Documented) {v : World K O W bits}
    {y : Owner} {i : SlotId} (hy : w.arcs.of y = some i) (b : Bool) (hpool : ∀ j ∈ v.pool, j ∈ w.pool ∧ y ≠ .pool j)
    (hlends : ∀ z j, v.Lends z j → w.Lends z j ∧ z ≠ y) :
    (⟨v.release y b, m.drop a y i⟩ : ArcWorld K O W bits).Ordered := by
  refine ho.of_keeps (fun j hj => ?_) (fun z j hz => ?_) ?_
  · obtain ⟨hold, hne⟩ := hpool j hj
    exact ⟨hold, ArcMem.keeps_drop h.ok hy (h.of_pool hold) (Ne.symm hne)⟩
  · have hz' : v.Lends z j := lends_of_same (fun y => by cases y <;> rfl) (fun _ => rfl) hz
    obtain ⟨hold, hne⟩ := hlends z j hz'
    exact lends_keeps hold (ArcMem.keeps_drop h.ok hy (h.inv.of_lends hold) hne)
  · rw [h.ok.unordered_drop hdoc hy]
    exact ho.ordered

theorem dropPopped (ho : (⟨w, m⟩ : ArcWorld K O W bits).Ordered)
    (h : (⟨w, m⟩ : ArcWorld K O W bits).Sound a) (hdoc : a.Documented) {v : World K O W bits}
    (b : Bool) (hpool : v.pool = w.pool) (hlends : ∀ z j, v.Lends z j → w.Lends z j) :
    (⟨v.dropPopped b, w.dropPoppedMem m a⟩ : ArcWorld K O W bits).Ordered := by
  unfold World.dropPopped World.dropPoppedMem
  rw [hpool]
  cases hp : w.pool with
  | nil =>
    refine ho.of_keeps (fun j hj => ?_) (fun z j hz => lends_keeps (hlends z j hz) (.refl ..))
      ho.ordered
    rw [hpool] at hj
    exact ⟨hj, .refl ..⟩
  | cons i rest =>
    have hnd : (i :: rest).Nodup := hp ▸ h.inv.pooled.nodup
    refine ho.drop h hdoc (h.of_pool (by rw [hp]; exact List.mem_cons_self)) b (fun j hj => ?_)
      fun z j hz => ?_
    · have hne : j ≠ i := by
        rintro rfl
        exact (List.nodup_cons.mp hnd).1 hj
      refine ⟨by rw [hp]; exact List.mem_cons_of_mem _ hj, ?_⟩
      simpa using Ne.symm hne
    · have hz' : v.Lends z j := lends_of_same (fun y => by cases y <;> rfl) (fun _ => rfl) hz
      refine ⟨hlends z j hz', ?_⟩
      rintro rfl
      exact not_lends_pool hz'

omit [WillWake W] in
/-- A new authority on slot `i`, whose handle is cloned for `y`. -/
theorem claim (ho : (⟨w, m⟩ : ArcWorld K O W bits).Ordered) (m' : ArcMem Owner SlotId) {i : SlotId}
    {y : Owner} {v : World K O W bits}
    (hpool : ∀ j ∈ v.pool, j ∈ w.pool ∧ m.Keeps m' (.pool j) j)
    (hy : y = .table w.nextGen ∨ y = .obs w.nextObs)
    (hlends : ∀ z j, v.Lends z j → (z = .subject w.nextGen ∨ z = y) ∧ j = i ∨
      w.Lends z j ∧ z ≠ .subject w.nextGen ∧ z ≠ y ∧ m.Keeps m' z j)
    (hnew : m'.clock (.owned i) ≤ m'.lent (.subject w.nextGen) (.owned i))
    (hord : ¬ m'.unordered) :
    (⟨v, m'.clone a (.subject w.nextGen) y i⟩ : ArcWorld K O W bits).Ordered where
  pooled j hj := by
    obtain ⟨hold, hkeeps⟩ := hpool j hj
    have hne : Owner.pool j ≠ y := by rcases hy with rfl | rfl <;> simp
    exact (hkeeps.trans (ArcMem.keeps_clone hne)).covers (ho.pooled j hold)
  lent z j hz := by
    have hsub : Owner.subject w.nextGen ≠ y := by rcases hy with rfl | rfl <;> simp
    show m'.clock (.owned j) ≤ _
    rcases hlends z j hz with ⟨hz', rfl⟩ | ⟨hold, -, hzy, hkeeps⟩
    · rcases hz' with rfl | rfl
      · exact hnew.trans ((ArcMem.keeps_clone (j := j) hsub).lent _)
      · exact hnew.trans (ArcMem.lent_le_clone _)
    · exact (hkeeps.owned (ho.lent z j hold)).trans ((ArcMem.keeps_clone (j := j) hzy).lent _)
  ordered := hord

/-- `subject` takes a pooled slot in order, and hands `reset` on to the new generation. -/
theorem subject (ho : (⟨w, m⟩ : ArcWorld K O W bits).Ordered)
    (h : (⟨w, m⟩ : ArcWorld K O W bits).Sound a) (hdoc : a.Documented) (key : K) :
    (⟨(w.subject key).1, w.subjectMem m a key⟩ : ArcWorld K O W bits).Ordered := by
  have hcases := w.subject_cases key
  unfold World.subjectMem
  generalize w.subject key = r at hcases ⊢
  cases hcases with
  | conflict hkey =>
    rw [hkey]
    exact ho
  | exhausted hkey hmax =>
    rw [hkey, if_pos rfl, if_pos hmax]
    exact ho.dropPopped h hdoc (v := w.drawNumber) true rfl fun z j hz =>
      lends_of_same (fun y => by cases y <;> rfl) (fun _ => rfl) hz
  | @recycled i rest hkey hmax hpool =>
    rw [hkey, if_pos rfl, if_neg hmax, hpool]
    have hmem : i ∈ w.pool := by rw [hpool]; exact List.mem_cons_self
    have hnd : (i :: rest).Nodup := hpool ▸ h.inv.pooled.nodup
    refine ho.claim ((m.take (.pool i) i).move (.pool i) (.subject w.nextGen))
      (fun j hj => ?_) (.inl rfl) (fun z j hz => ?_) ?_ ?_
    · have hne : j ≠ i := by
        rintro rfl
        exact (List.nodup_cons.mp hnd).1 hj
      refine ⟨by rw [hpool]; exact List.mem_cons_of_mem _ hj, ?_⟩
      exact (ArcMem.keeps_take (by simpa using hne) hne).trans (ArcMem.keeps_own_of_ne (by simp))
    · rcases lends_claim (a := .subject key w.nextGeneration _ false) rfl
        (fun k hk => by cases hk; rfl) hz with hnew | hz'
      · exact .inl hnew
      · have hold : w.Lends z j := lends_of_same (fun y => by cases y <;> rfl) (fun _ => rfl) hz'
        obtain ⟨hsub, htab, -⟩ := h.lends_old hold
        have hji : j ≠ i := by
          rintro rfl
          exact h.inv.lends_not_pooled hold hmem
        have hzi : z ≠ .pool i := by
          rintro rfl
          exact not_lends_pool hold
        exact .inr ⟨hold, hsub, htab,
          (ArcMem.keeps_take hzi hji).trans (ArcMem.keeps_own_of_ne hsub)⟩
    · -- `reset` is known to the subject
      rw [ArcMem.move, ArcMem.lent_own]
      exact ArcMem.clock_le_view_take
    · exact not_or.mpr ⟨ho.ordered, not_not_intro (ho.pooled i hmem)⟩
  | fresh hkey hmax hpool =>
    rw [hkey, if_pos rfl, if_neg hmax, hpool]
    refine ho.claim (m.make w.nextSlot) (fun j hj => ⟨hj, ArcMem.keeps_make _⟩) (.inl rfl)
      (fun z j hz => ?_) ?_ ho.ordered
    · rcases lends_claim (a := .subject key w.nextGeneration _ false) rfl
        (fun k hk => by cases hk; rfl) hz with hnew | hz'
      · exact .inl hnew
      · have hold : w.Lends z j := lends_of_same (fun y => by cases y <;> rfl) (fun _ => rfl) hz'
        obtain ⟨hsub, htab, -⟩ := h.lends_old hold
        exact .inr ⟨hold, hsub, htab, ArcMem.keeps_make _⟩
    · exact ((h.fresh w.nextSlot le_rfl).clock (.owned w.nextSlot) rfl).le.trans (Nat.zero_le _)

theorem pair (ho : (⟨w, m⟩ : ArcWorld K O W bits).Ordered)
    (h : (⟨w, m⟩ : ArcWorld K O W bits).Sound a) :
    (⟨w.pair, w.pairMem m a⟩ : ArcWorld K O W bits).Ordered := by
  refine ho.claim (m.make w.nextSlot) (fun j hj => ⟨hj, ArcMem.keeps_make _⟩) (.inr rfl)
    (fun z j hz => ?_) ?_ ho.ordered
  · rcases lends_newObs hz with ⟨hz', hj⟩ | hz'
    · exact .inl ⟨.inr hz', hj⟩
    · rcases lends_claim (a := .publisher w.nextSlot) rfl (fun k hk => by cases hk) hz' with
        ⟨hz'', hj⟩ | hz''
      · rcases hz'' with hz'' | rfl
        · exact .inl ⟨.inl hz'', hj⟩
        · -- a publisher has no entry
          rcases hz' with ⟨g, hp⟩ | ⟨g, hg, ht⟩
          · cases hp
          · cases hg
            simp [World.claim, World.newSlot, Authority.table?] at ht
      · have hold : w.Lends z j := lends_of_same (fun y => by cases y <;> rfl) (fun _ => rfl) hz''
        obtain ⟨hsub, -, hobs, -⟩ := h.lends_old hold
        exact .inr ⟨hold, hsub, hobs, ArcMem.keeps_make _⟩
  · exact ((h.fresh w.nextSlot le_rfl).clock (.owned w.nextSlot) rfl).le.trans (Nat.zero_le _)

/-- The clone of a handle knows what the handle's borrowers knew. -/
theorem newObs (ho : (⟨w, m⟩ : ArcWorld K O W bits).Ordered)
    (h : (⟨w, m⟩ : ArcWorld K O W bits).Sound a) {y : Owner} {i : SlotId} (hy : w.Lends y i)
    (g : Gen) :
    (⟨w.newObs i g, m.clone a y (.obs w.nextObs) i⟩ : ArcWorld K O W bits).Ordered := by
  refine ho.of_keeps (fun j hj => ⟨hj, ArcMem.keeps_clone (by simp)⟩) (fun z j hz => ?_) ho.ordered
  rcases lends_newObs hz with ⟨rfl, rfl⟩ | hold
  · exact ⟨y, hy, ArcMem.lent_le_clone, rfl⟩
  · exact lends_keeps hold (ArcMem.keeps_clone (h.lends_old hold).2.2.1)

theorem intoFuture (ho : (⟨w, m⟩ : ArcWorld K O W bits).Ordered)
    (h : (⟨w, m⟩ : ArcWorld K O W bits).Sound a) {o : ObsId} {i : SlotId} {g : Gen}
    (hobs : w.obs o = .live i g) :
    (⟨w.intoFuture o i g, m.move (.obs o) (.fut w.nextFut)⟩ : ArcWorld K O W bits).Ordered := by
  refine ho.of_keeps (fun j hj => ⟨hj, ArcMem.keeps_own_of_ne (by simp)⟩) (fun z j hz => ?_)
    ho.ordered
  rcases lends_intoFuture hz with ⟨rfl, rfl⟩ | hold
  · refine ⟨.obs o, .inl ⟨g, pin_obs hobs⟩, ?_, rfl⟩
    rw [ArcMem.move, ArcMem.lent_own]
    exact h.ok.lent (.obs o)
  · exact lends_keeps hold (ArcMem.keeps_own_of_ne (h.lends_old hold).2.2.2)

/-- A call in flight uses its slot. -/
theorem use (ho : (⟨w, m⟩ : ArcWorld K O W bits).Ordered)
    (h : (⟨w, m⟩ : ArcWorld K O W bits).Sound a) {i : SlotId} {y : Owner} {g : Gen}
    (hy : w.pin y = some (i, g)) (s : SlotSys O W) (e : Env) :
    (⟨{ w.setSlot i s with env := e }, m.use y i⟩ : ArcWorld K O W bits).Ordered := by
  have hlends : w.Lends y i := .inl ⟨g, hy⟩
  refine ho.of_keeps (fun j hj => ⟨hj, ArcMem.keeps_use ?_ _⟩) (fun z j hz => ?_)
    (not_or.mpr ⟨ho.ordered, (ho.lent y i hlends).not_gt⟩)
  · rintro rfl
    exact h.inv.lends_not_pooled hlends hj
  · have hold : w.Lends z j := lends_of_same (fun y => by cases y <;> rfl) (fun _ => rfl) hz
    refine ⟨z, hold, le_rfl, ?_⟩
    show Function.update m.clock (.used i y) (m.clock (.used i y) + 1) (.owned j) = _
    exact Function.update_of_ne (by simp) ..

theorem aside (ho : (⟨w, m⟩ : ArcWorld K O W bits).Ordered) (hs : Aside w w') :
    (⟨w', m⟩ : ArcWorld K O W bits).Ordered := by
  refine ho.of_keeps (fun j hj => ⟨?_, .refl ..⟩)
    (fun z j hz => lends_keeps (hs.lends hz) (.refl ..)) ho.ordered
  cases hs <;> exact hj

/-! ## The two loads -/

section Loads

variable {k : Nat} {msg : Message (ArcLoc Owner SlotId) Nat} {o : MemOrder}

section Retire

variable {g : Gen} {key : K} {n : BitVec bits} {i : SlotId} {c : Bool}

/-- Others keep what they know when an entry is dropped. -/
theorem keeps_unlistMem (h : (⟨w, m⟩ : ArcWorld K O W bits).Sound a)
    (ha : w.auth g = .subject key n i c) {z : Owner} {j : SlotId} (hz : w.arcs.of z = some j)
    (hsub : z ≠ .subject g) (htab : z ≠ .table g) : m.Keeps (unlistMem m a g i) z j := by
  have hof := h.of_table (g := g) (i := i) (by rw [ha]; rfl)
  have hdrop := ArcMem.keeps_drop (h.ok.join (.table g) (.subject g)) hof hz htab
  exact (ArcMem.keeps_own_of_ne htab).trans (hdrop.trans (ArcMem.keeps_own_of_ne hsub))

/-- The drop of an entry is in order. -/
theorem unordered_unlistMem (h : (⟨w, m⟩ : ArcWorld K O W bits).Sound a) (hdoc : a.Documented)
    (ha : w.auth g = .subject key n i c) : (unlistMem m a g i).unordered ↔ m.unordered :=
  (h.ok.join (.table g) (.subject g)).unordered_drop hdoc (h.of_table (by rw [ha]; rfl))

omit [WillWake W] in
theorem lends_unlist {y : Owner} {j : SlotId} (hy : (w.unlist g key n i).Lends y j) :
    w.Lends y j ∧ y ≠ .subject g ∧ y ≠ .table g := by
  have hset : ({ w with auth := Function.update w.auth g (.retired i) } :
      World K O W bits).Lends y j := lends_of_same (fun z => by cases z <;> rfl) (fun _ => rfl) hy
  exact lends_setAuth rfl rfl hset

/-- The entry is gone, and nothing is pooled. -/
theorem unlist (ho : (⟨w, m⟩ : ArcWorld K O W bits).Ordered)
    (h : (⟨w, m⟩ : ArcWorld K O W bits).Sound a) (hdoc : a.Documented)
    (ha : w.auth g = .subject key n i c) :
    (⟨w.unlist g key n i, (unlistMem m a g i).load (.subject g) i o k msg⟩ :
      ArcWorld K O W bits).Ordered := by
  refine ho.of_keeps (fun j hj => ⟨hj, ?_⟩) (fun z j hz => ?_) ?_
  · exact (keeps_unlistMem h ha (h.of_pool hj) (by simp) (by simp)).trans
      (ArcMem.keeps_own_of_ne (by simp))
  · obtain ⟨hold, hsub, htab⟩ := lends_unlist hz
    exact lends_keeps hold ((keeps_unlistMem h ha (h.inv.of_lends hold) hsub htab).trans
      (ArcMem.keeps_own_of_ne hsub))
  · exact (unordered_unlistMem h hdoc ha).not.mpr ho.ordered

/-- With an acquire load of `strong_count` a slot is pooled in order. -/
theorem retire (ho : (⟨w, m⟩ : ArcWorld K O W bits).Ordered)
    (h : (⟨w, m⟩ : ArcWorld K O W bits).Sound a) (hdoc : a.Documented)
    (ha : w.auth g = .subject key n i c)
    (hr : ((unlistMem m a g i).count i).Reads (.count i) ((unlistMem m a g i).view (.subject g)) k
      msg)
    (hacq : o.acquires = true) :
    (⟨w.retireSeeing g key n i msg.val, w.retireMem m a g i o k msg⟩ :
      ArcWorld K O W bits).Ordered := by
  have hunlist : (⟨w.unlist g key n i, (unlistMem m a g i).load (.subject g) i o k msg⟩ :
      ArcWorld K O W bits).Ordered := ho.unlist h hdoc ha
  rw [h.inv.retireSeeing_eq ha]
  unfold World.retireMem
  split
  · rename_i hpush
    have hcov := (h.unlist_ok ha).covers_load hdoc.releases (h.unlist_of_subject ha) hr hpush.1 hacq
    have hlends : w.Lends (.subject g) i := .inl ⟨g, by simp [pin, ha, Authority.current?]⟩
    refine ⟨fun j hj => ?_, fun y j hy => ?_, hunlist.ordered⟩
    · rcases List.mem_cons.mp hj with rfl | hold
      · -- the pool knows what the load has acquired
        intro ℓ hℓ
        refine (hcov ℓ hℓ).trans (le_trans ?_ (ArcMem.lent_le_view_clone ℓ))
        rw [ArcMem.load, ArcMem.view_own, ArcMem.lent_own]
      · have hne : j ≠ i := by
          rintro rfl
          exact h.inv.lends_not_pooled hlends hold
        exact (ArcMem.keeps_clone (by simpa using hne)).covers (hunlist.pooled j hold)
    · have hold : (w.unlist g key n i).Lends y j :=
        lends_of_same (fun z => by cases z <;> rfl) (fun _ => rfl) hy
      have hne : y ≠ .pool i := by
        rintro rfl
        exact not_lends_pool hold
      exact (ArcMem.keeps_clone hne).owned (hunlist.lent y j hold)
  · exact hunlist

end Retire

/-- With an acquire load of `try_unwrap` an outcome is taken in order. -/
theorem intoOutcome (ho : (⟨w, m⟩ : ArcWorld K O W bits).Ordered)
    (h : (⟨w, m⟩ : ArcWorld K O W bits).Sound a) (hdoc : a.Documented) {b : ObsId} {i : SlotId}
    {g : Gen} (hobs : w.obs b = .live i g) (hr : (m.count i).Reads (.count i) (m.view (.obs b)) k msg)
    (hacq : o.acquires = true) :
    (⟨(w.intoOutcomeSeeing b i g msg.val).1, intoOutcomeMem m b i o k msg⟩ :
      ArcWorld K O W bits).Ordered := by
  have hof := h.of_obs (o := b) (i := i) (g := g) (by rw [hobs]; rfl)
  unfold intoOutcomeSeeing intoOutcomeMem
  split
  · rename_i hone
    have hsole := (w.arcs.count_eq_one_iff hof).mp (h.ok.sole_of_reads hof hr hone)
    have hkeeps {z : Owner} {j : SlotId} (hz : w.arcs.of z = some j) (hzb : z ≠ .obs b) :
        m.Keeps ((m.load (.obs b) i o k msg).take (.obs b) i) z j := by
      have hji : j ≠ i := by
        rintro rfl
        exact hzb (hsole z hz)
      exact (ArcMem.keeps_own_of_ne hzb).trans (ArcMem.keeps_take hzb hji)
    refine ho.of_keeps (fun j hj => ⟨hj, hkeeps (h.of_pool hj) (by simp)⟩) (fun z j hz => ?_) ?_
    · have hset : ({ w with obs := Function.update w.obs b (.gone g (some (w.unwrapped i))) } :
          World K O W bits).Lends z j :=
        lends_of_same (fun y => by cases y <;> rfl) (fun _ => rfl) hz
      obtain ⟨hold, hne⟩ := lends_setObs (by simp [ObsState.at?]) hset
      exact lends_keeps hold (hkeeps (h.inv.of_lends hold) fun heq => hne heq rfl)
    · exact not_or.mpr ⟨ho.ordered, not_not_intro (h.ok.covers_load hdoc.releases hof hr hone hacq)⟩
  · have hkeeps (z : Owner) (j : SlotId) : m.Keeps (m.load (.obs b) i o k msg) z j :=
      ArcMem.keeps_own (h.ok.lent _) History.le_learn z j
    refine ho.of_keeps (fun j hj => ⟨hj, hkeeps _ _⟩) (fun z j hz => ?_) ho.ordered
    have hold := (lends_setObs (by simp [hobs, ObsState.at?]) hz).1
    exact lends_keeps hold (hkeeps z j)

end Loads

/-- With two acquire loads every step is in order. -/
theorem step (ho : (⟨w, m⟩ : ArcWorld K O W bits).Ordered)
    (h : (⟨w, m⟩ : ArcWorld K O W bits).Sound l.arc) (hdoc : l.arc.Documented)
    (hcount : l.strongCount.acquires = true) (hunwrap : l.tryUnwrap.acquires = true)
    (hs : CountedStep l ⟨w, m⟩ ⟨w', m'⟩) :
    (⟨w', m'⟩ : ArcWorld K O W bits).Ordered := by
  cases hs with
  | aside haside => exact ho.aside haside
  | subject key => exact ho.subject h hdoc key
  | unwind => exact ho.dropPopped h hdoc true rfl fun _ _ => id
  | observe key =>
    unfold World.observe World.observeMem
    cases he : w.map.get key with
    | none => exact ho
    | some e =>
      obtain ⟨k', c, -, ha⟩ := h.inv.mapped.find key e he
      exact ho.newObs h (.inr ⟨e.gen, rfl, by rw [ha]; rfl⟩) e.gen
  | dropPooled => exact ho.dropPopped h hdoc false rfl fun _ _ => id
  | retire ha hrest hr => exact ho.retire h hdoc ha hr hcount
  | releaseSubject ha =>
    refine ho.drop h hdoc (h.of_subject (by rw [ha]; rfl)) false (fun j hj => ⟨hj, by simp⟩)
      fun z j hz => ?_
    have hold := lends_setAuth rfl rfl hz
    exact ⟨hold.1, hold.2.1⟩
  | pair => exact ho.pair h
  | cloneObs hobs => exact ho.newObs h (.inl ⟨_, pin_obs hobs⟩) _
  | callStep i p hstep =>
    obtain ⟨g, hp⟩ := h.of_owner hstep
    exact ho.use h hp _ _
  | intoFuture hobs hb => exact ho.intoFuture h hobs
  | releaseFuture hf hdead =>
    exact ho.drop h hdoc (h.of_fut (by rw [hf]; rfl)) false (fun j hj => ⟨hj, by simp⟩)
      fun z j hz => lends_setFut hz
  | dropObs hobs hb =>
    refine ho.drop h hdoc (h.of_obs (by rw [hobs]; rfl)) false (fun j hj => ⟨hj, by simp⟩)
      fun z j hz => ?_
    obtain ⟨hold, hne⟩ := lends_setObs (by simp [ObsState.at?]) hz
    exact ⟨hold, fun heq => hne heq rfl⟩
  | intoOutcome hobs hb hr => exact ho.intoOutcome h hdoc hobs hr hunwrap
  | dropRefused hobs =>
    refine ho.drop h hdoc (h.of_obs (by rw [hobs]; rfl)) false (fun j hj => ⟨hj, by simp⟩)
      fun z j hz => ?_
    obtain ⟨hold, hne⟩ := lends_setObs (by simp [ObsState.at?]) hz
    exact ⟨hold, fun heq => hne heq rfl⟩

omit [WillWake W] in
theorem new (e : Env) : (⟨World.new e, .empty⟩ : ArcWorld K O W bits).Ordered where
  pooled i hi := by cases hi
  lent y i _ := Nat.zero_le _
  ordered := id

end ArcWorld.Ordered

/-- With two acquire loads every reachable state is in order. -/
theorem countedSystem_ordered (hdoc : l.arc.Documented) (hcount : l.strongCount.acquires = true)
    (hunwrap : l.tryUnwrap.acquires = true) (h : (countedSystem K O W bits l).Reachable x) :
    x.Ordered := by
  have hind : (countedSystem K O W bits l).Inductive fun x => x.Sound l.arc ∧ x.Ordered := by
    refine ⟨fun x hx => ?_, fun x x' hx hs => ⟨hx.1.step hs, hx.2.step hx.1 hdoc hcount hunwrap hs⟩⟩
    obtain ⟨e, rfl⟩ := hx
    exact ⟨.new e, .new e⟩
  exact (hind.reachable h).2

/-! ## Without acquire -/

/-- An observer reads the outcome and drops its handle; `Subject::drop` reads one, and learns
nothing; `reset` drops the outcome. -/
theorem strongCount_run {l : CountOrders} (hdoc : l.arc.Documented)
    (hl : l.strongCount.acquires = false) :
    ∃ x : ArcWorld Nat Nat Nat 64, (countedSystem Nat Nat Nat 64 l).Reachable x ∧
      x.mem.unordered := by
  have h₀ : (countedSystem Nat Nat Nat 64 l).Reachable _ := .init ⟨⟨fun _ => false, 0⟩, rfl⟩
  have h₁ := h₀.step (.subject 7 (by decide))
  have h₂ := h₁.step (.observe 7 (by decide))
  have h₃ := h₂.step (.aside (.complete (g := 1) 42 rfl))
  have h₄ := h₃.step (.callStep 0 .completer (.write rfl))
  have h₅ := h₄.step (.callStep 0 .completer (.publish_alone rfl rfl))
  have h₆ := h₅.step (.aside (.call (o := 0) 0 .tryGet rfl fun i => by rcases i with _ | i <;> rfl))
  have h₇ := h₆.step (.callStep 0 (.thread 0) (.tryGet_done rfl rfl))
  have h₈ := h₇.step (.callStep 0 (.thread 0) (.read rfl rfl))
  have h₉ := h₈.step (.dropObs (o := 0) rfl fun i t hact => by
    rcases i with _ | i <;> rcases t with _ | t <;> cases hact)
  have hok := (countedSystem_sound h₉).unlist_ok (g := 1) rfl
  have h₁₀ := h₉.step (.retire (g := 1) rfl rfl (History.reads_last (hok.bounded (.subject 1) 0)))
  have h₁₁ := h₁₀.step (.subject 8 Nat.zero_lt_one)
  refine ⟨_, h₁₁, .inr fun hcov => ?_⟩
  have hle := hcov (.used 0 (.obs 0)) rfl
  obtain ⟨⟨inc, dec, last⟩, sc, tu⟩ := l
  obtain rfl : dec = .release := hdoc.decrement
  rcases MemOrder.relaxed_or_release hdoc.increment with rfl | rfl <;>
    rcases MemOrder.relaxed_or_release hl with rfl | rfl <;>
    exact absurd (show 2 ≤ 0 from hle) (by decide)

/-- The publisher has written the outcome and gone; the last observation reads one and moves the slot
out.  Where the load does not acquire, it has learnt nothing of the write. -/
theorem tryUnwrap_run (l : CountOrders) :
    ∃ x : ArcWorld Nat Nat Nat 64, (countedSystem Nat Nat Nat 64 l).Reachable x ∧
      x.world.obs 0 = .gone 1 (some (some 42)) ∧
      (l.arc.Documented → l.tryUnwrap.acquires = false → x.mem.unordered) := by
  have h₀ : (countedSystem Nat Nat Nat 64 l).Reachable _ := .init ⟨⟨fun _ => false, 0⟩, rfl⟩
  have h₁ := h₀.step .pair
  have h₂ := h₁.step (.aside (.publish (g := 1) 42 rfl))
  have h₃ := h₂.step (.callStep 0 .completer (.write rfl))
  have h₄ := h₃.step (.callStep 0 .completer (.publish_alone rfl rfl))
  have h₅ := h₄.step (.aside (.published (g := 1) rfl rfl))
  have h₆ := h₅.step (.releaseSubject (g := 1) rfl)
  have hok := (countedSystem_sound h₆).ok
  have h₇ := h₆.step (.intoOutcome (o := 0) rfl (fun i t hact => by
    rcases i with _ | i <;> cases hact) (History.reads_last (hok.bounded (.obs 0) 0)))
  refine ⟨_, h₇, rfl, fun hdoc hl => .inr fun hcov => ?_⟩
  have hle := hcov (.used 0 (.subject 1)) rfl
  obtain ⟨⟨inc, dec, last⟩, sc, tu⟩ := l
  obtain rfl : dec = .release := hdoc.decrement
  rcases MemOrder.relaxed_or_release hdoc.increment with rfl | rfl <;>
    rcases MemOrder.relaxed_or_release hl with rfl | rfl <;>
    exact absurd (show 2 ≤ 0 from hle) (by decide)

/-- **Ownership is ordered exactly when both loads acquire.** Where clones, drops and the last drop
have the orderings that `Arc` documents, every call comes after every `reset` of its slot, and every
`reset`, `into_outcome` and final drop after every call and every other one of these, in all runs of
all programs, exactly when the load of `strong_count` and the load of `try_unwrap` are acquire
loads. -/
theorem owned_ordered_iff (l : CountOrders) (hdoc : l.arc.Documented) :
    (∀ (K O W : Type) [Key K] [WillWake W] (bits : Nat) (x : ArcWorld K O W bits),
      (countedSystem K O W bits l).Reachable x → ¬ x.mem.unordered) ↔
    l.strongCount.acquires = true ∧ l.tryUnwrap.acquires = true := by
  constructor
  · intro hall
    constructor
    · by_contra hl
      obtain ⟨x, hx, hun⟩ := strongCount_run hdoc (by simpa using hl)
      exact hall Nat Nat Nat 64 x hx hun
    · by_contra hl
      obtain ⟨x, hx, -, hun⟩ := tryUnwrap_run l
      exact hall Nat Nat Nat 64 x hx (hun hdoc (by simpa using hl))
  · intro hl K O W _ _ bits x hx
    exact (countedSystem_ordered hdoc hl.1 hl.2 hx).ordered

/-- With acquire loads the outcome of a pair is moved out in order. -/
theorem acquired_outcome_ordered : ∃ x : ArcWorld Nat Nat Nat 64,
    x.world.obs 0 = .gone 1 (some (some 42)) ∧ ¬ x.mem.unordered := by
  obtain ⟨x, hx, hobs, -⟩ := tryUnwrap_run ⟨.standard, .acquire, .acquire⟩
  have hiff := owned_ordered_iff ⟨.standard, .acquire, .acquire⟩ ArcOrders.standard_documented
  exact ⟨x, hobs, hiff.mpr ⟨rfl, rfl⟩ Nat Nat Nat 64 x hx⟩

end Observe
