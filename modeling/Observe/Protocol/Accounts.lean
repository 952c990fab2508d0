import Observe.Protocol.Records
import Mathlib.Data.Finset.Card

/-!
# Who owns a registered waker

Until the drain, the entry of a task carries one owner for each future that has registered the task
and has not given it back, and is persistent exactly when `register_waker` has stored the task.  The
drain takes these entries, and wakes each of them once.
-/

namespace Observe

/-! ## Counting -/

/-- One more element passes the filter. -/
theorem card_filter_succ {α : Type*} {s : Finset α} {p q : α → Bool} {a : α} (ha : a ∈ s)
    (hp : p a = false) (hq : q a = true) (hother : ∀ i ∈ s, i ≠ a → p i = q i) :
    (s.filter (q · = true)).card = (s.filter (p · = true)).card + 1 := by
  classical
  have hsplit : s.filter (q · = true) = insert a (s.filter (p · = true)) := by
    ext i
    by_cases hi : i = a
    · simp [hi, ha, hq]
    · simp only [Finset.mem_filter, Finset.mem_insert, hi, false_or]
      constructor
      · rintro ⟨his, hqi⟩
        exact ⟨his, by rw [hother i his hi, hqi]⟩
      · rintro ⟨his, hpi⟩
        exact ⟨his, by rw [← hother i his hi, hpi]⟩
  rw [hsplit, Finset.card_insert_of_notMem (by simp [hp])]

variable {O W : Type}

def account (p : Bool) (n : Nat) : Option (Bool × Nat) :=
  if p || n != 0 then some (p, n) else none

@[simp] theorem account_persistent (p : Bool) (n : Nat) :
    ((account p n).map Prod.fst).getD false = p := by
  unfold account
  split <;> simp_all

@[simp] theorem account_futureOwners (p : Bool) (n : Nat) :
    ((account p n).map Prod.snd).getD 0 = n := by
  unfold account
  split <;> simp_all

/-- Giving back one owner, and dropping the entry that nobody is left for. -/
theorem account_released (p : Bool) (n : Nat) :
    (account p n).bind (fun e => Registry.released e.1 e.2) = account p (n - 1) := by
  unfold account Registry.released
  cases p <;> cases n <;> simp

theorem account_eq_some {p p' : Bool} {n n' : Nat} (h : account p n = some (p', n')) :
    p' = p ∧ n' = n := by
  unfold account at h
  split at h
  · cases h
    exact ⟨rfl, rfl⟩
  · cases h

/-- A task has an entry when it is registered directly or has an owner. -/
theorem account_isSome (p : Bool) (n : Nat) : (account p n).isSome = (p || n != 0) := by
  unfold account
  split <;> simp_all

/-! ## The drain -/

section Drain

def CompPc.rest : CompPc O W → Registry W
  | .unlock _ ws | .notify _ ws _ => ws
  | _ => []

def SlotSys.woken (s : SlotSys O W) : Registry W :=
  (s.notified.filter fun x => x.1 == s.gen).map Prod.snd

variable {e e' : Env} {s s' : SlotSys O W}

theorem SlotSys.woken_congr (hn : s'.notified = s.notified) (hg : s'.gen = s.gen) :
    s'.woken = s.woken := by
  unfold SlotSys.woken
  rw [hn, hg]

/-- Behind the drain a notification moves one entry from the rest to the notified ones. -/
theorem CompStep.drained (h : CompStep e s e' s') (hp : s.Published)
    (htk : s.comp.taken = true) (q : Waiter W → Bool) :
    s'.comp.taken = true ∧
      (s'.comp.rest ++ s'.woken).countP q = (s.comp.rest ++ s.woken).countP q := by
  have hcell := hp.cell
  cases h with
  | unpark hpc =>
    rw [hpc] at hcell
    refine ⟨rfl, ?_⟩
    simp only [SlotSys.goComp, SlotSys.noteNotified, SlotSys.woken, hpc, CompPc.rest, hcell.1,
      List.filter_cons, beq_self_eq_true, if_true, List.map_cons, List.countP_append,
      List.countP_cons]
    omega
  | wake panics hpc =>
    rw [hpc] at hcell
    refine ⟨rfl, ?_⟩
    simp only [SlotSys.goComp, SlotSys.noteNotified, SlotSys.woken, hpc, CompPc.rest, hcell.1,
      List.filter_cons, beq_self_eq_true, if_true, List.map_cons, List.countP_append,
      List.countP_cons]
    omega
  | _ => simp_all [CompPc.taken, CompPc.rest, SlotSys.woken]

/-- Up to the drain the completion notifies nobody. -/
theorem CompStep.pending (h : CompStep e s e' s') (htk : s'.comp.taken = false) :
    s.comp.taken = false ∧ s'.notified = s.notified ∧ s'.slot.registry = s.slot.registry := by
  cases h <;> simp_all [CompPc.taken, Slot.setOutcome, Slot.registry]

/-- The completion gets behind the drain with the registry in hand: nobody is in it when
`HAS_WAITER` was not set. -/
theorem CompStep.takes (h : CompStep e s e' s') (hw : s.Wf) (htk : s.comp.taken = false)
    (htk' : s'.comp.taken = true) :
    s'.comp.rest = s.slot.registry ∧ s'.slot.registry = [] ∧ s'.notified = s.notified := by
  cases h with
  | take hpc => exact ⟨rfl, rfl, rfl⟩
  | publish_alone hpc hno =>
    have hnil : s.slot.registry = [] := by
      by_contra hne
      have hwait := hw.announced.registry hne
      rw [hno] at hwait
      cases hwait
    exact ⟨hnil.symm, hnil, rfl⟩
  | _ => simp_all [CompPc.taken]

end Drain

/-! ## The invariant -/

section Accounts

variable [WillWake W]

/-- The future has registered the task of `w`, and did not give it back before the drain. -/
def Fut.owns (x : Fut W) (w : W) : Bool := known x.stored w && !(x.early && known x.wakers w)

namespace SlotSys

def owners (s : SlotSys O W) (w : W) : Nat := (s.futs.filter fun f => (s.fut f).owns w = true).card

structure Accounts (s : SlotSys O W) : Prop where
  distinct : s.slot.registry.Distinct
  entry : s.comp.taken = false →
    ∀ w, s.slot.registry.entry w = account (known s.direct w) (s.owners w)
  quiet : s.comp.taken = false → s.woken = []
  drained : s.comp.taken = true → ∀ w,
    (s.comp.rest ++ s.woken).countP (Waiter.wakes w) =
      if (account (known s.direct w) (s.owners w)).isSome then 1 else 0

end SlotSys

variable {t : Tid} {f : FutId} {e e' : Env} {s s' : SlotSys O W}

/-! ## Threads -/

namespace SlotSys

theorem owners_congr {w : W} (hfuts : s'.futs = s.futs)
    (hown : ∀ f ∈ s.futs, (s'.fut f).owns w = (s.fut f).owns w) : s'.owners w = s.owners w := by
  unfold owners
  rw [hfuts]
  congr 1
  exact Finset.filter_congr fun f hf => by rw [hown f hf]

namespace Accounts

/-- The registry changes and the accounts follow; the drain's side is not touched. -/
theorem edit (ha : s.Accounts) (hcomp : s'.comp = s.comp) (hwoken : s'.woken = s.woken)
    (hd : s'.slot.registry.Distinct)
    (hentry : s.comp.taken = false →
      ∀ w, s'.slot.registry.entry w = account (known s'.direct w) (s'.owners w))
    (hkeep : s.comp.taken = true →
      ∀ w, known s'.direct w = known s.direct w ∧ s'.owners w = s.owners w) : s'.Accounts where
  distinct := hd
  entry htk := hentry (by rwa [hcomp] at htk)
  quiet htk := by
    rw [hwoken]
    exact ha.quiet (by rwa [hcomp] at htk)
  drained htk w := by
    rw [hcomp] at htk ⊢
    rw [hwoken, (hkeep htk w).1, (hkeep htk w).2]
    exact ha.drained htk w

/-- A thread registers its waker directly or not at all, and leaves the owners as they are. -/
theorem threadStep (ha : s.Accounts) (hw : s.Wf) (h : ThreadStep t e s e' s') : s'.Accounts := by
  have hfr := h.frame
  have hown (w : W) : s'.owners w = s.owners w :=
    owners_congr hfr.futs fun f _ => by rw [hfr.fut]
  refine ha.edit hfr.comp (woken_congr hfr.notified hfr.gen) ?_ ?_ ?_
  · cases h.edit with
    | none _ hr => exact hr ▸ ha.distinct
    | push d hpc hpc' hr => exact hr ▸ ha.distinct.pushThread t _
    | store w hpc hpc' hr => exact hr ▸ ha.distinct.registerWaker w _
    | retain hpc hpc' hr => exact hr ▸ ha.distinct.retainOthers t
  · intro htk w
    rw [hown]
    have hold := ha.entry htk w
    cases h.edit with
    | none _ hr hd => rw [hr, hd, hold]
    | push d hpc hpc' hr hd => rw [hr, hd, Registry.entry_pushThread, hold]
    | store w' hpc hpc' hr hd =>
      rw [hr, hd, Registry.entry_registerWaker, hold, known_cons, account_futureOwners]
      by_cases hww : willWake w' w = true
      · simp [hww, account]
      · simp [hww]
    | retain hpc hpc' hr hd => rw [hr, hd, Registry.entry_retainOthers, hold]
  · intro htk w
    refine ⟨?_, hown w⟩
    cases h.edit with
    | none _ hr hd => rw [hd]
    | push d hpc hpc' hr hd => rw [hd]
    | store w' hpc =>
      have hnot := hw.drained.thr t (by rw [hpc]; rfl)
      rw [htk] at hnot
      cases hnot
    | retain hpc hpc' hr hd => rw [hd]

/-! ## Futures -/

/-- A future that has not left owns whatever it has registered. -/
theorem owns_of_not_gone {c : Bool} {pc : FutPc O W} {x : Fut W} (h : x.Ok c pc)
    (hg : pc.gone = false) (w : W) : x.owns w = known x.stored w := by
  have hearly : x.early = false := by
    by_contra he
    have hc := h.early (by simpa using he)
    rw [h.cancelled, hg] at hc
    cases hc
  simp [Fut.owns, hearly]

/-- A future that registers adds one owner, and one whose drop leaves the registry takes its own
away. -/
theorem futStep (ha : s.Accounts) (hw : s.Wf) (hr : s.Records) (h : FutStep f s s') :
    s'.Accounts := by
  have hfr := h.frame
  have hf := hr.mem f h.active
  have hok := hr.ok f hf
  have hwoken := woken_congr hfr.notified hfr.gen
  cases h.edit with
  | none hreg hs hwk hst he =>
    have hown (w : W) : s'.owners w = s.owners w := by
      refine owners_congr hfr.futs fun i _ => ?_
      by_cases hif : i = f
      · subst hif
        simp [Fut.owns, hwk, hst, he]
      · rw [hfr.fut i hif]
    refine ha.edit hfr.comp hwoken (hreg ▸ ha.distinct) (fun htk w => ?_) fun _ w => ?_
    · rw [hreg, hfr.direct, hown]
      exact ha.entry htk w
    · rw [hfr.direct]
      exact ⟨rfl, hown w⟩
  | store w hpc hpc' hreg hs hx =>
    have hntk := hw.drained.fut f (by rw [hpc]; rfl)
    have hnew : known (s.fut f).stored w = false := hok.new w (by rw [hpc]; rfl)
    have hbefore := owns_of_not_gone hok (by rw [hpc]; rfl)
    have hafter (a : W) : (s'.fut f).owns a = (willWake w a || known (s.fut f).stored a) := by
      have hok' := h.ok_self hw hok
      rw [owns_of_not_gone hok' (by rw [hpc']; rfl), hx, known_cons]
    refine ha.edit hfr.comp hwoken (ha.distinct.registerFutureWaker hreg) (fun _ a => ?_)
      fun htk => by rw [hntk] at htk; cases htk
    rw [Registry.entry_registerFutureWaker hreg, ha.entry hntk, hfr.direct, account_persistent,
      account_futureOwners]
    by_cases hwa : willWake w a = true
    · have hcount : s'.owners a = s.owners a + 1 := by
        unfold owners
        rw [hfr.futs]
        refine card_filter_succ hf ?_ ?_ fun i _ hif => by rw [hfr.fut i hif]
        · rw [hbefore, ← known_congr hwa, hnew]
        · rw [hafter, hwa, Bool.true_or]
      rw [if_pos hwa, hcount]
      simp [account]
    · have hcount : s'.owners a = s.owners a := by
        refine owners_congr hfr.futs fun i _ => ?_
        by_cases hif : i = f
        · subst hif
          rw [hafter, hbefore]
          simp [hwa]
        · rw [hfr.fut i hif]
      rw [if_neg hwa, hcount]
  | record w b hpc hpc' hc hreg hs hx =>
    have hown (a : W) : s'.owners a = s.owners a := by
      refine owners_congr hfr.futs fun i _ => ?_
      by_cases hif : i = f
      · subst hif
        rw [owns_of_not_gone hok (by rw [hpc]; rfl),
          owns_of_not_gone (h.ok_self hw hok) (by rw [hpc']; rfl), hx]
      · rw [hfr.fut i hif]
    refine ha.edit hfr.comp hwoken (hreg ▸ ha.distinct) (fun htk a => ?_) fun _ a => ?_
    · rw [hreg, hfr.direct, hown]
      exact ha.entry htk a
    · rw [hfr.direct]
      exact ⟨rfl, hown a⟩
  | remove hpc hpc' hreg hs hx =>
    have hbefore := owns_of_not_gone hok (by rw [hpc]; rfl)
    refine ha.edit hfr.comp hwoken (hreg ▸ ha.distinct.cancel _) (fun htk a => ?_) fun htk a => ?_
    · have hafter : (s'.fut f).owns a =
          (known (s.fut f).stored a && !known (s.fut f).wakers a) := by
        simp [Fut.owns, hx, htk]
      rw [hreg, Registry.entry_cancel _ _ ha.distinct, ha.entry htk, hfr.direct,
        account_released]
      by_cases hm : known (s.fut f).wakers a = true
      · -- the future gives its share of the entry back
        have hcount : s.owners a = s'.owners a + 1 := by
          unfold owners
          rw [hfr.futs]
          refine card_filter_succ hf ?_ ?_ fun i _ hif => by rw [hfr.fut i hif]
          · rw [hafter, hm]
            simp
          · rw [hbefore, hok.recorded a hm]
        rw [if_pos hm, hcount, Nat.add_sub_cancel]
      · have hcount : s'.owners a = s.owners a := by
          refine owners_congr hfr.futs fun i _ => ?_
          by_cases hif : i = f
          · subst hif
            rw [hafter, hbefore]
            simp [hm]
          · rw [hfr.fut i hif]
        rw [if_neg hm, hcount]
    · rw [hfr.direct]
      refine ⟨rfl, owners_congr hfr.futs fun i _ => ?_⟩
      by_cases hif : i = f
      · subst hif
        rw [hbefore]
        simp [Fut.owns, hx, htk]
      · rw [hfr.fut i hif]

/-! ## Completion -/

/-- The drain takes the entries as they are, and what it wakes is what it has taken. -/
theorem compStep (ha : s.Accounts) (hw : s.Wf) (h : CompStep e s e' s') : s'.Accounts := by
  have hfr := h.frame
  have hown (w : W) : s'.owners w = s.owners w :=
    owners_congr hfr.futs fun f _ => by rw [hfr.fut]
  refine ⟨?distinct, ?entry, ?quiet, ?drained⟩
  case distinct =>
    rcases h.registry with hreg | ⟨g, -, hreg, -⟩
    · exact hreg ▸ ha.distinct
    · rw [hreg]
      trivial
  case entry =>
    intro htk w
    obtain ⟨hold, -, hreg⟩ := h.pending htk
    rw [hreg, hown, hfr.direct]
    exact ha.entry hold w
  case quiet =>
    intro htk
    obtain ⟨hold, hn, -⟩ := h.pending htk
    rw [woken_congr hn hfr.gen]
    exact ha.quiet hold
  case drained =>
    intro htk w
    rw [hown, hfr.direct]
    cases hold : s.comp.taken with
    | true => rw [(h.drained hw.published hold _).2, ha.drained hold w]
    | false =>
      obtain ⟨hrest, -, hn⟩ := h.takes hw hold htk
      rw [hrest, woken_congr hn hfr.gen, ha.quiet hold, List.append_nil,
        Registry.countP_wakes ha.distinct, ha.entry hold w]

/-! ## Starting calls, and the next generation -/

/-- Every future keeps its share. -/
theorem congr (ha : s.Accounts) (hreg : s'.slot.registry = s.slot.registry)
    (htaken : s'.comp.taken = s.comp.taken) (hrest : s'.comp.rest = s.comp.rest)
    (hdirect : s'.direct = s.direct) (hwoken : s'.woken = s.woken)
    (hown : ∀ w, s'.owners w = s.owners w) : s'.Accounts where
  distinct := hreg ▸ ha.distinct
  entry htk w := by
    rw [hreg, hdirect, hown]
    exact ha.entry (by rwa [htaken] at htk) w
  quiet htk := by
    rw [hwoken]
    exact ha.quiet (by rwa [htaken] at htk)
  drained htk w := by
    rw [hrest, hwoken, hdirect, hown]
    exact ha.drained (by rwa [htaken] at htk) w

theorem newFuture (ha : s.Accounts) (hf : f ∉ s.futs) (g : Gen) : (s.newFuture f g).Accounts := by
  refine ha.congr rfl rfl rfl rfl rfl fun w => ?_
  have hnone : ((s.newFuture f g).fut f).owns w = false := by
    simp [SlotSys.newFuture, Fut.owns]
  have hfilter : (insert f s.futs).filter (fun i => ((s.newFuture f g).fut i).owns w = true) =
      s.futs.filter fun i => (s.fut i).owns w = true := by
    rw [Finset.filter_insert, if_neg (by simp [hnone])]
    refine Finset.filter_congr fun i hi => ?_
    have hif : i ≠ f := by
      rintro rfl
      exact hf hi
    simp [SlotSys.newFuture, hif]
  exact congrArg Finset.card hfilter

theorem startCancel (ha : s.Accounts) (f : FutId) : (s.startCancel f).Accounts := by
  unfold SlotSys.startCancel
  split
  · rename_i hnil
    refine ha.congr rfl rfl rfl rfl rfl fun w => owners_congr rfl fun i _ => ?_
    by_cases hif : i = f
    · -- no waker is recorded, so there is none to give back
      subst hif
      have hwakers : (s.fut i).wakers = [] := List.isEmpty_iff.mp hnil
      simp [Fut.owns, hwakers]
    · simp [hif]
  · exact ha.congr rfl rfl rfl rfl rfl fun w => owners_congr rfl fun i _ => rfl

theorem startComplete (ha : s.Accounts) (hidle : s.comp = .idle) (g : Gen) (v : O) :
    (s.startComplete g v).Accounts :=
  ha.congr rfl (by rw [hidle]; rfl) (by rw [hidle]; rfl) rfl rfl fun w => owners_congr rfl
    fun _ _ => rfl

/-- A generation starts with an empty registry and nobody to notify. -/
theorem prepared (hreg : s'.slot.registry = []) (hcomp : s'.comp = .idle) (hdirect : s'.direct = [])
    (hfuts : s'.futs = ∅) (hnew : ∀ x ∈ s'.notified, x.1 ≠ s'.gen) : s'.Accounts where
  distinct := by
    rw [hreg]
    trivial
  entry _ w := by simp [hreg, hdirect, owners, hfuts, account]
  quiet _ := by
    rw [woken, List.map_eq_nil_iff, List.filter_eq_nil_iff]
    intro x hx
    simpa using hnew x hx
  drained htk := by
    rw [hcomp] at htk
    cases htk

end Accounts
end SlotSys
end Accounts

end Observe
