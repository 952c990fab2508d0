import Mathlib.Order.BoundedOrder.Lattice
import Mathlib.Order.Nat
import Mathlib.Order.Monotone.Defs
import Mathlib.Tactic.ByContra

/-!
# Release and acquire

Memory whose shared locations are written by read-modify-writes only.  Such a location has one
modification order, and it grows at the end.  A view tells how far into the modification order of
each location somebody has looked: a load returns any message that is not older than that, and a
read-modify-write always takes the newest.  A message carries the view that its release published,
and the read-modify-writes behind it hand that view on.

The rules at the end are about a fact that is published once: whoever has looked as far as the first
message that states it knows what the publisher knew.
-/

namespace Observe.Lib

/-- `Ordering`.  A `seqCst` access is given acquire and release and no place in a total order, which
allows more runs than the language does. -/
inductive MemOrder where
  | relaxed
  | acquire
  | release
  | seqCst
deriving DecidableEq

namespace MemOrder

def acquires : MemOrder → Bool
  | acquire | seqCst => true
  | _ => false

def releases : MemOrder → Bool
  | release | seqCst => true
  | _ => false

theorem relaxed_or_release {o : MemOrder} (h : o.acquires = false) :
    o = .relaxed ∨ o = .release := by
  cases o with
  | relaxed => exact .inl rfl
  | release => exact .inr rfl
  | acquire => cases h
  | seqCst => cases h

end MemOrder

/-- How far somebody has looked into the modification order of each location. -/
abbrev View (L : Type*) := L → Nat

structure Message (L V : Type*) where
  val : V
  /-- What an acquire of the message learns. -/
  view : View L

/-- The modification order of one location, oldest message first. -/
structure History (L V : Type*) where
  old : List (Message L V)
  last : Message L V

variable {L V : Type*} [DecidableEq L]

def View.learn (v : View L) (ℓ : L) (i : Nat) (o : MemOrder) (m : Message L V) : View L :=
  Function.update v ℓ (max (v ℓ) i) ⊔ if o.acquires then m.view else ⊥

/-- The view of whoever writes plain memory: its place counts the writes in view. -/
def View.write (v : View L) (ℓ : L) : View L := Function.update v ℓ (v ℓ + 1)

def View.reach (v : View L) (ℓ : L) (n : Nat) : View L := Function.update v ℓ (max (v ℓ) n)

theorem View.le_reach (v : View L) (ℓ : L) (n : Nat) : v ≤ v.reach ℓ n := by
  intro k
  by_cases hk : k = ℓ
  · subst hk
    simp [View.reach]
  · simp [View.reach, hk]

@[simp] theorem View.reach_self (v : View L) (ℓ : L) (n : Nat) :
    v.reach ℓ n ℓ = max (v ℓ) n := by
  simp [View.reach]

@[simp] theorem View.reach_of_ne (v : View L) {ℓ k : L} (h : k ≠ ℓ) (n : Nat) :
    v.reach ℓ n k = v k := by
  simp [View.reach, h]

theorem View.le_write (v : View L) (ℓ : L) : v ≤ v.write ℓ := by
  intro k
  by_cases hk : k = ℓ
  · subst hk
    simp [View.write]
  · simp [View.write, hk]

@[simp] theorem View.write_self (v : View L) (ℓ : L) : v.write ℓ ℓ = v ℓ + 1 := by
  simp [View.write]

@[simp] theorem View.write_of_ne (v : View L) {ℓ k : L} (h : k ≠ ℓ) : v.write ℓ k = v k := by
  simp [View.write, h]

namespace History

omit [DecidableEq L] in
def init (a : V) : History L V := ⟨[], ⟨a, ⊥⟩⟩

def messages (h : History L V) : List (Message L V) := h.old ++ [h.last]

def top (h : History L V) : Nat := h.old.length

/-- A load of `ℓ` under the view `v` may return message `i`. -/
structure Reads (h : History L V) (ℓ : L) (v : View L) (i : Nat) (m : Message L V) : Prop where
  fresh : v ℓ ≤ i
  mem : h.messages[i]? = some m

def rmwView (h : History L V) (ℓ : L) (o : MemOrder) (v : View L) : View L :=
  v.learn ℓ (h.top + 1) o h.last

/-- A read-modify-write by somebody with view `v`.  What the newest message released is released
again, whatever the ordering. -/
def rmw (h : History L V) (ℓ : L) (o : MemOrder) (f : V → V) (v : View L) : History L V where
  old := h.messages
  last := ⟨f h.last.val, h.last.view ⊔ if o.releases then h.rmwView ℓ o v else ⊥⟩

variable {h : History L V} {ℓ : L} {v w : View L} {i : Nat} {m : Message L V} {o : MemOrder}
  {f : V → V} {P : V → Prop} {K : View L → Prop}

omit [DecidableEq L] in
@[simp] theorem messages_init (a : V) : (init a : History L V).messages = [⟨a, ⊥⟩] := rfl

omit [DecidableEq L] in
@[simp] theorem last_init (a : V) : (init a : History L V).last.val = a := rfl

@[simp] theorem last_rmw : (h.rmw ℓ o f v).last.val = f h.last.val := rfl

theorem messages_rmw : (h.rmw ℓ o f v).messages = h.messages ++ [(h.rmw ℓ o f v).last] := rfl

omit [DecidableEq L] in
theorem length_messages : h.messages.length = h.top + 1 := by
  simp [messages, top]

theorem top_rmw : (h.rmw ℓ o f v).top = h.top + 1 := length_messages

omit [DecidableEq L] in
theorem last_mem : h.last ∈ h.messages := by simp [messages]

omit [DecidableEq L] in
theorem getElem?_top : h.messages[h.top]? = some h.last := by simp [messages, top]

omit [DecidableEq L] in
theorem Reads.message (hr : h.Reads ℓ v i m) : m ∈ h.messages := List.mem_of_getElem? hr.mem

omit [DecidableEq L] in
theorem Reads.le_top (hr : h.Reads ℓ v i m) : i ≤ h.top := by
  have hi : i < h.messages.length := (List.getElem?_eq_some_iff.mp hr.mem).1
  rw [length_messages] at hi
  omega

omit [DecidableEq L] in
/-- The newest message can always be read. -/
theorem reads_last (hv : v ℓ ≤ h.top) : h.Reads ℓ v h.top h.last := ⟨hv, getElem?_top⟩

/-! ## Views grow -/

theorem le_learn : v ≤ v.learn ℓ i o m := by
  have hup : v ≤ Function.update v ℓ (max (v ℓ) i) := by
    intro k
    by_cases hk : k = ℓ
    · subst hk
      simp
    · simp [hk]
  exact hup.trans le_sup_left

theorem le_rmwView : v ≤ h.rmwView ℓ o v := le_learn

/-- A release hands on what its maker knows. -/
theorem le_view_rmw (ho : o.releases = true) : v ≤ (h.rmw ℓ o f v).last.view := by
  refine (le_rmwView (h := h) (ℓ := ℓ) (o := o)).trans ?_
  show _ ≤ h.last.view ⊔ if o.releases then h.rmwView ℓ o v else ⊥
  rw [if_pos ho]
  exact le_sup_right

/-- An acquire learns what the message carries. -/
theorem view_le_learn (ho : o.acquires = true) : m.view ≤ v.learn ℓ i o m := by
  unfold View.learn
  rw [if_pos ho]
  exact le_sup_right

/-- A load learns the place of what it reads. -/
theorem learn_self : i ≤ v.learn ℓ i o m ℓ := by
  have hi : i ≤ Function.update v ℓ (max (v ℓ) i) ℓ := by simp
  exact hi.trans (le_sup_left (a := Function.update v ℓ (max (v ℓ) i)) ℓ)

/-- A load does not look beyond the end. -/
theorem learn_le_top (hv : v ℓ ≤ h.top) (hi : i ≤ h.top) (hm : m.view ℓ ≤ h.top) :
    v.learn ℓ i o m ℓ ≤ h.top := by
  unfold View.learn
  cases o.acquires with
  | true => simp [hv, hi, hm]
  | false => simp [hv, hi]

/-! ## A published fact -/

omit [DecidableEq L] in
def Sees (h : History L V) (ℓ : L) (P : V → Prop) (v : View L) : Prop :=
  ∃ i ≤ v ℓ, ∃ m, h.messages[i]? = some m ∧ P m.val

/-- `v` ends inside the modification order, and whoever sees `P` knows `K`. -/
structure Informed (h : History L V) (ℓ : L) (P : V → Prop) (K : View L → Prop) (v : View L) :
    Prop where
  bounded : v ℓ ≤ h.top
  known : h.Sees ℓ P v → K v

/-- `P` is stated from some message on, and each of these hands on `K`. -/
structure Publishes (h : History L V) (ℓ : L) (P : V → Prop) (K : View L → Prop) : Prop where
  stable : ∀ (i j : Nat) (m m' : Message L V), i ≤ j → h.messages[i]? = some m → h.messages[j]? = some m' →
    P m.val → P m'.val
  carries : ∀ m ∈ h.messages, P m.val → K m.view
  informed : ∀ m ∈ h.messages, h.Informed ℓ P K m.view

omit [DecidableEq L] in
/-- What a view sees is among the messages that it has come to. -/
theorem sees_iff_take : h.Sees ℓ P v ↔ ∃ m ∈ h.messages.take (v ℓ + 1), P m.val := by
  constructor
  · intro hs
    obtain ⟨i, hi, m, hm, hP⟩ := hs
    refine ⟨m, List.mem_iff_getElem?.mpr ⟨i, ?_⟩, hP⟩
    rw [List.getElem?_take_of_lt (by omega)]
    exact hm
  · intro hs
    obtain ⟨m, hmem, hP⟩ := hs
    obtain ⟨i, hm⟩ := List.mem_iff_getElem?.mp hmem
    rw [List.getElem?_take] at hm
    split at hm
    · exact ⟨i, by omega, m, hm, hP⟩
    · cases hm

instance [DecidablePred P] : Decidable (h.Sees ℓ P v) := decidable_of_iff _ sees_iff_take.symm

omit [DecidableEq L] in
theorem Sees.mono (hs : h.Sees ℓ P v) (hle : v ≤ w) : h.Sees ℓ P w := by
  obtain ⟨i, hi, hm⟩ := hs
  exact ⟨i, hi.trans (hle ℓ), hm⟩

omit [DecidableEq L] in
/-- What is seen by two together is seen by one of them. -/
theorem sees_sup (hs : h.Sees ℓ P (v ⊔ w)) : h.Sees ℓ P v ∨ h.Sees ℓ P w := by
  obtain ⟨i, hi, hm⟩ := hs
  have hor : i ≤ v ℓ ∨ i ≤ w ℓ := le_sup_iff.mp hi
  exact hor.imp (fun h => ⟨i, h, hm⟩) fun h => ⟨i, h, hm⟩

theorem Sees.rmw (hs : h.Sees ℓ P v) (o : MemOrder) (f : V → V) (w : View L) :
    (h.rmw ℓ o f w).Sees ℓ P v := by
  obtain ⟨i, hi, m, hm, hP⟩ := hs
  have hlt : i < h.messages.length := (List.getElem?_eq_some_iff.mp hm).1
  refine ⟨i, hi, m, ?_, hP⟩
  rw [messages_rmw, List.getElem?_append_left hlt, hm]

/-- A new message is not in view of whoever has not looked at it. -/
theorem sees_of_sees_rmw (hv : v ℓ ≤ h.top) (hs : (h.rmw ℓ o f w).Sees ℓ P v) : h.Sees ℓ P v := by
  obtain ⟨i, hi, m, hm, hP⟩ := hs
  have hlt : i < h.messages.length := by
    rw [length_messages]
    omega
  refine ⟨i, hi, m, ?_, hP⟩
  rwa [messages_rmw, List.getElem?_append_left hlt] at hm

omit [DecidableEq L] in
/-- **Coherence.** Whoever sees `P` reads `P`. -/
theorem Reads.coherent (hp : h.Publishes ℓ P K) (hr : h.Reads ℓ v i m) (hs : h.Sees ℓ P v) :
    P m.val := by
  obtain ⟨j, hj, m', hm', hP⟩ := hs
  exact hp.stable j i m' m (hj.trans hr.fresh) hm' hr.mem hP

/-- A load sees what it reads. -/
theorem Reads.sees (hr : h.Reads ℓ v i m) (hP : P m.val) : h.Sees ℓ P (v.learn ℓ i o m) :=
  ⟨i, learn_self, m, hr.mem, hP⟩

/-- A read-modify-write sees what it writes. -/
theorem sees_rmwView (hP : P (f h.last.val)) :
    (h.rmw ℓ o f v).Sees ℓ P (h.rmwView ℓ o v) := by
  refine ⟨h.top + 1, learn_self, (h.rmw ℓ o f v).last, ?_, hP⟩
  rw [← top_rmw (o := o) (f := f) (v := v) (ℓ := ℓ)]
  exact getElem?_top

namespace Informed

omit [DecidableEq L] in
/-- Two that are informed are informed together. -/
theorem sup (hK : Monotone K) (hv : h.Informed ℓ P K v) (hw : h.Informed ℓ P K w) :
    h.Informed ℓ P K (v ⊔ w) where
  bounded := sup_le hv.bounded hw.bounded
  known hs := (sees_sup hs).elim (fun hs => hK le_sup_left (hv.known hs))
    fun hs => hK le_sup_right (hw.known hs)

omit [DecidableEq L] in
/-- Learning about other locations. -/
theorem of_le (hK : Monotone K) (hv : h.Informed ℓ P K v) (hle : v ≤ w) (heq : w ℓ = v ℓ) :
    h.Informed ℓ P K w where
  bounded := heq ▸ hv.bounded
  known hs := by
    apply hK hle
    apply hv.known
    obtain ⟨i, hi, hm⟩ := hs
    exact ⟨i, heq ▸ hi, hm⟩

/-- An access to another location. -/
theorem learn_of_ne {V' : Type*} {k : L} {m : Message L V'} (hK : Monotone K)
    (hv : h.Informed ℓ P K v) (hm : h.Informed ℓ P K m.view) (hne : ℓ ≠ k) :
    h.Informed ℓ P K (v.learn k i o m) := by
  have hup : h.Informed ℓ P K (Function.update v k (max (v k) i)) := by
    apply hv.of_le hK
    · intro j
      by_cases hj : j = k
      · subst hj
        simp
      · simp [hj]
    · simp [hne]
  unfold View.learn
  cases ho : o.acquires with
  | true => simpa using hup.sup hK hm
  | false => simpa using hup

/-- Everybody else's view stays as informed as it was. -/
theorem rmw (hv : h.Informed ℓ P K v) (o : MemOrder) (f : V → V) (w : View L) :
    (h.rmw ℓ o f w).Informed ℓ P K v where
  bounded := by
    rw [top_rmw]
    exact hv.bounded.trans (Nat.le_succ _)
  known hs := hv.known (sees_of_sees_rmw hv.bounded hs)

/-- **Acquire.** -/
theorem learn (hK : Monotone K) (hp : h.Publishes ℓ P K) (hv : h.Informed ℓ P K v)
    (hr : h.Reads ℓ v i m) (ho : o.acquires = true) : h.Informed ℓ P K (v.learn ℓ i o m) := by
  have hm := hp.informed m hr.message
  refine ⟨learn_le_top hv.bounded hr.le_top hm.bounded, fun hs => ?_⟩
  unfold View.learn at hs
  rw [if_pos ho] at hs
  rcases sees_sup hs with ⟨j, hj, m', hm', hP⟩ | hs
  · rw [Function.update_self] at hj
    rcases le_sup_iff.mp hj with hjv | hji
    · exact hK le_learn (hv.known ⟨j, hjv, m', hm', hP⟩)
    · -- the message that was read states `P`, and carries `K`
      have hPm : P m.val := hp.stable j i m' m hji hm' hr.mem hP
      exact hK (view_le_learn ho) (hp.carries m hr.message hPm)
  · exact hK (view_le_learn ho) (hm.known hs)

end Informed

omit [DecidableEq L] in
/-- What is stated once is stated by the newest message. -/
theorem Publishes.last_of_getElem? (hp : h.Publishes ℓ P K) (hm : h.messages[i]? = some m)
    (hP : P m.val) : P h.last.val := by
  have hi : i < h.messages.length := (List.getElem?_eq_some_iff.mp hm).1
  rw [length_messages] at hi
  exact hp.stable i h.top m h.last (by omega) hm getElem?_top hP

omit [DecidableEq L] in
/-- What somebody sees is stated by the newest message. -/
theorem Sees.last (hs : h.Sees ℓ P v) (hp : h.Publishes ℓ P K) : P h.last.val := by
  obtain ⟨i, -, m, hm, hP⟩ := hs
  exact hp.last_of_getElem? hm hP

/-- While nobody states `P`, nobody sees it. -/
theorem Publishes.not_sees_rmw (hp : h.Publishes ℓ P K) (hlast : ¬ P h.last.val)
    (hnew : ¬ P (f h.last.val)) : ¬ (h.rmw ℓ o f v).Sees ℓ P w := by
  intro hs
  obtain ⟨i, -, m, hm, hP⟩ := hs
  rw [messages_rmw] at hm
  have hmem := List.mem_of_getElem? hm
  rcases List.mem_append.mp hmem with hold | hold
  · obtain ⟨j, hj⟩ := List.mem_iff_getElem?.mp hold
    exact hlast (hp.last_of_getElem? hj hP)
  · rw [List.mem_singleton.mp hold] at hP
    exact hnew hP

/-- **The view of a read-modify-write.** -/
theorem Informed.rmwView (hK : Monotone K) (hp : h.Publishes ℓ P K) (hv : h.Informed ℓ P K v)
    (hf : ∀ a, P a → P (f a))
    (hnew : P (f h.last.val) → K v ∨ (o.acquires = true ∧ P h.last.val)) :
    (h.rmw ℓ o f v).Informed ℓ P K (h.rmwView ℓ o v) where
  bounded := by
    have hm := (hp.informed _ last_mem).bounded
    have hv' := hv.bounded
    apply learn_le_top
    · rw [top_rmw]; omega
    · rw [top_rmw]
    · rw [top_rmw]; omega
  known hs := by
    by_cases hP : P (f h.last.val)
    · rcases hnew hP with hk | ⟨ho, hlast⟩
      · exact hK le_rmwView hk
      · exact hK (view_le_learn ho) (hp.carries _ last_mem hlast)
    · exact absurd hs (hp.not_sees_rmw (fun h => hP (hf _ h)) hP)

/-- **Release.** A read-modify-write that is the first to state `P` has to release, by somebody who
knows `K`; the ones behind it are free to. -/
theorem Publishes.rmw (hK : Monotone K) (hp : h.Publishes ℓ P K) (hv : h.Informed ℓ P K v)
    (hf : ∀ a, P a → P (f a))
    (hnew : P (f h.last.val) → P h.last.val ∨ (o.releases = true ∧ K v)) :
    (h.rmw ℓ o f v).Publishes ℓ P K := by
  have hlast : P (f h.last.val) → K (h.rmw ℓ o f v).last.view := by
    intro hP
    rcases hnew hP with hold | ⟨ho, hk⟩
    · exact hK le_sup_left (hp.carries _ last_mem hold)
    · exact hK (le_view_rmw ho) hk
  refine ⟨fun i j m m' hij hm hm' hP => ?stable, fun m hm hP => ?carries, fun m hm => ?informed⟩
  case stable =>
    rw [messages_rmw] at hm hm'
    by_cases hj : j < h.messages.length
    · rw [List.getElem?_append_left hj] at hm'
      rw [List.getElem?_append_left (by omega)] at hm
      exact hp.stable i j m m' hij hm hm' hP
    · -- `m'` is the new message, and `m` is that one as well or one before it
      have hm'new : m' = (h.rmw ℓ o f v).last := by
        rw [List.getElem?_append_right (by omega)] at hm'
        exact List.mem_singleton.mp (List.mem_of_getElem? hm')
      rw [hm'new]
      show P (f h.last.val)
      by_cases hi : i < h.messages.length
      · rw [List.getElem?_append_left hi] at hm
        exact hf _ (hp.last_of_getElem? hm hP)
      · rw [List.getElem?_append_right (by omega)] at hm
        rw [List.mem_singleton.mp (List.mem_of_getElem? hm)] at hP
        exact hP
  case carries =>
    rw [messages_rmw] at hm
    rcases List.mem_append.mp hm with hm | hm
    · exact hp.carries m hm hP
    · rw [List.mem_singleton.mp hm] at hP ⊢
      exact hlast hP
  case informed =>
    rw [messages_rmw] at hm
    rcases List.mem_append.mp hm with hm | hm
    · exact (hp.informed m hm).rmw o f v
    · rw [List.mem_singleton.mp hm]
      have hold := (hp.informed _ last_mem).bounded
      have hmine : h.rmwView ℓ o v ℓ ≤ (h.rmw ℓ o f v).top := by
        have hv' := hv.bounded
        apply learn_le_top
        · rw [top_rmw]; omega
        · rw [top_rmw]
        · rw [top_rmw]; omega
      refine ⟨?_, fun hs => ?_⟩
      · show (h.last.view ⊔ if o.releases then h.rmwView ℓ o v else ⊥) ℓ ≤ _
        apply sup_le
        · rw [top_rmw]; omega
        · cases o.releases with
          | true => exact hmine
          | false => exact Nat.zero_le _
      · by_cases hP : P (f h.last.val)
        · exact hlast hP
        · exact absurd hs (hp.not_sees_rmw (fun h => hP (hf _ h)) hP)

omit [DecidableEq L] in
/-- Nobody has stated `P` yet. -/
theorem Publishes.init {a : V} (ha : ¬ P a) : (init a : History L V).Publishes ℓ P K := by
  have hone (m : Message L V) (hm : m ∈ (History.init a : History L V).messages) :
      m = ⟨a, ⊥⟩ := by simpa using hm
  have hnot (m : Message L V) (hm : m ∈ (History.init a : History L V).messages) : ¬ P m.val := by
    rw [hone m hm]
    exact ha
  refine ⟨fun i j m m' _ hm _ hP => absurd hP (hnot m (List.mem_of_getElem? hm)),
    fun m hm hP => absurd hP (hnot m hm), fun m hm => ⟨?_, fun hs => ?_⟩⟩
  · rw [hone m hm]
    exact Nat.zero_le _
  · obtain ⟨i, -, m', hm', hP⟩ := hs
    exact absurd hP (hnot m' (List.mem_of_getElem? hm'))

omit [DecidableEq L] in
/-- Nobody has to be informed of what has not been stated. -/
theorem Informed.init {a : V} (ha : ¬ P a) :
    (History.init a : History L V).Informed ℓ P K ⊥ :=
  (Publishes.init ha).informed ⟨a, ⊥⟩ (by simp)

/-- What holds of every message's view holds of the new message's. -/
theorem views_rmw {G : View L → Prop} (hsup : ∀ v w, G v → G w → G (v ⊔ w))
    (hold : ∀ m ∈ h.messages, G m.view) (hbot : G ⊥) (hview : G (h.rmwView ℓ o v)) :
    ∀ m ∈ (h.rmw ℓ o f v).messages, G m.view := by
  intro m hm
  rw [messages_rmw] at hm
  rcases List.mem_append.mp hm with hm | hm
  · exact hold m hm
  · rw [List.mem_singleton.mp hm]
    show G (h.last.view ⊔ if o.releases then h.rmwView ℓ o v else ⊥)
    apply hsup _ _ (hold _ last_mem)
    cases o.releases with
    | true => exact hview
    | false => exact hbot

end History

end Observe.Lib
