import Mathlib.Data.List.Basic
import Mathlib.Algebra.Group.Nat.Defs

/-!
# The waiter registry

`Mutex<Vec<Waiter>>` of one slot: the entries, and what each critical section does to the vector.
An entry also remembers the generation through whose observation it was made; the code does not
store that, and no operation reads it.
-/

namespace Observe

abbrev Tid := Nat

/-- A generation, counted over all subjects and pairs ever made; the code's `usize` number is
`Subject.generation`. -/
abbrev Gen := Nat

/-- Wakers with `Waker::will_wake`, which compares data pointer and vtable, and `Waker::clone`,
which runs the waker's own code.  The crate tells tasks apart by `will_wake`, and so relies on a clone
that `will_wake` does not tell from its original (`clone_willWake`). -/
class WillWake (W : Type) where
  willWake : W → W → Bool
  clone : W → W
  refl : ∀ a, willWake a a = true
  symm : ∀ {a b}, willWake a b = true → willWake b a = true
  trans : ∀ {a b c}, willWake a b = true → willWake b c = true → willWake a c = true
  clone_willWake : ∀ a, willWake (clone a) a = true

export WillWake (willWake)

/-- Wakers that are told apart by the number of their task. -/
instance : WillWake Nat where
  willWake a b := a == b
  clone a := a
  refl a := beq_self_eq_true a
  symm h := beq_iff_eq.mpr (beq_iff_eq.mp h).symm
  trans h h' := beq_iff_eq.mpr ((beq_iff_eq.mp h).trans (beq_iff_eq.mp h'))
  clone_willWake a := beq_self_eq_true a

section WillWake

variable {W : Type} [WillWake W]

theorem willWake_comm (a b : W) : willWake a b = willWake b a := by
  cases h : willWake b a with
  | true => exact WillWake.symm h
  | false =>
    cases h' : willWake a b with
    | false => rfl
    | true => rw [WillWake.symm h'] at h; cases h

/-- Wakers of one task wake the same wakers. -/
theorem willWake_congr {a b : W} (h : willWake a b = true) (c : W) :
    willWake a c = willWake b c := by
  cases hc : willWake b c with
  | true => exact WillWake.trans h hc
  | false =>
    cases hc' : willWake a c with
    | false => rfl
    | true => rw [WillWake.trans (WillWake.symm h) hc'] at hc; cases hc

/-- Wakers of one task are woken by the same wakers. -/
theorem willWake_congr_right {a b : W} (h : willWake a b = true) (c : W) :
    willWake c a = willWake c b := by
  rw [willWake_comm c a, willWake_comm c b, willWake_congr h]

/-- A clone wakes the task of its original. -/
@[simp] theorem clone_willWake_left (a b : W) :
    willWake (WillWake.clone a) b = willWake a b :=
  willWake_congr (WillWake.clone_willWake a) b

/-- A clone is woken by what wakes its original. -/
@[simp] theorem clone_willWake_right (a b : W) :
    willWake a (WillWake.clone b) = willWake a b :=
  willWake_congr_right (WillWake.clone_willWake b) a

def known (wakers : List W) (waker : W) : Bool := wakers.any fun m => willWake m waker

@[simp] theorem known_nil (w : W) : known [] w = false := rfl

@[simp] theorem known_cons (m w : W) (ws : List W) :
    known (m :: ws) w = (willWake m w || known ws w) := List.any_cons

@[simp] theorem known_append (ws ws' : List W) (w : W) :
    known (ws ++ ws') w = (known ws w || known ws' w) := List.any_append

/-- A task is known whichever of its wakers is asked for. -/
theorem known_congr {a b : W} (h : willWake a b = true) (ws : List W) :
    known ws a = known ws b := by
  unfold known
  congr 1
  funext m
  exact willWake_congr_right h m

end WillWake

/-- `usize::MAX` of a 64-bit target: where `future_owners.checked_add(1)` fails.  The numbers of the
generations have a width of their own, `bits`, for they wrap and the owners never do. -/
def usizeMax : Nat := 2 ^ 64 - 1

inductive Waiter (W : Type) where
  | thread (thread : Tid) (gen : Gen)
  | waker (waker : W) (persistent : Bool) (futureOwners : Nat) (gen : Gen)
deriving DecidableEq, Repr

namespace Waiter

variable {W : Type}

def gen : Waiter W → Gen
  | .thread _ g => g
  | .waker _ _ _ g => g

def isThread (t : Tid) : Waiter W → Bool
  | .thread t' _ => t' == t
  | .waker .. => false

theorem thread_unique {t u : Tid} {x : Waiter W} (ht : x.isThread t = true)
    (hu : x.isThread u = true) : t = u := by
  cases x with
  | thread t' g => exact (beq_iff_eq.mp ht).symm.trans (beq_iff_eq.mp hu)
  | waker e p n g => cases ht

def wakes [WillWake W] (w : W) : Waiter W → Bool
  | .thread .. => false
  | .waker e _ _ _ => willWake e w

end Waiter

abbrev Registry (W : Type) := List (Waiter W)

namespace Registry

section Threads

variable {W : Type}

/-- `wait`: push the current thread unless the last entry already is this thread. -/
def pushThread (t : Tid) (g : Gen) (ws : Registry W) : Registry W :=
  if ws.getLast?.any (Waiter.isThread t) then ws else ws ++ [.thread t g]

/-- `waiters.retain(|waiter| !matches!(waiter, Waiter::Thread(t) if t.id() == thread_id))`. -/
def retainOthers (t : Tid) (ws : Registry W) : Registry W :=
  ws.filter fun x => !x.isThread t

@[simp] theorem retainOthers_nil (t : Tid) : retainOthers t ([] : Registry W) = [] := rfl

theorem retainOthers_thread (t t' : Tid) (g : Gen) (ws : Registry W) :
    retainOthers t (.thread t' g :: ws) =
      if t' = t then retainOthers t ws else .thread t' g :: retainOthers t ws := by
  by_cases h : t' = t <;> simp [retainOthers, Waiter.isThread, h]

@[simp] theorem retainOthers_waker (t : Tid) (e : W) (p : Bool) (n : Nat) (g : Gen)
    (ws : Registry W) :
    retainOthers t (.waker e p n g :: ws) = .waker e p n g :: retainOthers t ws := by
  simp [retainOthers, Waiter.isThread]

end Threads

variable {W : Type} [WillWake W]

/-- `register_waker`: flag the first entry that wakes the same task, or push a new one. -/
def registerWaker (w : W) (g : Gen) : Registry W → Registry W
  | [] => [.waker (WillWake.clone w) true 0 g]
  | .thread t g' :: ws => .thread t g' :: registerWaker w g ws
  | .waker e p n g' :: ws =>
    -- the owners that futures have on the same entry are kept
    if willWake e w then .waker e true n g' :: ws
    else .waker e p n g' :: registerWaker w g ws

/-- `register_future_waker`: count one more owner on the first entry that wakes the same task, or
push a new one.  `none` is the `expect` on the count's overflow. -/
def registerFutureWaker (w : W) (g : Gen) : Registry W → Option (Registry W)
  | [] => some [.waker (WillWake.clone w) false 1 g]
  | .thread t g' :: ws => (registerFutureWaker w g ws).map (.thread t g' :: ·)
  | .waker e p n g' :: ws =>
    if willWake e w then
      -- `checked_add(1).expect(..)`
      if n = usizeMax then none else some (.waker e p (n + 1) g' :: ws)
    else (registerFutureWaker w g ws).map (.waker e p n g' :: ·)

/-- The `retain_mut` closure of `ObservationFuture::drop`, for a future that recorded `mine`. -/
def release (mine : List W) : Waiter W → Option (Waiter W)
  | .thread t g => some (.thread t g)
  | .waker e p n g =>
    if known mine e then
      -- `*persistent || *future_owners != 0`, after the decrement
      if p || n - 1 != 0 then some (.waker e p (n - 1) g) else none
    else some (.waker e p n g)

def cancel (mine : List W) (ws : Registry W) : Registry W :=
  ws.filterMap (release mine)

@[simp] theorem cancel_nil (mine : List W) : cancel mine [] = [] := rfl

@[simp] theorem cancel_thread (mine : List W) (t : Tid) (g : Gen) (ws : Registry W) :
    cancel mine (.thread t g :: ws) = .thread t g :: cancel mine ws := rfl

/-- A cancellation takes one owner from each entry of a recorded task, and drops an entry that
nobody is left to use. -/
theorem cancel_waker (mine : List W) (e : W) (p : Bool) (n : Nat) (g : Gen) (ws : Registry W) :
    cancel mine (.waker e p n g :: ws) =
      if known mine e then
        if p || n - 1 != 0 then .waker e p (n - 1) g :: cancel mine ws else cancel mine ws
      else .waker e p n g :: cancel mine ws := by
  simp only [cancel, List.filterMap_cons, release]
  by_cases hm : known mine e
  · by_cases hk : (p || n - 1 != 0) = true <;> simp [hm, hk]
  · simp [hm]

/-! ## What the registry holds for one task -/

/-- `persistent` and `future_owners` of the first entry of the task of `w`. -/
def entry (w : W) : Registry W → Option (Bool × Nat)
  | [] => none
  | .thread _ _ :: ws => entry w ws
  | .waker e p n _ :: ws => if willWake e w then some (p, n) else entry w ws

def Distinct : Registry W → Prop
  | [] => True
  | .thread _ _ :: ws => Distinct ws
  | .waker e _ _ _ :: ws => entry e ws = none ∧ Distinct ws

@[simp] theorem entry_nil (w : W) : entry w [] = none := rfl

@[simp] theorem entry_thread (w : W) (t : Tid) (g : Gen) (ws : Registry W) :
    entry w (.thread t g :: ws) = entry w ws := rfl

theorem entry_waker (w e : W) (p : Bool) (n : Nat) (g : Gen) (ws : Registry W) :
    entry w (.waker e p n g :: ws) = if willWake e w then some (p, n) else entry w ws := rfl

/-- The entry of a task does not depend on the waker that stands for it. -/
theorem entry_congr {a b : W} (h : willWake a b = true) (ws : Registry W) :
    entry a ws = entry b ws := by
  induction ws with
  | nil => rfl
  | cons x ws ih =>
    cases x with
    | thread t g => simpa using ih
    | waker e p n g => rw [entry_waker, entry_waker, willWake_congr_right h, ih]

theorem entry_append_thread (w : W) (t : Tid) (g : Gen) (ws : Registry W) :
    entry w (ws ++ [.thread t g]) = entry w ws := by
  induction ws with
  | nil => rfl
  | cons x ws ih =>
    cases x with
    | thread t' g' => simpa using ih
    | waker e p n g' => rw [List.cons_append, entry_waker, entry_waker, ih]

@[simp] theorem entry_pushThread (w : W) (t : Tid) (g : Gen) (ws : Registry W) :
    entry w (pushThread t g ws) = entry w ws := by
  unfold pushThread
  split
  · rfl
  · exact entry_append_thread w t g ws

@[simp] theorem entry_retainOthers (w : W) (t : Tid) (ws : Registry W) :
    entry w (retainOthers t ws) = entry w ws := by
  induction ws with
  | nil => rfl
  | cons x ws ih =>
    cases x with
    | thread t' g =>
      rw [retainOthers_thread]
      split
      · exact ih
      · exact ih
    | waker e p n g => rw [retainOthers_waker, entry_waker, entry_waker, ih]

/-- A direct registration makes its task's entry persistent and leaves the other tasks' alone. -/
theorem entry_registerWaker (w a : W) (g : Gen) (ws : Registry W) :
    entry a (registerWaker w g ws) =
      if willWake w a then some (true, ((entry a ws).map Prod.snd).getD 0) else entry a ws := by
  induction ws with
  | nil => by_cases h : willWake w a <;> simp [registerWaker, entry_waker, h]
  | cons x ws ih =>
    cases x with
    | thread t g' => simpa [registerWaker] using ih
    | waker e p n g' =>
      -- the head is of the registered task, or the rest decides; `a` may be of that task or not
      by_cases hew : willWake e w
      · simp only [registerWaker, hew, if_true, entry_waker, willWake_congr hew a]
        by_cases hwa : willWake w a <;> simp [hwa]
      · simp only [registerWaker, hew, Bool.false_eq_true, if_false, entry_waker, ih]
        by_cases hwa : willWake w a
        · have hea : willWake e a = false := by
            rw [← willWake_congr_right hwa]; simpa using hew
          simp [hwa, hea]
        · simp [hwa]

/-- A future's registration adds one owner to its task's entry and leaves the other tasks' alone. -/
theorem entry_registerFutureWaker {w : W} {g : Gen} {ws ws' : Registry W}
    (h : registerFutureWaker w g ws = some ws') (a : W) :
    entry a ws' = if willWake w a then
        some (((entry a ws).map Prod.fst).getD false, ((entry a ws).map Prod.snd).getD 0 + 1)
      else entry a ws := by
  induction ws generalizing ws' with
  | nil =>
    simp only [registerFutureWaker, Option.some.injEq] at h
    subst h
    by_cases hwa : willWake w a <;> simp [entry_waker, hwa]
  | cons x ws ih =>
    cases x with
    | thread t g' =>
      simp only [registerFutureWaker, Option.map_eq_some_iff] at h
      obtain ⟨ws₀, h₀, rfl⟩ := h
      simpa using ih h₀
    | waker e p n g' =>
      -- one owner more on the head, unless the count overflows and there is no new registry
      by_cases hew : willWake e w
      · simp only [registerFutureWaker, hew, if_true] at h
        split at h
        · cases h
        · cases h
          simp only [entry_waker, willWake_congr hew a]
          by_cases hwa : willWake w a <;> simp [hwa]
      · simp only [registerFutureWaker, hew, Bool.false_eq_true, if_false,
          Option.map_eq_some_iff] at h
        obtain ⟨ws₀, h₀, rfl⟩ := h
        rw [entry_waker, entry_waker, ih h₀]
        by_cases hwa : willWake w a
        · have hea : willWake e a = false := by
            rw [← willWake_congr_right hwa]; simpa using hew
          simp [hwa, hea]
        · simp [hwa]

/-- The count overflows on an entry of the same task only. -/
theorem entry_of_overflow {w : W} {g : Gen} {ws : Registry W}
    (h : registerFutureWaker w g ws = none) : ∃ p, entry w ws = some (p, usizeMax) := by
  induction ws with
  | nil => cases h
  | cons x ws ih =>
    cases x with
    | thread t g' =>
      rw [registerFutureWaker, Option.map_eq_none_iff] at h
      exact ih h
    | waker e p n g' =>
      rw [registerFutureWaker] at h
      rw [entry_waker]
      split at h
      · rename_i hew
        rw [if_pos hew]
        split at h
        · rename_i hmax
          exact ⟨p, by rw [hmax]⟩
        · cases h
      · rename_i hew
        rw [if_neg hew]
        exact ih (Option.map_eq_none_iff.mp h)

/-- What a future's cancellation leaves of an entry `(persistent, future_owners)`. -/
def released (p : Bool) (n : Nat) : Option (Bool × Nat) :=
  if p || n - 1 != 0 then some (p, n - 1) else none

theorem entry_cancel_none (mine : List W) {a : W} {ws : Registry W} (h : entry a ws = none) :
    entry a (cancel mine ws) = none := by
  induction ws with
  | nil => rfl
  | cons x ws ih =>
    cases x with
    | thread t g => exact ih h
    | waker e p n g =>
      rw [entry_waker] at h
      split at h
      · cases h
      · rename_i hea
        have hrest := ih h
        rw [cancel_waker]
        split
        · split
          · rw [entry_waker, if_neg hea, hrest]
          · exact hrest
        · rw [entry_waker, if_neg hea, hrest]

/-- Cancelling a future gives back one owner of each task it recorded, and an entry left without
an owner and without a direct registration goes. -/
theorem entry_cancel (mine : List W) (a : W) {ws : Registry W} (hd : Distinct ws) :
    entry a (cancel mine ws) =
      if known mine a then (entry a ws).bind (fun e => released e.1 e.2)
      else entry a ws := by
  induction ws with
  | nil => simp
  | cons x ws ih =>
    cases x with
    | thread t g => exact ih hd
    | waker e p n g =>
      obtain ⟨hnone, hd⟩ := hd
      have ih' := ih hd
      rw [cancel_waker, entry_waker]
      by_cases hea : willWake e a
      -- the induction is on the entries, and `hnone` says that the head's task has no other
      · -- the entry of the task itself: no later entry is of this task
        have hmine : known mine e = known mine a := by
          rw [known_congr hea]
        have hrest : entry a (cancel mine ws) = none :=
          entry_cancel_none mine (by rw [← entry_congr hea]; exact hnone)
        rw [hmine, if_pos hea]
        by_cases hm : known mine a
        · rw [if_pos hm, if_pos hm]
          by_cases hk : (p || n - 1 != 0) = true
          · rw [if_pos hk, entry_waker, if_pos hea, Option.bind_some, released, if_pos hk]
          · rw [if_neg hk, hrest, Option.bind_some, released, if_neg hk]
        · rw [if_neg hm, if_neg hm, entry_waker, if_pos hea]
      · rw [if_neg hea, ← ih']
        split
        · split
          · rw [entry_waker, if_neg hea]
          · rfl
        · rw [entry_waker, if_neg hea]

/-- In a registry with one entry for each task, the entries of a task are the one found first. -/
theorem countP_wakes {ws : Registry W} (hd : Distinct ws) (w : W) :
    ws.countP (Waiter.wakes w) = if (entry w ws).isSome then 1 else 0 := by
  induction ws with
  | nil => rfl
  | cons x ws ih =>
    cases x with
    | thread t g =>
      have ih' := ih hd
      rw [List.countP_cons, ih', entry_thread]
      simp [Waiter.wakes]
    | waker e p n g =>
      have ih' := ih hd.2
      rw [entry_waker, List.countP_cons, ih', Waiter.wakes]
      by_cases he : willWake e w = true
      · have hnone : entry w ws = none := by rw [← entry_congr he]; exact hd.1
        simp [he, hnone]
      · simp [he]

/-- An entry of the task of `w` is what `entry w` finds. -/
theorem entry_of_mem {ws : Registry W} (hd : Distinct ws) {w e : W} {p : Bool} {n : Nat} {g : Gen}
    (hx : .waker e p n g ∈ ws) (hw : willWake e w = true) : entry w ws = some (p, n) := by
  induction ws with
  | nil => cases hx
  | cons x ws ih =>
    cases x with
    | thread t g' => exact ih hd (by simpa using hx)
    | waker e' p' n' g' =>
      rcases List.mem_cons.mp hx with heq | hx
      · cases heq
        rw [entry_waker, if_pos hw]
      · have hfound := ih hd.2 hx
        rw [entry_waker]
        split
        · rename_i he'
          rw [← entry_congr he', hd.1] at hfound
          cases hfound
        · exact hfound

/-! ## One entry for each task -/

theorem distinct_append_thread {t : Tid} {g : Gen} {ws : Registry W} (h : Distinct ws) :
    Distinct (ws ++ [.thread t g]) := by
  induction ws with
  | nil => trivial
  | cons x ws ih =>
    cases x with
    | thread t' g' => exact ih h
    | waker e p n g' => exact ⟨by rw [← h.1]; exact entry_append_thread e t g ws, ih h.2⟩

theorem Distinct.pushThread {ws : Registry W} (h : Distinct ws) (t : Tid) (g : Gen) :
    Distinct (pushThread t g ws) := by
  unfold Registry.pushThread
  split
  · exact h
  · exact distinct_append_thread h

theorem Distinct.retainOthers {ws : Registry W} (h : Distinct ws) (t : Tid) :
    Distinct (retainOthers t ws) := by
  induction ws with
  | nil => trivial
  | cons x ws ih =>
    cases x with
    | thread t' g =>
      rw [retainOthers_thread]
      split
      · exact ih h
      · exact ih h
    | waker e p n g =>
      rw [retainOthers_waker]
      exact ⟨by rw [entry_retainOthers]; exact h.1, ih h.2⟩

/-- A direct registration makes no second entry of a task. -/
theorem Distinct.registerWaker {ws : Registry W} (h : Distinct ws) (w : W) (g : Gen) :
    Distinct (registerWaker w g ws) := by
  induction ws with
  | nil => exact ⟨rfl, trivial⟩
  | cons x ws ih =>
    cases x with
    | thread t g' => exact ih h
    | waker e p n g' =>
      -- a flag on the head leaves its task alone
      by_cases hew : willWake e w
      · simpa [Registry.registerWaker, hew, Distinct] using h
      · simp only [Registry.registerWaker, hew, Bool.false_eq_true, if_false]
        refine ⟨?_, ih h.2⟩
        rw [entry_registerWaker, willWake_comm w e, if_neg hew]
        exact h.1

/-- A future's registration makes no second entry of a task. -/
theorem Distinct.registerFutureWaker {ws ws' : Registry W} (h : Distinct ws) {w : W} {g : Gen}
    (hr : registerFutureWaker w g ws = some ws') : Distinct ws' := by
  induction ws generalizing ws' with
  | nil =>
    simp only [Registry.registerFutureWaker, Option.some.injEq] at hr
    subst hr
    exact ⟨rfl, trivial⟩
  | cons x ws ih =>
    cases x with
    | thread t g' =>
      simp only [Registry.registerFutureWaker, Option.map_eq_some_iff] at hr
      obtain ⟨ws₀, h₀, rfl⟩ := hr
      exact @ih ws₀ h h₀
    | waker e p n g' =>
      by_cases hew : willWake e w
      · simp only [Registry.registerFutureWaker, hew, if_true] at hr
        split at hr
        · cases hr
        · cases hr
          exact h
      · simp only [Registry.registerFutureWaker, hew, Bool.false_eq_true, if_false,
          Option.map_eq_some_iff] at hr
        obtain ⟨ws₀, h₀, rfl⟩ := hr
        refine ⟨?_, ih h.2 h₀⟩
        rw [entry_registerFutureWaker h₀, willWake_comm w e, if_neg hew]
        exact h.1

/-- A cancellation makes no second entry of a task. -/
theorem Distinct.cancel {ws : Registry W} (h : Distinct ws) (mine : List W) :
    Distinct (cancel mine ws) := by
  induction ws with
  | nil => trivial
  | cons x ws ih =>
    cases x with
    | thread t g => exact ih h
    | waker e p n g =>
      have htail : Distinct (Registry.cancel mine ws) := ih h.2
      have hhead : entry e (Registry.cancel mine ws) = none := entry_cancel_none mine h.1
      rw [cancel_waker]
      split
      · split
        · exact ⟨hhead, htail⟩
        · exact htail
      · exact ⟨hhead, htail⟩

/-! ## The threads of a registry -/

def queued (t : Tid) (ws : Registry W) : Bool := ws.any (Waiter.isThread t)

omit [WillWake W] in
@[simp] theorem queued_nil (t : Tid) : queued t ([] : Registry W) = false := rfl

omit [WillWake W] in
@[simp] theorem queued_thread (t t' : Tid) (g : Gen) (ws : Registry W) :
    queued t (.thread t' g :: ws) = (t' == t || queued t ws) := by
  simp [queued, Waiter.isThread]

omit [WillWake W] in
@[simp] theorem queued_waker (t : Tid) (e : W) (p : Bool) (n : Nat) (g : Gen) (ws : Registry W) :
    queued t (.waker e p n g :: ws) = queued t ws := by
  simp [queued, Waiter.isThread]

omit [WillWake W] in
theorem queued_of_mem {t : Tid} {x : Waiter W} {ws : Registry W} (hx : x ∈ ws)
    (ht : x.isThread t = true) : queued t ws = true :=
  List.any_eq_true.mpr ⟨x, hx, ht⟩

omit [WillWake W] in
theorem queued_pushThread (t u : Tid) (g : Gen) (ws : Registry W) :
    queued u (pushThread t g ws) = (t == u || queued u ws) := by
  unfold pushThread
  split
  · rename_i hlast
    -- the last entry is the pushing thread's own, so nobody new is queued
    cases hl : ws.getLast? with
    | none => simp [hl] at hlast
    | some x =>
      rw [hl, Option.any_some] at hlast
      by_cases htu : t = u
      · subst htu
        rw [queued_of_mem (List.mem_of_getLast? hl) hlast]
        simp
      · simp [htu]
  · simp [queued, Waiter.isThread, Bool.or_comm]

omit [WillWake W] in
theorem queued_retainOthers (t u : Tid) (ws : Registry W) :
    queued u (retainOthers t ws) = (t != u && queued u ws) := by
  induction ws with
  | nil => simp
  | cons x ws ih =>
    cases x with
    | thread t' g =>
      rw [retainOthers_thread]
      by_cases h : t' = t
      · subst h
        rw [if_pos rfl, ih, queued_thread]
        cases hu : (t' == u) <;> simp [bne, hu]
      · rw [if_neg h, queued_thread, queued_thread, ih]
        cases hu : (t == u) with
        | false => simp [bne, hu]
        | true =>
          -- the removed thread is the one that was asked for
          have htu : t = u := beq_iff_eq.mp hu
          subst htu
          simp [bne, h]
    | waker e p n g => rw [retainOthers_waker, queued_waker, queued_waker, ih]

theorem queued_registerWaker (w : W) (g : Gen) (u : Tid) (ws : Registry W) :
    queued u (registerWaker w g ws) = queued u ws := by
  induction ws with
  | nil => simp [registerWaker]
  | cons x ws ih =>
    cases x with
    | thread t g' => simp [registerWaker, ih]
    | waker e p n g' =>
      rw [registerWaker]
      split
      · simp
      · simp [ih]

theorem queued_registerFutureWaker {w : W} {g : Gen} {ws ws' : Registry W}
    (h : registerFutureWaker w g ws = some ws') (u : Tid) : queued u ws' = queued u ws := by
  induction ws generalizing ws' with
  | nil =>
    simp only [registerFutureWaker, Option.some.injEq] at h
    subst h
    simp
  | cons x ws ih =>
    cases x with
    | thread t g' =>
      simp only [registerFutureWaker, Option.map_eq_some_iff] at h
      obtain ⟨ws₀, h₀, rfl⟩ := h
      simp [ih h₀]
    | waker e p n g' =>
      rw [registerFutureWaker] at h
      split at h
      · split at h
        · cases h
        · cases h
          simp
      · obtain ⟨ws₀, h₀, rfl⟩ := Option.map_eq_some_iff.mp h
        simp [ih h₀]

theorem queued_cancel (mine : List W) (u : Tid) (ws : Registry W) :
    queued u (cancel mine ws) = queued u ws := by
  induction ws with
  | nil => rfl
  | cons x ws ih =>
    cases x with
    | thread t g => simp [ih]
    | waker e p n g =>
      rw [cancel_waker]
      split
      · split <;> simp [ih]
      · simp [ih]

/-! ## What holds of every entry -/

/-- The property looks at neither the flag nor the count. -/
def Stable (P : Waiter W → Prop) : Prop :=
  ∀ e p n p' n' g, P (.waker e p n g) → P (.waker e p' n' g)

variable {P : Waiter W → Prop} {ws ws' : Registry W}

omit [WillWake W] in
/-- What holds of the new entry and of all old ones holds behind a push. -/
theorem forall_pushThread {t : Tid} {g : Gen} (hnew : P (.thread t g)) (h : ∀ x ∈ ws, P x) :
    ∀ x ∈ pushThread t g ws, P x := by
  unfold pushThread
  split
  · exact h
  · intro x hx
    rcases List.mem_append.mp hx with hx | hx
    · exact h x hx
    · rw [List.mem_singleton.mp hx]
      exact hnew

omit [WillWake W] in
theorem forall_retainOthers (t : Tid) (h : ∀ x ∈ ws, P x) : ∀ x ∈ retainOthers t ws, P x :=
  fun x hx => h x (List.mem_filter.mp hx).1

/-- What holds of entries whatever their flags and counts are is kept by a direct registration. -/
theorem forall_registerWaker (hs : Stable P) {w : W} {g : Gen}
    (hnew : P (.waker (WillWake.clone w) true 0 g))
    (h : ∀ x ∈ ws, P x) : ∀ x ∈ registerWaker w g ws, P x := by
  induction ws with
  | nil => simpa [registerWaker] using hnew
  | cons y ws ih =>
    obtain ⟨hy, hws⟩ := List.forall_mem_cons.mp h
    cases y with
    | thread t g' => exact List.forall_mem_cons.mpr ⟨hy, ih hws⟩
    | waker e p n g' =>
      rw [registerWaker]
      split
      · exact List.forall_mem_cons.mpr ⟨hs e p n true n g' hy, hws⟩
      · exact List.forall_mem_cons.mpr ⟨hy, ih hws⟩

/-- What holds of entries whatever their flags and counts are is kept by a future's registration. -/
theorem forall_registerFutureWaker (hs : Stable P) {w : W} {g : Gen}
    (hnew : P (.waker (WillWake.clone w) false 1 g)) (hr : registerFutureWaker w g ws = some ws')
    (h : ∀ x ∈ ws, P x) : ∀ x ∈ ws', P x := by
  induction ws generalizing ws' with
  | nil =>
    simp only [registerFutureWaker, Option.some.injEq] at hr
    subst hr
    simpa using hnew
  | cons y ws ih =>
    obtain ⟨hy, hws⟩ := List.forall_mem_cons.mp h
    cases y with
    | thread t g' =>
      obtain ⟨ws₀, h₀, rfl⟩ := Option.map_eq_some_iff.mp hr
      exact List.forall_mem_cons.mpr ⟨hy, ih h₀ hws⟩
    | waker e p n g' =>
      rw [registerFutureWaker] at hr
      split at hr
      · split at hr
        · cases hr
        · cases hr
          exact List.forall_mem_cons.mpr ⟨hs e p n p (n + 1) g' hy, hws⟩
      · obtain ⟨ws₀, h₀, rfl⟩ := Option.map_eq_some_iff.mp hr
        exact List.forall_mem_cons.mpr ⟨hy, ih h₀ hws⟩

/-- What holds of entries whatever their flags and counts are is kept by a cancellation. -/
theorem forall_cancel (hs : Stable P) (mine : List W) (h : ∀ x ∈ ws, P x) :
    ∀ x ∈ cancel mine ws, P x := by
  induction ws with
  | nil => simp
  | cons y ws ih =>
    obtain ⟨hy, hws⟩ := List.forall_mem_cons.mp h
    cases y with
    | thread t g' => exact List.forall_mem_cons.mpr ⟨hy, ih hws⟩
    | waker e p n g' =>
      rw [cancel_waker]
      split
      · split
        · exact List.forall_mem_cons.mpr ⟨hs e p n p (n - 1) g' hy, ih hws⟩
        · exact ih hws
      · exact List.forall_mem_cons.mpr ⟨hy, ih hws⟩

/-! ## No operation adds more than one entry -/

omit [WillWake W] in
theorem length_pushThread (t : Tid) (g : Gen) (ws : Registry W) :
    (pushThread t g ws).length ≤ ws.length + 1 := by
  unfold pushThread
  split
  · omega
  · simp

theorem length_registerWaker (w : W) (g : Gen) (ws : Registry W) :
    (registerWaker w g ws).length ≤ ws.length + 1 := by
  induction ws with
  | nil => simp [registerWaker]
  | cons y ws ih =>
    cases y with
    | thread t g' => simpa [registerWaker] using ih
    | waker e p n g' =>
      rw [registerWaker]
      split
      · simp
      · simpa using ih

theorem length_registerFutureWaker {w : W} {g : Gen}
    (hr : registerFutureWaker w g ws = some ws') : ws'.length ≤ ws.length + 1 := by
  induction ws generalizing ws' with
  | nil =>
    simp only [registerFutureWaker, Option.some.injEq] at hr
    subst hr
    simp
  | cons y ws ih =>
    cases y with
    | thread t g' =>
      obtain ⟨ws₀, h₀, rfl⟩ := Option.map_eq_some_iff.mp hr
      simpa using ih h₀
    | waker e p n g' =>
      rw [registerFutureWaker] at hr
      split at hr
      · split at hr
        · cases hr
        · cases hr
          simp
      · obtain ⟨ws₀, h₀, rfl⟩ := Option.map_eq_some_iff.mp hr
        simpa using ih h₀

end Registry
end Observe
