import Observe.Lib.Handles
import Observe.Lib.ReleaseAcquire

/-!
# Reference counts in release-acquire memory

The count of an object is an atomic that is incremented and decremented, and read by a load that may
return an old message.  The handle of a holder is lent to those who use the object, and has an owner
when it is to be dropped or to be moved; what the two know at least is a view each.  A clock for each
kind of access tells whether somebody who takes the object for his own comes after everybody who has
used it.

The rules say what a load of the count that returns one is worth.  That whoever reads one is alone
holds for all orderings; that he also comes after all others takes decrements that release.
-/

namespace Observe.Lib

inductive ArcLoc (X I : Type*) where
  /-- The count of an object. -/
  | count (i : I)
  /-- The uses of the object through the handle of `x`. -/
  | used (i : I) (x : X)
  /-- The accesses by those who had the object for their own. -/
  | owned (i : I)
deriving DecidableEq

def ArcLoc.Of {X I : Type*} (i : I) : ArcLoc X I → Prop
  | .count _ => False
  | .used j _ => j = i
  | .owned j => j = i

/-- The orderings of an `Arc`'s own accesses to its count. -/
structure ArcOrders where
  /-- of the `fetch_add` of a clone -/
  increment : MemOrder
  /-- of the `fetch_sub` of a drop -/
  decrement : MemOrder
  /-- of the load by whoever has dropped the last handle -/
  last : MemOrder

/-- What an `Arc` is documented to do: a clone acquires nothing, a drop releases, and the last one
acquires what the others have released. -/
structure ArcOrders.Documented (a : ArcOrders) : Prop where
  increment : a.increment.acquires = false
  decrement : a.decrement = .release
  last : a.last.acquires = true

def ArcOrders.standard : ArcOrders := ⟨.relaxed, .release, .acquire⟩

theorem ArcOrders.standard_documented : standard.Documented := ⟨rfl, rfl, rfl⟩

theorem ArcOrders.Documented.releases {a : ArcOrders} (h : a.Documented) :
    a.decrement.releases = true := by
  rw [h.decrement]
  rfl

structure ArcMem (X I : Type*) where
  count : I → History (ArcLoc X I) Nat
  /-- What whoever borrows the handle of `x` knows at least. -/
  lent : X → View (ArcLoc X I)
  /-- What the owner of the handle of `x` knows at least. -/
  view : X → View (ArcLoc X I)
  /-- The accesses so far. -/
  clock : ArcLoc X I → Nat
  /-- An access has been made without knowledge of one that it has to come after. -/
  unordered : Prop

namespace ArcMem

variable {X I : Type*} [DecidableEq X] [DecidableEq I]

def empty : ArcMem X I where
  count _ := .init 0
  lent _ := ⊥
  view _ := ⊥
  clock _ := 0
  unordered := False

omit [DecidableEq X] [DecidableEq I] in
/-- The view `v` has every access of the object. -/
def Covers (m : ArcMem X I) (v : View (ArcLoc X I)) (i : I) : Prop :=
  ∀ ℓ, ℓ.Of i → m.clock ℓ ≤ v ℓ

omit [DecidableEq X] [DecidableEq I] in
/-- There has not been an object `i`. -/
structure Fresh (m : ArcMem X I) (i : I) : Prop where
  count : m.count i = .init 0
  clock : ∀ ℓ : ArcLoc X I, ℓ.Of i → m.clock ℓ = 0

def own (m : ArcMem X I) (x : X) (v : View (ArcLoc X I)) : ArcMem X I :=
  { m with lent := Function.update m.lent x v, view := Function.update m.view x v }

def make (m : ArcMem X I) (i : I) : ArcMem X I :=
  { m with count := Function.update m.count i (.init 1) }

/-- `Arc::clone`, by somebody who borrows the handle of `x`. -/
def clone (m : ArcMem X I) (a : ArcOrders) (x y : X) (i : I) : ArcMem X I :=
  let v := (m.count i).rmwView (.count i) a.increment (m.lent x)
  { m with
    count := Function.update m.count i
      ((m.count i).rmw (.count i) a.increment (· + 1) (m.lent x))
    view := Function.update (Function.update m.view x (m.view x ⊔ v)) y v
    lent := Function.update m.lent y v }

def move (m : ArcMem X I) (x y : X) : ArcMem X I := m.own y (m.view x)

def join (m : ArcMem X I) (x y : X) : ArcMem X I := m.own x (m.view x ⊔ m.view y)

def load (m : ArcMem X I) (x : X) (i : I) (o : MemOrder) (k : Nat)
    (msg : Message (ArcLoc X I) Nat) : ArcMem X I :=
  m.own x ((m.view x).learn (.count i) k o msg)

def decrement (m : ArcMem X I) (a : ArcOrders) (x : X) (i : I) : ArcMem X I :=
  { m with
    count := Function.update m.count i
      ((m.count i).rmw (.count i) a.decrement (· - 1) (m.view x)) }.own x
    ((m.count i).rmwView (.count i) a.decrement (m.view x))

/-- A use of the object through the handle of `x`, which has to come after those who had the object
for their own. -/
def use (m : ArcMem X I) (x : X) (i : I) : ArcMem X I :=
  { m with
    clock := Function.update m.clock (.used i x) (m.clock (.used i x) + 1)
    view := Function.update m.view x ((m.view x).reach (.used i x) (m.clock (.used i x) + 1))
    unordered := m.unordered ∨ m.lent x (.owned i) < m.clock (.owned i) }

/-- An access by somebody who takes the object for his own, which has to come after all others. -/
def take (m : ArcMem X I) (x : X) (i : I) : ArcMem X I :=
  { m with
    clock := Function.update m.clock (.owned i) (m.clock (.owned i) + 1)
    unordered := m.unordered ∨ ¬ m.Covers (m.view x) i }.own x
    ((m.view x).reach (.owned i) (m.clock (.owned i) + 1))

/-- `Arc::drop`: whoever drops the last handle loads the count, and drops the object. -/
def drop (m : ArcMem X I) (a : ArcOrders) (x : X) (i : I) : ArcMem X I :=
  if (m.count i).last.val = 1 then
    ((m.decrement a x i).load x i a.last ((m.count i).top + 1)
      ((m.decrement a x i).count i).last).take x i
  else m.decrement a x i

section Ok

variable {m : ArcMem X I} {a : ArcOrders} {h : Handles X I} {x y z : X} {i : I}
  {v : View (ArcLoc X I)}

omit [DecidableEq X] [DecidableEq I] in
structure Ok (m : ArcMem X I) (a : ArcOrders) (h : Handles X I) : Prop where
  counted : ∀ i, h.Held i → (m.count i).last.val = h.count i
  lent : ∀ x, m.lent x ≤ m.view x
  bounded : ∀ x i, m.view x (.count i) ≤ (m.count i).top
  messages : ∀ k, ∀ msg ∈ (m.count k).messages, ∀ i, msg.view (.count i) ≤ (m.count i).top
  /-- Of the messages that a holder can still read, all but the newest count somebody else. -/
  many : ∀ x i, h.of x = some i → ∀ (k : Nat) (msg : Message (ArcLoc X I) Nat),
    m.view x (.count i) ≤ k → k < (m.count i).top → (m.count i).messages[k]? = some msg →
    2 ≤ msg.val
  /-- Where drops release, every access is known to a holder, or to whoever acquires the count. -/
  covered : a.decrement.releases = true → ∀ i, h.Held i → ∀ ℓ : ArcLoc X I, ℓ.Of i →
    m.clock ℓ ≤ (m.count i).last.view ℓ ∨ ∃ x, h.of x = some i ∧ m.clock ℓ ≤ m.view x ℓ

omit [DecidableEq X] [DecidableEq I] in
theorem Ok.empty : (empty : ArcMem X I).Ok a .empty := by
  refine ⟨fun i hi => ?_, fun _ => le_rfl, fun _ _ => le_rfl, fun k msg hmsg i => ?_,
    fun x i hx => ?_, fun _ i hi => ?_⟩
  · obtain ⟨x, hx⟩ := hi
    cases hx
  · rw [ArcMem.empty, History.messages_init, List.mem_singleton] at hmsg
    rw [hmsg]
    exact le_rfl
  · cases hx
  · obtain ⟨x, hx⟩ := hi
    cases hx

/-! ## The owner of a handle learns -/

omit [DecidableEq I] in
theorem view_own : (m.own x v).view x = v := Function.update_self ..

omit [DecidableEq I] in
theorem lent_own : (m.own x v).lent x = v := Function.update_self ..

omit [DecidableEq I] in
theorem view_own_of_ne (hz : z ≠ x) : (m.own x v).view z = m.view z := Function.update_of_ne hz ..

omit [DecidableEq I] in
theorem lent_own_of_ne (hz : z ≠ x) : (m.own x v).lent z = m.lent z := Function.update_of_ne hz ..

omit [DecidableEq I] in
theorem view_le_update (hv : m.view x ≤ v) (z : X) :
    m.view z ≤ Function.update m.view x v z := by
  by_cases hz : z = x
  · rw [hz, Function.update_self]
    exact hv
  · rw [Function.update_of_ne hz]

namespace Ok

omit [DecidableEq I] in
/-- Somebody learns. -/
theorem grow (hm : m.Ok a h) (hv : m.view x ≤ v) (hb : ∀ i, v (.count i) ≤ (m.count i).top)
    {l : X → View (ArcLoc X I)} (hl : ∀ z, l z ≤ Function.update m.view x v z) :
    ({ m with lent := l, view := Function.update m.view x v } : ArcMem X I).Ok a h where
  counted := hm.counted
  lent := hl
  bounded z i := by
    by_cases hz : z = x
    · subst hz
      show Function.update m.view z v z (.count i) ≤ _
      rw [Function.update_self]
      exact hb i
    · show Function.update m.view x v z (.count i) ≤ _
      rw [Function.update_of_ne hz]
      exact hm.bounded z i
  messages := hm.messages
  many z i hz k msg hk := hm.many z i hz k msg ((view_le_update hv z _).trans hk)
  covered hrel i hi ℓ hℓ := by
    rcases hm.covered hrel i hi ℓ hℓ with hlast | ⟨z, hz, hc⟩
    · exact .inl hlast
    · exact .inr ⟨z, hz, hc.trans (view_le_update hv z ℓ)⟩

omit [DecidableEq I] in
theorem own (hm : m.Ok a h) (hv : m.view x ≤ v)
    (hb : ∀ i, v (.count i) ≤ (m.count i).top) : (m.own x v).Ok a h := by
  refine hm.grow hv hb fun z => ?_
  by_cases hz : z = x
  · rw [hz, Function.update_self, Function.update_self]
  · rw [Function.update_of_ne hz, Function.update_of_ne hz]
    exact hm.lent z

omit [DecidableEq I] in
/-- Two handles in one hand know what both know. -/
theorem join (hm : m.Ok a h) (x y : X) : (m.join x y).Ok a h :=
  hm.own le_sup_left fun i => sup_le (hm.bounded x i) (hm.bounded y i)

/-- A load of the count. -/
theorem load (hm : m.Ok a h) {k : Nat} {msg : Message (ArcLoc X I) Nat} (o : MemOrder)
    (hr : (m.count i).Reads (.count i) (m.view x) k msg) : (m.load x i o k msg).Ok a h := by
  refine hm.own History.le_learn fun j => ?_
  have hmsg := hm.messages i msg hr.message j
  have hplace : (m.view x).reach (.count i) k (.count j) ≤ (m.count j).top := by
    by_cases hj : j = i
    · rw [hj, View.reach_self]
      exact max_le (hm.bounded x i) hr.le_top
    · rw [View.reach_of_ne _ (by simpa using hj)]
      exact hm.bounded x j
  show ((m.view x).reach (.count i) k ⊔ if o.acquires then msg.view else ⊥) (.count j) ≤ _
  cases o.acquires with
  | true => exact sup_le hplace hmsg
  | false => exact sup_le hplace (Nat.zero_le _)

end Ok

/-! ## Read-modify-writes of the count -/

section Rmw

variable (m : ArcMem X I) (i : I) (o : MemOrder) (f : Nat → Nat) (u : View (ArcLoc X I))

def rmw : I → History (ArcLoc X I) Nat :=
  Function.update m.count i ((m.count i).rmw (.count i) o f u)

@[simp] theorem rmw_self : m.rmw i o f u i = (m.count i).rmw (.count i) o f u :=
  Function.update_self ..

variable {i} in
theorem rmw_of_ne {j : I} (hj : j ≠ i) : m.rmw i o f u j = m.count j := Function.update_of_ne hj ..

theorem top_rmw_self : (m.rmw i o f u i).top = (m.count i).top + 1 := by
  rw [rmw_self, History.top_rmw]

theorem top_le_rmw (j : I) : (m.count j).top ≤ (m.rmw i o f u j).top := by
  by_cases hj : j = i
  · rw [hj, top_rmw_self]
    omega
  · rw [rmw_of_ne m o f u hj]

/-- The new message hands on what the newest one so far did. -/
theorem last_view_le_rmw (j : I) :
    (m.count j).last.view ≤ (m.rmw i o f u j).last.view := by
  by_cases hj : j = i
  · rw [hj, rmw_self]
    exact le_sup_left
  · rw [rmw_of_ne m o f u hj]

end Rmw

variable {m : ArcMem X I} {a : ArcOrders} {h : Handles X I} {x y z : X} {i j : I}
  {u v : View (ArcLoc X I)} {o : MemOrder} {f : Nat → Nat}

namespace Ok

/-- What somebody who knows `u` knows after a read-modify-write. -/
theorem rmwView_le_top (hm : m.Ok a h) (hu : ∀ j, u (.count j) ≤ (m.count j).top) (j : I) :
    (m.count i).rmwView (.count i) o u (.count j) ≤ (m.rmw i o f u j).top := by
  have hplace : u.reach (.count i) ((m.count i).top + 1) (.count j) ≤ (m.rmw i o f u j).top := by
    by_cases hj : j = i
    · have hi := hu i
      rw [hj, View.reach_self, top_rmw_self]
      omega
    · rw [View.reach_of_ne _ (by simpa using hj)]
      exact (hu j).trans (m.top_le_rmw i o f u j)
  show (u.reach (.count i) ((m.count i).top + 1) ⊔
    if o.acquires then (m.count i).last.view else ⊥) (.count j) ≤ _
  cases o.acquires with
  | true => exact sup_le hplace ((hm.messages i _ History.last_mem j).trans (m.top_le_rmw i o f u j))
  | false => exact sup_le hplace (Nat.zero_le _)

/-- No message knows more than there is. -/
theorem messages_rmw (hm : m.Ok a h) (hu : ∀ j, u (.count j) ≤ (m.count j).top) (k : I) :
    ∀ msg ∈ (m.rmw i o f u k).messages, ∀ j, msg.view (.count j) ≤ (m.rmw i o f u j).top := by
  have hold (k : I) (msg : Message (ArcLoc X I) Nat) (hmsg : msg ∈ (m.count k).messages) (j : I) :
      msg.view (.count j) ≤ (m.rmw i o f u j).top :=
    (hm.messages k msg hmsg j).trans (m.top_le_rmw i o f u j)
  by_cases hk : k = i
  · rw [hk, rmw_self]
    let G (v : View (ArcLoc X I)) : Prop := ∀ j, v (.count j) ≤ (m.rmw i o f u j).top
    exact History.views_rmw (G := G) (fun v w hv hw j => sup_le (hv j) (hw j)) (hold i)
      (fun j => Nat.zero_le _) fun j => hm.rmwView_le_top hu j
  · rw [rmw_of_ne m o f u hk]
    exact hold k

/-- A holder of `i` who is not the one that makes the read-modify-write. -/
theorem many_rmw (hm : m.Ok a h) (hx : h.of x = some i) (hz : h.of z = some i) (hxz : x ≠ z)
    {k : Nat} {msg : Message (ArcLoc X I) Nat} (hk : m.view z (.count i) ≤ k)
    (hlt : k < (m.rmw i o f u i).top) (hmsg : (m.rmw i o f u i).messages[k]? = some msg) :
    2 ≤ msg.val := by
  rw [top_rmw_self] at hlt
  rw [rmw_self, History.messages_rmw,
    List.getElem?_append_left (by rw [History.length_messages]; exact hlt)] at hmsg
  rcases Nat.lt_or_ge k (m.count i).top with hold | hnew
  · exact hm.many z i hz k msg hk hold hmsg
  · -- the newest message so far, which counts both
    have htop : k = (m.count i).top := by omega
    rw [htop, History.getElem?_top] at hmsg
    cases hmsg
    rw [hm.counted i ⟨x, hx⟩]
    exact h.two_le_count hx hz hxz

/-- A clone's handle counts. -/
theorem clone (hm : m.Ok a h) (hx : h.of x = some i) (hy : h.of y = none) :
    (m.clone a x y i).Ok a (h.grab y i) := by
  have hxy : x ≠ y := by
    rintro rfl
    rw [hx] at hy
    cases hy
  have hlent (j : I) : m.lent x (.count j) ≤ (m.count j).top := (hm.lent x _).trans (hm.bounded x j)
  have hview := hm.rmwView_le_top (i := i) (f := (· + 1)) (o := a.increment) hlent
  have hplace : (m.count i).top + 1 ≤
      (m.count i).rmwView (.count i) a.increment (m.lent x) (.count i) := History.learn_self
  have hself : (m.clone a x y i).view y = (m.count i).rmwView (.count i) a.increment (m.lent x) :=
    Function.update_self ..
  have hfrom : (m.clone a x y i).view x =
      m.view x ⊔ (m.count i).rmwView (.count i) a.increment (m.lent x) :=
    (Function.update_of_ne hxy _ _).trans (Function.update_self ..)
  have hother (z : X) (hzx : z ≠ x) (hzy : z ≠ y) : (m.clone a x y i).view z = m.view z :=
    (Function.update_of_ne hzy _ _).trans (Function.update_of_ne hzx _ _)
  have hgrow (z : X) (hzy : z ≠ y) : m.view z ≤ (m.clone a x y i).view z := by
    by_cases hzx : z = x
    · rw [hzx, hfrom]
      exact le_sup_left
    · rw [hother z hzx hzy]
  refine ⟨?counted, ?lent, ?bounded, hm.messages_rmw hlent, ?many, ?covered⟩
  case counted =>
    intro j hj
    rw [h.count_grab hy]
    show (m.rmw i a.increment (· + 1) (m.lent x) j).last.val = _
    by_cases hji : j = i
    · rw [if_pos hji, hji, rmw_self, History.last_rmw, hm.counted i ⟨x, hx⟩]
    · rw [if_neg hji, rmw_of_ne m _ _ _ hji]
      exact hm.counted j (((h.held_grab hy i j).mp hj).resolve_left hji)
  case lent =>
    intro z
    by_cases hzy : z = y
    · rw [hzy, hself]
      exact (Function.update_self ..).le
    · have hz : (m.clone a x y i).lent z = m.lent z := Function.update_of_ne hzy ..
      rw [hz]
      exact (hm.lent z).trans (hgrow z hzy)
  case bounded =>
    intro z j
    have hold := (hm.bounded z j).trans (m.top_le_rmw i a.increment (· + 1) (m.lent x) j)
    by_cases hzy : z = y
    · rw [hzy, hself]
      exact hview j
    · by_cases hzx : z = x
      · rw [hzx, hfrom]
        exact sup_le (hzx ▸ hold) (hview j)
      · rw [hother z hzx hzy]
        exact hold
  case many =>
    intro z j hz k msg hk hlt hmsg
    -- neither of the two has an older message of `i` in view
    have hnew (hle : (m.count i).top + 1 ≤ (m.clone a x y i).view z (.count i)) (hji : j = i) :
        2 ≤ msg.val := by
      subst hji
      have htop := m.top_rmw_self j a.increment (· + 1) (m.lent x)
      have hlt' : k < (m.rmw j a.increment (· + 1) (m.lent x) j).top := hlt
      omega
    rcases Handles.of_grab_eq_some hz with ⟨hzy, hji⟩ | ⟨hzy, hzj⟩
    · refine hnew ?_ hji
      rw [hzy, hself]
      exact hplace
    · by_cases hji : j = i
      · by_cases hzx : z = x
        · refine hnew ?_ hji
          rw [hzx, hfrom]
          exact hplace.trans (le_sup_right (a := m.view x) _)
        · subst hji
          rw [hother z hzx hzy] at hk
          exact hm.many_rmw hx hzj (Ne.symm hzx) hk hlt hmsg
      · have hcount : (m.clone a x y i).count j = m.count j := rmw_of_ne m _ _ _ hji
        rw [hcount] at hlt hmsg
        exact hm.many z j hzj k msg ((hgrow z hzy _).trans hk) hlt hmsg
  case covered =>
    intro hrel j hj ℓ hℓ
    have hold : h.Held j := by
      rcases (h.held_grab hy i j).mp hj with rfl | hold
      · exact ⟨x, hx⟩
      · exact hold
    rcases hm.covered hrel j hold ℓ hℓ with hlast | ⟨z, hz, hc⟩
    · exact .inl (hlast.trans (m.last_view_le_rmw i a.increment (· + 1) (m.lent x) j ℓ))
    · have hzy : z ≠ y := by
        rintro rfl
        rw [hy] at hz
        cases hz
      exact .inr ⟨z, by rw [Handles.of_grab_of_ne _ hzy, hz], hc.trans (hgrow z hzy ℓ)⟩

/-- A handle that is dropped does not count. -/
theorem decrement (hm : m.Ok a h) (hx : h.of x = some i) :
    (m.decrement a x i).Ok a (h.release x) := by
  have hview := hm.rmwView_le_top (i := i) (f := (· - 1)) (o := a.decrement) (hm.bounded x)
  have hself : (m.decrement a x i).view x = (m.count i).rmwView (.count i) a.decrement (m.view x) :=
    Function.update_self ..
  have hother (z : X) (hzx : z ≠ x) : (m.decrement a x i).view z = m.view z :=
    Function.update_of_ne hzx ..
  refine ⟨?counted, ?lent, ?bounded, hm.messages_rmw (hm.bounded x), ?many, ?covered⟩
  case counted =>
    intro j hj
    obtain ⟨z, -, hzj⟩ := (h.held_release x j).mp hj
    show (m.rmw i a.decrement (· - 1) (m.view x) j).last.val = _
    by_cases hji : j = i
    · have hcount := h.count_release_add_one hx
      rw [hji, rmw_self, History.last_rmw, hm.counted i ⟨x, hx⟩]
      omega
    · rw [rmw_of_ne m _ _ _ hji, h.count_release_of_ne hx hji]
      exact hm.counted j ⟨z, hzj⟩
  case lent =>
    intro z
    by_cases hzx : z = x
    · rw [hzx, hself]
      exact (Function.update_self ..).le
    · have hz : (m.decrement a x i).lent z = m.lent z := Function.update_of_ne hzx ..
      rw [hz, hother z hzx]
      exact hm.lent z
  case bounded =>
    intro z j
    by_cases hzx : z = x
    · rw [hzx, hself]
      exact hview j
    · rw [hother z hzx]
      exact (hm.bounded z j).trans (m.top_le_rmw i a.decrement (· - 1) (m.view x) j)
  case many =>
    intro z j hz k msg hk hlt hmsg
    obtain ⟨hzx, hzj⟩ := Handles.of_release_eq_some_iff.mp hz
    rw [hother z hzx] at hk
    by_cases hji : j = i
    · subst hji
      exact hm.many_rmw hx hzj (Ne.symm hzx) hk hlt hmsg
    · have hcount : (m.decrement a x i).count j = m.count j := rmw_of_ne m _ _ _ hji
      rw [hcount] at hlt hmsg
      exact hm.many z j hzj k msg hk hlt hmsg
  case covered =>
    intro hrel j hj ℓ hℓ
    obtain ⟨z, -, hzj⟩ := (h.held_release x j).mp hj
    show m.clock ℓ ≤ (m.rmw i a.decrement (· - 1) (m.view x) j).last.view ℓ ∨ _
    rcases hm.covered hrel j ⟨z, hzj⟩ ℓ hℓ with hlast | ⟨z', hz', hc⟩
    · exact .inl (hlast.trans (m.last_view_le_rmw i a.decrement (· - 1) (m.view x) j ℓ))
    · by_cases hzx : z' = x
      · -- the message hands on what the dropped handle's owner knows
        subst hzx
        left
        rw [hx] at hz'
        cases hz'
        rw [rmw_self]
        exact hc.trans (History.le_view_rmw hrel ℓ)
      · refine .inr ⟨z', by rw [Handles.of_release_of_ne _ hzx, hz'], ?_⟩
        rw [hother z' hzx]
        exact hc

/-! ## The other moves -/

/-- A new object with its first handle. -/
theorem make (hm : m.Ok a h) (hx : h.of x = none) (hfree : ¬ h.Held i) (hfresh : m.Fresh i) :
    (m.make i).Ok a (h.grab x i) := by
  have hself : (m.make i).count i = .init 1 := Function.update_self ..
  have hother (j : I) (hj : j ≠ i) : (m.make i).count j = m.count j := Function.update_of_ne hj ..
  have htop (j : I) : ((m.make i).count j).top = (m.count j).top := by
    by_cases hj : j = i
    · rw [hj, hself, hfresh.count]
      rfl
    · rw [hother j hj]
  have hof (z : X) (j : I) (hj : j ≠ i) (hz : (h.grab x i).of z = some j) : h.of z = some j := by
    by_cases hzx : z = x
    · rw [hzx, Handles.of_grab_self] at hz
      exact absurd (Option.some.inj hz).symm hj
    · rwa [Handles.of_grab_of_ne _ hzx] at hz
  refine ⟨?counted, hm.lent, ?bounded, ?messages, ?many, ?covered⟩
  case counted =>
    intro j hj
    rw [h.count_grab hx]
    by_cases hji : j = i
    · have hzero : h.count i = 0 := (h.count_eq_zero_iff i).mpr fun z hz => hfree ⟨z, hz⟩
      rw [if_pos hji, hji, hself, hzero]
      rfl
    · rw [if_neg hji, hother j hji]
      exact hm.counted j (((h.held_grab hx i j).mp hj).resolve_left hji)
  case bounded =>
    intro z j
    rw [htop]
    exact hm.bounded z j
  case messages =>
    intro k msg hmsg j
    rw [htop]
    by_cases hk : k = i
    · rw [hk, hself, History.messages_init, List.mem_singleton] at hmsg
      rw [hmsg]
      exact Nat.zero_le _
    · rw [hother k hk] at hmsg
      exact hm.messages k msg hmsg j
  case many =>
    intro z j hz k msg hk hlt hmsg
    by_cases hj : j = i
    · rw [hj, hself] at hlt
      exact absurd hlt (Nat.not_lt_zero k)
    · rw [hother j hj] at hlt hmsg
      exact hm.many z j (hof z j hj hz) k msg hk hlt hmsg
  case covered =>
    intro hrel j hj ℓ hℓ
    by_cases hji : j = i
    · left
      subst hji
      have hzero : (m.make j).clock ℓ = 0 := hfresh.clock ℓ hℓ
      rw [hzero]
      exact Nat.zero_le _
    · rw [hother j hji]
      have hold := ((h.held_grab hx i j).mp hj).resolve_left hji
      rcases hm.covered hrel j hold ℓ hℓ with hlast | ⟨z, hz, hc⟩
      · exact .inl hlast
      · have hzx : z ≠ x := by
          rintro rfl
          rw [hx] at hz
          cases hz
        exact .inr ⟨z, by rw [Handles.of_grab_of_ne _ hzx, hz], hc⟩

/-- The handle of `x` goes to `y`. -/
theorem move (hm : m.Ok a h) (hx : h.of x = some i) (hy : h.of y = none) :
    (m.move x y).Ok a ((h.release x).grab y i) := by
  have hyx : y ≠ x := by
    rintro rfl
    rw [hx] at hy
    cases hy
  have hy' : (h.release x).of y = none := by rw [Handles.of_release_of_ne _ hyx, hy]
  -- whoever has a handle knows what an old holder of the same object knew
  have hold (z : X) (j : I) (hz : ((h.release x).grab y i).of z = some j) :
      ∃ z', h.of z' = some j ∧ (m.move x y).view z = m.view z' := by
    rcases Handles.of_grab_eq_some hz with ⟨hzy, hji⟩ | ⟨hzy, hz⟩
    · refine ⟨x, by rw [hx, hji], ?_⟩
      rw [hzy, ArcMem.move, view_own]
    · exact ⟨z, (Handles.of_release_eq_some_iff.mp hz).2, view_own_of_ne hzy⟩
  have hnew (z : X) (j : I) (hz : h.of z = some j) :
      ∃ z', ((h.release x).grab y i).of z' = some j ∧ (m.move x y).view z' = m.view z := by
    by_cases hzx : z = x
    · rw [hzx, hx] at hz
      refine ⟨y, by rw [Handles.of_grab_self, hz], ?_⟩
      rw [hzx, ArcMem.move, view_own]
    · have hzy : z ≠ y := by
        rintro rfl
        rw [hy] at hz
        cases hz
      refine ⟨z, ?_, view_own_of_ne hzy⟩
      rw [Handles.of_grab_of_ne _ hzy, Handles.of_release_of_ne _ hzx, hz]
  refine ⟨?counted, ?lent, ?bounded, hm.messages, ?many, ?covered⟩
  case counted =>
    intro j hj
    rw [h.held_move hx hy] at hj
    rw [Handles.count_grab _ hy']
    show (m.count j).last.val = _
    by_cases hji : j = i
    · rw [if_pos hji, hji, h.count_release_add_one hx]
      exact hm.counted i (hji ▸ hj)
    · rw [if_neg hji, h.count_release_of_ne hx hji]
      exact hm.counted j hj
  case lent =>
    intro z
    by_cases hzy : z = y
    · rw [hzy, ArcMem.move, lent_own, view_own]
    · rw [ArcMem.move, lent_own_of_ne hzy, view_own_of_ne hzy]
      exact hm.lent z
  case bounded =>
    intro z j
    by_cases hzy : z = y
    · rw [hzy, ArcMem.move, view_own]
      exact hm.bounded x j
    · rw [ArcMem.move, view_own_of_ne hzy]
      exact hm.bounded z j
  case many =>
    intro z j hz k msg hk
    obtain ⟨z', hz', hview⟩ := hold z j hz
    rw [hview] at hk
    exact hm.many z' j hz' k msg hk
  case covered =>
    intro hrel j hj ℓ hℓ
    rw [h.held_move hx hy] at hj
    rcases hm.covered hrel j hj ℓ hℓ with hlast | ⟨z, hz, hc⟩
    · exact .inl hlast
    · obtain ⟨z', hz', hview⟩ := hnew z j hz
      exact .inr ⟨z', hz', by rw [hview]; exact hc⟩

omit [DecidableEq I] in
/-- A handle that goes with its object, and without a decrement. -/
theorem forget (hm : m.Ok a h) (hx : h.of x = some i) (hsole : ∀ z, h.of z = some i → z = x) :
    m.Ok a (h.release x) := by
  have hne (z : X) (j : I) (hz : (h.release x).of z = some j) : z ≠ x ∧ j ≠ i ∧ h.of z = some j := by
    obtain ⟨hzx, hz⟩ := Handles.of_release_eq_some_iff.mp hz
    refine ⟨hzx, ?_, hz⟩
    rintro rfl
    exact hzx (hsole z hz)
  refine ⟨fun j hj => ?_, hm.lent, hm.bounded, hm.messages, fun z j hz => ?_,
    fun hrel j hj ℓ hℓ => ?_⟩
  · obtain ⟨z, hz⟩ := hj
    obtain ⟨-, hji, hzj⟩ := hne z j hz
    rw [h.count_release_of_ne hx hji]
    exact hm.counted j ⟨z, hzj⟩
  · exact hm.many z j (hne z j hz).2.2
  · obtain ⟨z, hz⟩ := hj
    obtain ⟨-, hji, hzj⟩ := hne z j hz
    rcases hm.covered hrel j ⟨z, hzj⟩ ℓ hℓ with hlast | ⟨z', hz', hc⟩
    · exact .inl hlast
    · have hzx : z' ≠ x := by
        rintro rfl
        rw [hx] at hz'
        exact hji (Option.some.inj hz').symm
      exact .inr ⟨z', by rw [Handles.of_release_of_ne _ hzx, hz'], hc⟩

/-- One clock ticks, and its access is known to a holder, or nobody is left to ask. -/
theorem tick (hm : m.Ok a h) (ℓ₀ : ArcLoc X I) (hℓ₀ : ℓ₀.Of i) (n : Nat) (p : Prop)
    (hknown : h.Held i → ∃ z, h.of z = some i ∧ n ≤ m.view z ℓ₀) :
    ({ m with clock := Function.update m.clock ℓ₀ n, unordered := p } : ArcMem X I).Ok a h := by
  refine ⟨hm.counted, hm.lent, hm.bounded, hm.messages, hm.many, fun hrel j hj ℓ hℓ => ?_⟩
  by_cases hℓℓ : ℓ = ℓ₀
  · have hji : j = i := by
      subst hℓℓ
      cases ℓ with
      | count k => cases hℓ
      | used k z => exact hℓ.symm.trans hℓ₀
      | owned k => exact hℓ.symm.trans hℓ₀
    subst hji
    obtain ⟨z, hz, hn⟩ := hknown hj
    refine .inr ⟨z, hz, ?_⟩
    rw [hℓℓ]
    show Function.update m.clock ℓ₀ n ℓ₀ ≤ m.view z ℓ₀
    rw [Function.update_self]
    exact hn
  · show Function.update m.clock ℓ₀ n ℓ ≤ _ ∨ ∃ z, _ ∧ Function.update m.clock ℓ₀ n ℓ ≤ _
    rw [Function.update_of_ne hℓℓ]
    exact hm.covered hrel j hj ℓ hℓ

/-- A use is known to the user's handle. -/
theorem use (hm : m.Ok a h) (hx : h.of x = some i) : (m.use x i).Ok a h := by
  have hv := (m.view x).le_reach (.used i x) (m.clock (.used i x) + 1)
  have hgrown := hm.grow hv (fun j => by
    rw [View.reach_of_ne _ (by simp)]
    exact hm.bounded x j) fun z => (hm.lent z).trans (view_le_update hv z)
  refine hgrown.tick (.used i x) rfl _ _ fun _ => ⟨x, hx, ?_⟩
  show _ ≤ Function.update m.view x _ x (.used i x)
  rw [Function.update_self, View.reach_self]
  exact le_max_right ..

/-- Whoever is alone takes the object. -/
theorem take (hm : m.Ok a h) (hx : h.Held i → h.of x = some i) : (m.take x i).Ok a h := by
  have hown := hm.own ((m.view x).le_reach (.owned i) (m.clock (.owned i) + 1)) fun j => by
    rw [View.reach_of_ne _ (by simp)]
    exact hm.bounded x j
  refine hown.tick (.owned i) rfl _ _ fun hi => ⟨x, hx hi, ?_⟩
  rw [view_own, View.reach_self]
  exact le_max_right ..

/-! ## A load that returns one -/

omit [DecidableEq X] [DecidableEq I] in
/-- **Only the newest message can be one.** -/
theorem eq_top (hm : m.Ok a h) (hx : h.of x = some i) {k : Nat} {msg : Message (ArcLoc X I) Nat}
    (hr : (m.count i).Reads (.count i) (m.view x) k msg) (hone : msg.val = 1) :
    k = (m.count i).top ∧ msg = (m.count i).last := by
  have htop : k = (m.count i).top := by
    by_contra hne
    have hle := hr.le_top
    have htwo := hm.many x i hx k msg hr.fresh (by omega) hr.mem
    omega
  have hmsg := hr.mem
  rw [htop, History.getElem?_top] at hmsg
  cases hmsg
  exact ⟨htop, rfl⟩

omit [DecidableEq X] [DecidableEq I] in
/-- **Whoever reads one is alone**, however old the messages are that he could have read. -/
theorem sole_of_reads (hm : m.Ok a h) (hx : h.of x = some i) {k : Nat}
    {msg : Message (ArcLoc X I) Nat} (hr : (m.count i).Reads (.count i) (m.view x) k msg)
    (hone : msg.val = 1) : h.count i = 1 := by
  rw [← hm.counted i ⟨x, hx⟩, ← (hm.eq_top hx hr hone).2]
  exact hone

omit [DecidableEq X] [DecidableEq I] in
/-- Whoever is alone and knows what the newest message carries knows every access. -/
theorem covers (hm : m.Ok a h) (hrel : a.decrement.releases = true) (hx : h.of x = some i)
    (hone : h.count i = 1) (hview : m.view x ≤ v) (hlast : (m.count i).last.view ≤ v) :
    m.Covers v i := by
  intro ℓ hℓ
  rcases hm.covered hrel i ⟨x, hx⟩ ℓ hℓ with hc | ⟨z, hz, hc⟩
  · exact hc.trans (hlast ℓ)
  · rw [(h.count_eq_one_iff hx).mp hone z hz] at hc
    exact hc.trans (hview ℓ)

/-- **A load that acquires, and returns one, orders every access before it.** -/
theorem covers_load (hm : m.Ok a h) (hrel : a.decrement.releases = true) (hx : h.of x = some i)
    {k : Nat}
    {msg : Message (ArcLoc X I) Nat} (hr : (m.count i).Reads (.count i) (m.view x) k msg)
    (hone : msg.val = 1) (ho : o.acquires = true) :
    (m.load x i o k msg).Covers ((m.load x i o k msg).view x) i := by
  have hcov : m.Covers ((m.view x).learn (.count i) k o msg) i := by
    refine hm.covers hrel hx (hm.sole_of_reads hx hr hone) History.le_learn ?_
    rw [← (hm.eq_top hx hr hone).2]
    exact History.view_le_learn ho
  rw [ArcMem.load, view_own]
  exact hcov

/-! ## The last handle -/

/-- Whoever drops the last handle knows every access. -/
theorem covers_drop (hm : m.Ok a h) (ha : a.Documented) (hx : h.of x = some i)
    (hone : (m.count i).last.val = 1) :
    let m' := (m.decrement a x i).load x i a.last ((m.count i).top + 1)
      ((m.decrement a x i).count i).last
    m'.Covers (m'.view x) i := by
  have hcount : h.count i = 1 := by rw [← hm.counted i ⟨x, hx⟩, hone]
  have hself : (m.decrement a x i).view x = (m.count i).rmwView (.count i) a.decrement (m.view x) :=
    Function.update_self ..
  have hlast : (m.count i).last.view ≤ ((m.decrement a x i).count i).last.view := by
    show _ ≤ (m.rmw i a.decrement (· - 1) (m.view x) i).last.view
    rw [rmw_self]
    exact le_sup_left
  intro m'
  have hview : m'.view x = ((m.decrement a x i).view x).learn (.count i) ((m.count i).top + 1)
      a.last ((m.decrement a x i).count i).last := view_own
  rw [hview]
  refine hm.covers ha.releases hx hcount ?_ (hlast.trans (History.view_le_learn ha.last))
  rw [hself]
  exact History.le_rmwView.trans History.le_learn

/-- A drop gives the handle back, the last one with the object. -/
theorem drop (hm : m.Ok a h) (hx : h.of x = some i) : (m.drop a x i).Ok a (h.release x) := by
  have hdec := hm.decrement hx
  unfold ArcMem.drop
  split
  · rename_i hone
    have htop : ((m.decrement a x i).count i).top = (m.count i).top + 1 :=
      m.top_rmw_self i a.decrement (· - 1) (m.view x)
    have hr := History.reads_last (hdec.bounded x i)
    rw [htop] at hr
    refine (hdec.load a.last hr).take fun hheld => ?_
    -- nobody holds the object any more
    have hcount := h.count_release_add_one hx
    rw [hm.counted i ⟨x, hx⟩] at hone
    have hzero : (h.release x).count i = 0 := by omega
    obtain ⟨z, hz⟩ := hheld
    exact absurd hz (((h.release x).count_eq_zero_iff i).mp hzero z)
  · exact hdec

/-- The last drop comes after every access. -/
theorem unordered_drop (hm : m.Ok a h) (ha : a.Documented) (hx : h.of x = some i) :
    (m.drop a x i).unordered ↔ m.unordered := by
  unfold ArcMem.drop
  split
  · rename_i hone
    exact or_iff_left (not_not_intro (hm.covers_drop ha hx hone))
  · exact Iff.rfl

end Ok

end Ok

/-! ## What is kept of the others -/

section Keeps

variable {m m' m'' : ArcMem X I} {x y z : X} {i j : I} {v : View (ArcLoc X I)}

omit [DecidableEq X] [DecidableEq I] in
/-- What is known through the handle of `x` is kept, and object `i` is not accessed. -/
structure Keeps (m m' : ArcMem X I) (x : X) (i : I) : Prop where
  lent : m.lent x ≤ m'.lent x
  view : m.view x ≤ m'.view x
  clock : ∀ ℓ : ArcLoc X I, ℓ.Of i → m'.clock ℓ = m.clock ℓ

omit [DecidableEq X] [DecidableEq I] in
theorem Keeps.refl (m : ArcMem X I) (x : X) (i : I) : m.Keeps m x i := ⟨le_rfl, le_rfl, fun _ _ => rfl⟩

omit [DecidableEq X] [DecidableEq I] in
theorem Keeps.trans (h : m.Keeps m' x i) (h' : m'.Keeps m'' x i) : m.Keeps m'' x i :=
  ⟨h.lent.trans h'.lent, h.view.trans h'.view, fun ℓ hℓ => (h'.clock ℓ hℓ).trans (h.clock ℓ hℓ)⟩

omit [DecidableEq X] [DecidableEq I] in
/-- What is kept still covers the accesses. -/
theorem Keeps.covers (h : m.Keeps m' x i) (hc : m.Covers (m.view x) i) : m'.Covers (m'.view x) i := by
  intro ℓ hℓ
  rw [h.clock ℓ hℓ]
  exact (hc ℓ hℓ).trans (h.view ℓ)

omit [DecidableEq X] [DecidableEq I] in
/-- What is kept still comes after those who had the object. -/
theorem Keeps.owned (h : m.Keeps m' x i) (hc : m.clock (.owned i) ≤ m.lent x (.owned i)) :
    m'.clock (.owned i) ≤ m'.lent x (.owned i) := by
  rw [h.clock (.owned i) rfl]
  exact hc.trans (h.lent _)

omit [DecidableEq I] in
theorem keeps_own_of_ne (hz : z ≠ x) : m.Keeps (m.own x v) z j :=
  ⟨(lent_own_of_ne hz).ge, (view_own_of_ne hz).ge, fun _ _ => rfl⟩

omit [DecidableEq I] in
/-- An owner who learns loses nothing. -/
theorem keeps_own (hlent : m.lent x ≤ m.view x) (hv : m.view x ≤ v) (z : X) (j : I) :
    m.Keeps (m.own x v) z j := by
  by_cases hz : z = x
  · rw [hz]
    refine ⟨?_, ?_, fun _ _ => rfl⟩
    · rw [lent_own]
      exact hlent.trans hv
    · rw [view_own]
      exact hv
  · exact keeps_own_of_ne hz

omit [DecidableEq X] in
theorem keeps_make (z : X) : m.Keeps (m.make i) z j := ⟨le_rfl, le_rfl, fun _ _ => rfl⟩

/-- A clone is nobody's loss but its own handle's. -/
theorem keeps_clone (hz : z ≠ y) : m.Keeps (m.clone a x y i) z j := by
  refine ⟨(Function.update_of_ne hz ..).ge, ?_, fun _ _ => rfl⟩
  show _ ≤ Function.update (Function.update m.view x _) y _ z
  rw [Function.update_of_ne hz]
  exact view_le_update le_sup_left z

/-- A clone's borrowers know what its origin's did. -/
theorem lent_le_clone : m.lent x ≤ (m.clone a x y i).lent y := by
  show _ ≤ Function.update m.lent y _ y
  rw [Function.update_self]
  exact History.le_rmwView

/-- A clone knows what the borrower knew who made it. -/
theorem lent_le_view_clone : m.lent x ≤ (m.clone a x y i).view y := by
  have hself : (m.clone a x y i).view y =
      (m.count i).rmwView (.count i) a.increment (m.lent x) := Function.update_self ..
  rw [hself]
  exact History.le_rmwView

theorem keeps_decrement (hz : z ≠ x) : m.Keeps (m.decrement a x i) z j :=
  ⟨(Function.update_of_ne hz ..).ge, (Function.update_of_ne hz ..).ge, fun _ _ => rfl⟩

theorem clock_use (hj : j ≠ i) {ℓ : ArcLoc X I} (hℓ : ℓ.Of j) :
    (m.use x i).clock ℓ = m.clock ℓ := by
  refine Function.update_of_ne ?_ ..
  rintro rfl
  exact hj hℓ.symm

theorem keeps_use (hj : j ≠ i) (z : X) : m.Keeps (m.use x i) z j :=
  ⟨le_rfl, view_le_update ((m.view x).le_reach _ _) z, fun _ => clock_use hj⟩

theorem clock_take (hj : j ≠ i) {ℓ : ArcLoc X I} (hℓ : ℓ.Of j) :
    (m.take x i).clock ℓ = m.clock ℓ := by
  refine Function.update_of_ne ?_ ..
  rintro rfl
  exact hj hℓ.symm

/-- Whoever takes an object knows that he has. -/
theorem clock_le_view_take : (m.take x i).clock (.owned i) ≤ (m.take x i).view x (.owned i) := by
  have hview : (m.take x i).view x = (m.view x).reach (.owned i) (m.clock (.owned i) + 1) := view_own
  have hclock : (m.take x i).clock (.owned i) = m.clock (.owned i) + 1 := Function.update_self ..
  rw [hview, hclock, View.reach_self]
  exact le_max_right ..

/-- Others keep what they know when somebody takes another object. -/
theorem keeps_take (hz : z ≠ x) (hj : j ≠ i) : m.Keeps (m.take x i) z j :=
  ⟨(Function.update_of_ne hz ..).ge, (Function.update_of_ne hz ..).ge, fun _ => clock_take hj⟩

/-- Beside a holder that stays, a drop is not the last one. -/
theorem keeps_drop {h : Handles X I} (hm : m.Ok a h) (hx : h.of x = some i) (hz : h.of z = some j)
    (hzx : z ≠ x) : m.Keeps (m.drop a x i) z j := by
  unfold ArcMem.drop
  split
  · rename_i hone
    have hji : j ≠ i := by
      rintro rfl
      have htwo := h.two_le_count hz hx hzx
      rw [← hm.counted j ⟨x, hx⟩] at htwo
      omega
    exact (keeps_decrement hzx).trans ((keeps_own_of_ne hzx).trans (keeps_take hzx hji))
  · exact keeps_decrement hzx

end Keeps

/-! ## What is touched -/

section Touches

variable {m m' m'' : ArcMem X I} {x y : X} {i j : I} {v : View (ArcLoc X I)}

omit [DecidableEq X] [DecidableEq I] in
structure Touches (m m' : ArcMem X I) (i : I) : Prop where
  count : ∀ j, j ≠ i → m'.count j = m.count j
  clock : ∀ j, j ≠ i → ∀ ℓ : ArcLoc X I, ℓ.Of j → m'.clock ℓ = m.clock ℓ

omit [DecidableEq X] [DecidableEq I] in
theorem Touches.trans (h : m.Touches m' i) (h' : m'.Touches m'' i) : m.Touches m'' i :=
  ⟨fun j hj => (h'.count j hj).trans (h.count j hj),
    fun j hj ℓ hℓ => (h'.clock j hj ℓ hℓ).trans (h.clock j hj ℓ hℓ)⟩

omit [DecidableEq I] in
theorem touches_own : m.Touches (m.own x v) i := ⟨fun _ _ => rfl, fun _ _ _ _ => rfl⟩

omit [DecidableEq X] in
theorem touches_make : m.Touches (m.make i) i :=
  ⟨fun _ hj => Function.update_of_ne hj .., fun _ _ _ _ => rfl⟩

theorem touches_clone : m.Touches (m.clone a x y i) i :=
  ⟨fun _ hj => Function.update_of_ne hj .., fun _ _ _ _ => rfl⟩

theorem touches_use : m.Touches (m.use x i) i := ⟨fun _ _ => rfl, fun _ hj _ => clock_use hj⟩

theorem touches_take : m.Touches (m.take x i) i := ⟨fun _ _ => rfl, fun _ hj _ => clock_take hj⟩

/-- A drop touches its own object only. -/
theorem touches_drop : m.Touches (m.drop a x i) i := by
  have hdec : m.Touches (m.decrement a x i) i :=
    ⟨fun _ hj => Function.update_of_ne hj .., fun _ _ _ _ => rfl⟩
  unfold ArcMem.drop
  split
  · exact hdec.trans (touches_own.trans touches_take)
  · exact hdec

omit [DecidableEq X] [DecidableEq I] in
/-- An object that has not been stays fresh while others are touched. -/
theorem Fresh.of_touches (h : m.Fresh j) (ht : m.Touches m' i) (hj : j ≠ i) : m'.Fresh j :=
  ⟨(ht.count j hj).trans h.count, fun ℓ hℓ => (ht.clock j hj ℓ hℓ).trans (h.clock ℓ hℓ)⟩

end Touches

end ArcMem

end Observe.Lib
