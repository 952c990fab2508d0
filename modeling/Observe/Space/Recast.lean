import Observe.Space.Events
import Observe.Space.Panics

/-!
# The unwinding program, played by the ordinary one

To everybody else a program in which `K`'s code has panicked goes on as an ordinary one: an entry
without its subject is one whose subject is never dropped, and a subject without its entry is a
publisher.  So each of its states is a state of the ordinary program with other authorities in the
same parts, and what holds of the slots there holds of them here.
-/

namespace Observe

/-- An authority, and the one that plays its part in the ordinary program. -/
inductive Authority.Plays {K : Type} {bits : Nat} : Authority K bits → Authority K bits → Prop where
  | same (a) : Plays a a
  /-- The entry is still there. -/
  | orphan {k n i c a} (ha : a = .retired i ∨ a = .releasing i ∨ a = .gone) :
      Plays a (.subject k n i c)
  /-- The entry is lost. -/
  | unlisted {k n i} : Plays (.subject k n i false) (.publisher i)
  | completed {k n i} : Plays (.subject k n i true) (.publishing i)
  | leaving {i} : Plays (.retired i) (.releasing i)

namespace Authority.Plays

variable {K : Type} {bits : Nat} {b : Authority K bits} {i : SlotId}

/-- A subject is played by itself or, once its entry is lost, by a publisher. -/
theorem of_subject {k : K} {n : BitVec bits} {d : Bool} (h : (Authority.subject k n i d).Plays b) :
    b = .subject k n i d ∨ d = false ∧ b = .publisher i ∨ d = true ∧ b = .publishing i := by
  cases h with
  | same => exact .inl rfl
  | orphan ha => rcases ha with ha | ha | ha <;> cases ha
  | unlisted => exact .inr (.inl ⟨rfl, rfl⟩)
  | completed => exact .inr (.inr ⟨rfl, rfl⟩)

/-- A subject that is never dropped plays one that is, as well. -/
theorem of_retired (h : (Authority.retired i).Plays b) :
    b = .retired i ∨ b = .releasing i ∨ ∃ k n d, b = .subject k n i d := by
  cases h with
  | same => exact .inl rfl
  | leaving => exact .inr (.inl rfl)
  | @orphan k n j d _ ha =>
    rcases ha with ha | ha | ha <;> cases ha
    exact .inr (.inr ⟨k, n, d, rfl⟩)

theorem of_releasing (h : (Authority.releasing i).Plays b) :
    b = .releasing i ∨ ∃ k n d, b = .subject k n i d := by
  cases h with
  | same => exact .inl rfl
  | @orphan k n j d _ ha =>
    rcases ha with ha | ha | ha <;> cases ha
    exact .inr ⟨k, n, d, rfl⟩

theorem of_publisher (h : (Authority.publisher i).Plays b) : b = .publisher i := by
  cases h with
  | same => rfl
  | orphan ha => rcases ha with ha | ha | ha <;> cases ha

theorem of_publishing (h : (Authority.publishing i).Plays b) : b = .publishing i := by
  cases h with
  | same => rfl
  | orphan ha => rcases ha with ha | ha | ha <;> cases ha

end Authority.Plays

variable {K O W : Type} [Key K] {bits : Nat}

namespace World

def recast (v : World K O W bits) (a : Gen → Authority K bits)
    (c : Lib.Handles Owner SlotId) : World K O W bits :=
  { v with auth := a, arcs := c }

def SameOthers (c d : Lib.Handles Owner SlotId) : Prop :=
  ∀ x, (∀ g, x ≠ .subject g) → c.of x = d.of x

/-- `v` and its authorities play the parts of `a`, with the handles `c`. -/
structure Recast (v : World K O W bits) (a : Gen → Authority K bits)
    (c : Lib.Handles Owner SlotId) : Prop where
  auth : ∀ g, (a g).Plays (v.auth g)
  subject : ∀ g, c.of (.subject g) = (a g).slot?
  other : SameOthers c v.arcs
  rest : ∀ g k n i b, v.auth g = .subject k n i b → a g ≠ v.auth g →
    (v.slots i).comp.resting = true

/-- The state is one of the ordinary program, up to the cast. -/
def Explained [WillWake W] (w : World K O W bits) : Prop :=
  ∃ (v : World K O W bits) (a : Gen → Authority K bits) (c : Lib.Handles Owner SlotId),
    v.Inv ∧ v.Recast a c ∧ w = v.recast a c

variable [WillWake W] {v u w w' : World K O W bits} {a : Gen → Authority K bits}
  {c c' : Lib.Handles Owner SlotId}

/-! ### Counts -/

namespace Recast

/-- The cast has no handle that the program has not. -/
theorem le (hr : v.Recast a c) (hv : v.Inv) {x : Owner} {i : SlotId} (hx : c.of x = some i) :
    v.arcs.of x = some i := by
  cases x with
  | subject g =>
    rw [hr.subject] at hx
    rw [hv.held]
    show (v.auth g).slot? = some i
    have hplay := hr.auth g
    generalize a g = b at hx hplay
    generalize v.auth g = b' at hplay
    cases hplay with
    | same => exact hx
    | orphan ha => rcases ha with rfl | rfl | rfl <;> first | exact hx | cases hx
    | _ => exact hx
  | _ => rw [← hr.other _ (by simp), hx]

/-- The entry of a subject that plays keeps its slot. -/
theorem of_entry (hr : v.Recast a c) (hv : v.Inv) {g : Gen} {k : K} {n : BitVec bits} {i : SlotId}
    {d : Bool} (hb : v.auth g = .subject k n i d) : c.of (.table g) = some i := by
  rw [hr.other _ (by simp), hv.held]
  simp [handle, hb, Authority.table?]

/-- A holder in the ordinary program that has no handle any more has left its entry's. -/
theorem of_le (hr : v.Recast a c) (hv : v.Inv) {x : Owner} {i : SlotId}
    (hx : v.arcs.of x = some i) :
    c.of x = some i ∨ ∃ g, x = .subject g ∧ c.of (.table g) = some i := by
  cases x with
  | subject g =>
    have hslot : (v.auth g).slot? = some i := by
      rw [← hx, hv.held]
      rfl
    have htab : c.of (.table g) = (v.auth g).table? := by
      rw [hr.other _ (by simp), hv.held]
      rfl
    have hsub := hr.subject g
    have hplay := hr.auth g
    generalize a g = b at hplay hsub
    generalize v.auth g = b' at hplay hslot htab
    cases hplay with
    | orphan ha =>
      refine .inr ⟨g, rfl, ?_⟩
      rw [htab]
      exact hslot
    | _ => exact .inl (hsub.trans hslot)
  | _ => exact .inl (by rw [hr.other _ (by simp), hx])

/-- Whoever holds a slot, other than the table, is its only holder in both or in none. -/
theorem sole_iff (hr : v.Recast a c) (hv : v.Inv) {x : Owner} (hnt : ∀ g, x ≠ .table g)
    (i : SlotId) : (∀ y, c.of y = some i → y = x) ↔ ∀ y, v.arcs.of y = some i → y = x := by
  constructor
  · intro hall y hy
    rcases hr.of_le hv hy with hy | ⟨g, -, ht⟩
    · exact hall y hy
    · exact absurd (hall _ ht).symm (hnt g)
  · intro hall y hy
    exact hall y (hr.le hv hy)

/-- Whoever is alone in the cast is alone in the program, but for a table entry. -/
theorem count_eq_one_iff (hr : v.Recast a c) (hv : v.Inv) {x : Owner} (hnt : ∀ g, x ≠ .table g)
    {i : SlotId} (hx : c.of x = some i) : c.count i = 1 ↔ v.arcs.count i = 1 := by
  rw [Lib.Handles.count_eq_one_iff _ hx, Lib.Handles.count_eq_one_iff _ (hr.le hv hx)]
  exact hr.sole_iff hv hnt i

/-- A handle goes with its slot in both or in none. -/
theorem lastHandle (hr : v.Recast a c) (hv : v.Inv) {x : Owner} (hnt : ∀ g, x ≠ .table g)
    (hx : c.of x = v.arcs.of x) : (v.recast a c).lastHandle x = v.lastHandle x := by
  unfold World.lastHandle
  show (c.of x).filter _ = _
  rw [hx]
  cases hof : v.arcs.of x with
  | none => rfl
  | some i =>
    rw [hof] at hx
    have hiff : (c.release x).count i = 0 ↔ (v.arcs.release x).count i = 0 := by
      rw [Lib.Handles.count_release_eq_zero_iff _ hx, Lib.Handles.count_release_eq_zero_iff _ hof]
      exact hr.sole_iff hv hnt i
    simp only [Option.filter_some, recast, hiff]

end Recast

namespace SameOthers

variable {d : Lib.Handles Owner SlotId}

theorem release (h : SameOthers c d) (x : Owner) : SameOthers (c.release x) (d.release x) := by
  intro y hy
  by_cases hyx : y = x
  · rw [hyx, Lib.Handles.of_release_self, Lib.Handles.of_release_self]
  · rw [Lib.Handles.of_release_of_ne _ hyx, Lib.Handles.of_release_of_ne _ hyx, h y hy]

theorem grab (h : SameOthers c d) (x : Owner) (i : SlotId) :
    SameOthers (c.grab x i) (d.grab x i) := by
  intro y hy
  by_cases hyx : y = x
  · rw [hyx, Lib.Handles.of_grab_self, Lib.Handles.of_grab_self]
  · rw [Lib.Handles.of_grab_of_ne _ hyx, Lib.Handles.of_grab_of_ne _ hyx, h y hy]

end SameOthers

/-! ### The same parts -/

namespace Recast

omit [WillWake W] in
/-- The parts stay, and no completion starts. -/
theorem keep (hr : v.Recast a c) (hauth : u.auth = v.auth)
    (hcomp : ∀ j, (v.slots j).comp.resting = true → (u.slots j).comp.resting = true)
    (hsub : ∀ g, c'.of (.subject g) = c.of (.subject g)) (hother : SameOthers c' u.arcs) :
    u.Recast a c' where
  auth g := by
    rw [hauth]
    exact hr.auth g
  subject g := (hsub g).trans (hr.subject g)
  other := hother
  rest g k n i b hg hne := by
    rw [hauth] at hg hne
    exact hcomp i (hr.rest g k n i b hg hne)

/-- A change that touches neither authorities nor handles is explained. -/
theorem explained (hr : v.Recast a c) (hauth : u.auth = v.auth) (harcs : u.arcs = v.arcs)
    (hcomp : ∀ j, (v.slots j).comp.resting = true → (u.slots j).comp.resting = true)
    (hinv : u.Inv) : (u.recast a c).Explained :=
  ⟨u, a, c, hinv, hr.keep hauth hcomp (fun _ => rfl) (harcs ▸ hr.other), rfl⟩

/-- Someone who plays no part gives its handle back. -/
theorem explained_release (hr : v.Recast a c) (hv : v.Inv) (hauth : u.auth = v.auth)
    (harcs : u.arcs = v.arcs) (hslots : u.slots = v.slots) {x : Owner} (hnt : ∀ g, x ≠ .table g)
    (hns : ∀ g, x ≠ .subject g) (l : Bool) (hinv : (u.release x l).Inv) :
    ((u.recast a c).release x l).Explained := by
  have hlast : (u.recast a c).lastHandle x = u.lastHandle x := by
    have hsame := hr.lastHandle hv hnt (hr.other x hns)
    unfold World.lastHandle at hsame ⊢
    rw [harcs]
    exact hsame
  refine ⟨u.release x l, a, c.release x, hinv, ?_, ?_⟩
  · refine hr.keep hauth (fun j hj => ?_) (fun g => ?_) ?_
    · have hq := (u.release_quieter x l j).comp
      rw [hslots] at hq
      by_contra hno
      rw [hq (by simpa using hno)] at hj
      cases hj
    · exact Lib.Handles.of_release_of_ne _ fun he => hns g he.symm
    · rw [release_arcs, harcs]
      exact hr.other.release x
  · simp only [World.release, hlast]
    rfl

end Recast

namespace Recast

theorem explained_dropPopped (hr : v.Recast a c) (hv : v.Inv) (l : Bool) :
    ((v.recast a c).dropPopped l).Explained := by
  have hinv := hv.dropPopped l
  unfold World.dropPopped at hinv ⊢
  cases hpool : v.pool with
  | nil =>
    have hpool' : (v.recast a c).pool = [] := hpool
    simp only [hpool']
    exact ⟨v, a, c, hv, hr, rfl⟩
  | cons i rest =>
    have hpool' : (v.recast a c).pool = i :: rest := hpool
    rw [hpool] at hinv
    simp only [hpool']
    exact hr.explained_release hv (u := { v with pool := rest }) rfl rfl rfl (by simp) (by simp) l
      hinv

end Recast

/-! ### Other parts -/

namespace Recast

omit [WillWake W] in
/-- Generation `g` is played by another authority. -/
theorem recastAuth (hr : v.Recast a c) {g : Gen} {b b' : Authority K bits}
    (hauth : u.auth = Function.update v.auth g b') (harcs : u.arcs = v.arcs) (hplay : b.Plays b')
    (hslot : b.slot? = (a g).slot?)
    (hrest : ∀ k n i d, b' = .subject k n i d → b ≠ b' → (u.slots i).comp.resting = true)
    (hcomp : ∀ g' k n i d, g' ≠ g → v.auth g' = .subject k n i d →
      (v.slots i).comp.resting = true → (u.slots i).comp.resting = true) :
    u.Recast (Function.update a g b) c where
  auth g' := by
    rw [hauth]
    by_cases hg : g' = g
    · subst hg
      simpa using hplay
    · simpa [hg] using hr.auth g'
  subject g' := by
    by_cases hg : g' = g
    · subst hg
      rw [Function.update_self, hslot]
      exact hr.subject g'
    · rw [Function.update_of_ne hg]
      exact hr.subject g'
  other := harcs ▸ hr.other
  rest g' k n i d hg' hne := by
    rw [hauth] at hg' hne
    by_cases hg : g' = g
    · subst hg
      rw [Function.update_self] at hg'
      rw [Function.update_self, Function.update_self] at hne
      exact hrest k n i d hg' hne
    · rw [Function.update_of_ne hg] at hg'
      rw [Function.update_of_ne hg, Function.update_of_ne hg] at hne
      exact hcomp g' k n i d hg hg' (hr.rest g' k n i d hg' hne)

/-- The completion of generation `g` starts. -/
theorem explained_complete (hr : v.Recast a c) (hv : v.Inv) {g : Gen} {i : SlotId}
    {b b' : Authority K bits} (hc : (v.auth g).Completes b')
    (hb : b' = .publishing i ∨ ∃ k n, b' = .subject k n i true)
    (hidle : (v.slots i).comp = .idle) (hplay : b.Plays b') (hslot : b.slot? = (a g).slot?)
    (hown : ∀ k n j d, b' = .subject k n j d → b = b') (x : O) :
    ({ v.recast a c with
      auth := Function.update a g b
      slots := Function.update v.slots i ((v.slots i).startComplete g x) } :
        World K O W bits).Explained := by
  have hset := hv.setCompleted (g := g) hc
  have hinv := hset.startComplete (g := g) (i := i) (by simpa using hb) hidle x
  refine ⟨_, Function.update a g b, c, hinv, hr.recastAuth rfl rfl hplay hslot ?rest ?comp, rfl⟩
  case rest =>
    intro k n j d hsub hne
    exact absurd (hown k n j d hsub) hne
  case comp =>
    intro g' k n j d hg hg' hrest
    -- another subject has another slot
    have hji : j ≠ i := by
      rintro rfl
      have hgen := hv.pinned (.subject g') j g' (by simp [pin, hg', Authority.current?])
      refine hg ?_
      rw [← hgen]
      refine hv.pinned (.subject g) j g ?_
      rw [pin, ← hc.current]
      rcases hb with rfl | ⟨k', n', rfl⟩ <;> rfl
    simpa [World.setSlot, hji] using hrest

/-- A part without an entry whose completion is over loses what is left of it. -/
theorem explained_releaseInner (hr : v.Recast a c) (hv : v.Inv) {g : Gen} {i : SlotId}
    (ha : a g = .retired i) : ({ v.recast a c with auth := Function.update a g (.releasing i) } :
      World K O W bits).Explained := by
  have hslot : (Authority.releasing i : Authority K bits).slot? = (a g).slot? := by
    rw [ha]
    rfl
  -- the ordinary program may have gone this step already, or never goes it
  have hstay (hplay : (Authority.releasing i).Plays (v.auth g))
      (hrest : ∀ k n j d, v.auth g = .subject k n j d → (v.slots j).comp.resting = true) :
      ({ v.recast a c with auth := Function.update a g (.releasing i) } :
        World K O W bits).Explained := by
    have hsame : v.auth = Function.update v.auth g (v.auth g) := (Function.update_eq_self ..).symm
    refine ⟨v, _, c, hv, hr.recastAuth hsame rfl hplay hslot ?_ fun _ _ _ _ _ _ _ => id, rfl⟩
    intro k n j d hsub _
    exact hrest k n j d hsub
  rcases (ha ▸ hr.auth g).of_retired with hb | hb | ⟨k, n, d, hb⟩
  · refine ⟨_, _, c, hv.releaseInner hb, hr.recastAuth rfl rfl (.same _) hslot ?_
      fun _ _ _ _ _ _ _ => id, rfl⟩
    intro k n j d hsub
    cases hsub
  · refine hstay (hb ▸ .same _) fun k n j d hsub => ?_
    rw [hb] at hsub
    cases hsub
  · refine hstay (hb ▸ .orphan (.inr (.inl rfl))) fun k' n' j d' hsub => ?_
    refine hr.rest g k' n' j d' hsub ?_
    rw [ha, hb]
    intro heq
    cases heq

omit [WillWake W] in
/-- A publisher plays itself. -/
theorem publisher (hr : v.Recast a c) {g : Gen} {i : SlotId} (ha : a g = .publisher i) :
    v.auth g = .publisher i :=
  (ha ▸ hr.auth g).of_publisher

/-- A part whose slot is not completed any more. -/
theorem explained_published (hr : v.Recast a c) (hv : v.Inv) {g : Gen} {i : SlotId}
    (ha : a g = .publishing i ∧ (v.slots i).comp.resting = true ∨ a g = .publisher i) :
    ({ v.recast a c with auth := Function.update a g (.releasing i) } :
      World K O W bits).Explained := by
  have hown : v.auth g = a g := by
    rcases ha with ⟨ha, -⟩ | ha
    · exact (ha ▸ hr.auth g).of_publishing.trans ha.symm
    · exact (hr.publisher ha).trans ha.symm
  have hslot : (Authority.releasing i : Authority K bits).slot? = (a g).slot? := by
    rcases ha with ⟨ha, -⟩ | ha <;> rw [ha] <;> rfl
  refine ⟨_, _, c, hv.published (g := g) (i := i) (by rw [hown]; exact ha),
    hr.recastAuth rfl rfl (.same _) hslot ?_ fun _ _ _ _ _ _ _ => id, rfl⟩
  intro k n j d hsub
  cases hsub

omit [WillWake W] in
/-- The subjects' handles when that of generation `g` goes. -/
theorem subject_release (hr : v.Recast a c) (g g' : Gen) :
    (c.release (.subject g)).of (.subject g') = (Function.update a g .gone g').slot? := by
  by_cases hg : g' = g
  · subst hg
    rw [Lib.Handles.of_release_self, Function.update_self]
    rfl
  · rw [Lib.Handles.of_release_of_ne _ (by simpa using hg), Function.update_of_ne hg, hr.subject]

/-- The ordinary program has the same handle to drop. -/
theorem explained_releaseOwn (hr : v.Recast a c) (hv : v.Inv) {g : Gen} {i : SlotId}
    (hb : v.auth g = .releasing i) (hsub : c.of (.subject g) = some i) (l : Bool) :
    (({ v.recast a c with auth := Function.update a g .gone } :
      World K O W bits).release (.subject g) l).Explained := by
  have hlast : World.lastHandle { v.recast a c with auth := Function.update a g .gone }
      (.subject g) = World.lastHandle { v with auth := Function.update v.auth g .gone }
        (.subject g) :=
    hr.lastHandle hv (x := .subject g) (by simp) (hsub.trans (hr.le hv hsub).symm)
  refine ⟨_, Function.update a g .gone, c.release (.subject g), hv.releaseSubject hb l, ?_, ?_⟩
  · refine ⟨fun g' => ?_, hr.subject_release g, hr.other.release _, fun g' k n j d hg' hne => ?_⟩
    · by_cases hg : g' = g
      · subst hg
        simpa using .same _
      · simpa [hg] using hr.auth g'
    · by_cases hg : g' = g
      · subst hg
        simp at hg'
      · have hg'' : v.auth g' = .subject k n j d := by simpa [hg] using hg'
        have hrest := hr.rest g' k n j d hg'' (by simpa [hg] using hne)
        -- a release starts no completion
        by_contra hno
        have hold := (World.release_quieter _ (.subject g) l j).comp (by simpa using hno)
        exact absurd hrest (by simpa using hold)
  · simp only [World.release, hlast]
    rfl

/-- The entry of an orphan keeps its slot. -/
theorem lastHandle_orphan (hr : v.Recast a c) (hv : v.Inv) {g : Gen} {k : K} {n : BitVec bits}
    {i : SlotId} {d : Bool} (hb : v.auth g = .subject k n i d) (hsub : c.of (.subject g) = some i)
    (a' : Gen → Authority K bits) :
    World.lastHandle { v.recast a c with auth := a' } (.subject g) = none := by
  cases hl : World.lastHandle { v.recast a c with auth := a' } (.subject g) with
  | none => rfl
  | some j =>
    obtain ⟨hj, hfree⟩ := lastHandle_eq_some _ _ hl
    have hji : some i = some j := hsub.symm.trans hj
    cases hji
    refine absurd ?_ (hfree (.table g))
    rw [Lib.Handles.of_release_of_ne _ (by simp)]
    exact hr.of_entry hv hb

/-- The subject that plays the part stays. -/
theorem explained_releaseOrphan (hr : v.Recast a c) (hv : v.Inv) {g : Gen} {k : K}
    {n : BitVec bits} {i : SlotId} {d : Bool} (hb : v.auth g = .subject k n i d)
    (ha : a g = .releasing i) (l : Bool) :
    (({ v.recast a c with auth := Function.update a g .gone } :
      World K O W bits).release (.subject g) l).Explained := by
  have hsub : c.of (.subject g) = some i := by
    rw [hr.subject, ha]
    rfl
  have hnone := hr.lastHandle_orphan hv hb hsub (Function.update a g .gone)
  refine ⟨v, Function.update a g .gone, c.release (.subject g), hv, ?_, ?_⟩
  · refine ⟨fun g' => ?_, hr.subject_release g, fun x hx => ?_, fun g' k' n' j' d' hg' hne => ?_⟩
    · by_cases hg : g' = g
      · subst hg
        rw [Function.update_self, hb]
        exact .orphan (.inr (.inr rfl))
      · rw [Function.update_of_ne hg]
        exact hr.auth g'
    · rw [Lib.Handles.of_release_of_ne _ (hx g), hr.other x hx]
    · refine hr.rest g' k' n' j' d' hg' ?_
      by_cases hg : g' = g
      · subst hg
        rw [ha, hb]
        intro heq
        cases heq
      · rwa [Function.update_of_ne hg] at hne
  · simp only [World.release, hnone]
    rfl

/-- The last handle of a generation's authority goes, or its entry has one more. -/
theorem explained_releaseSubject (hr : v.Recast a c) (hv : v.Inv) {g : Gen} {i : SlotId}
    (ha : a g = .releasing i) (l : Bool) :
    (({ v.recast a c with auth := Function.update a g .gone } :
      World K O W bits).release (.subject g) l).Explained := by
  rcases (ha ▸ hr.auth g).of_releasing with hb | ⟨k, n, d, hb⟩
  · refine hr.explained_releaseOwn hv hb ?_ l
    rw [hr.subject, ha]
    rfl
  · exact hr.explained_releaseOrphan hv hb ha l

end Recast

/-! ### Entries that go -/

omit [WillWake W] in
/-- The entry of generation `g` goes, and somebody else still has the slot. -/
theorem release_table_shared {g : Gen} {i : SlotId} {x : Owner} (m : SmallMap K bits) (l : Bool)
    (htab : ∀ j, w.arcs.of (.table g) = some j → j = i) (hx : x ≠ .table g)
    (hxi : w.arcs.of x = some i) : { w with map := m }.release (.table g) l =
      { w with map := m, arcs := w.arcs.release (.table g) } := by
  have hnone : World.lastHandle { w with map := m } (.table g) = none := by
    cases hl : World.lastHandle { w with map := m } (.table g) with
    | none => rfl
    | some j =>
      obtain ⟨hj, hfree⟩ := lastHandle_eq_some _ _ hl
      refine absurd ?_ (hfree x)
      rw [Lib.Handles.of_release_of_ne _ hx, htab j hj]
      exact hxi
  simp only [World.release, hnone]

namespace Recast

section DropEntry

variable {k : K} {e : SlotEntry bits} {m : SmallMap K bits}

/-- The table's handle of an entry is on the entry's slot. -/
theorem of_table (hr : v.Recast a c) (hv : v.Inv) (hget : v.map.get k = some e) :
    c.of (.table e.gen) = some e.slot := by
  obtain ⟨k', d, -, hsub⟩ := hv.mapped.find k e hget
  rw [hr.other _ (by simp), hv.held]
  simp [handle, hsub, Authority.table?]

/-- The entry goes while its generation's authority has its handle; to the others the subject is
`b` from now on. -/
theorem dropEntry_held (hr : v.Recast a c) (hv : v.Inv) (hget : v.map.get k = some e)
    (hm : v.map.Without m k) {b : Authority K bits} (hd : (v.auth e.gen).Detached v.slots b)
    (hplay : (a e.gen).Plays b) (hheld : c.of (.subject e.gen) = some e.slot) (l : Bool) :
    (v.detach e.gen b m l).Inv ∧
      (v.detach e.gen b m l).Recast a (c.release (.table e.gen)) ∧
      { v.recast a c with map := m }.release (.table e.gen) l =
        (v.detach e.gen b m l).recast a (c.release (.table e.gen)) := by
  obtain ⟨k', d, hk, hsub⟩ := hv.mapped.find k e hget
  have htab := hr.of_table hv hget
  refine ⟨hv.detach hsub hd (hm.congr (BEq.symm hk)) l, ?_, ?_⟩
  · refine ⟨fun g => ?_, fun g => ?_, ?_, fun g k n i d hg hne => ?_⟩
    · by_cases hg : g = e.gen
      · subst hg
        rwa [detach_auth_self]
      · rw [detach_auth_of_ne b m l hg]
        exact hr.auth g
    · rw [Lib.Handles.of_release_of_ne _ (by simp), hr.subject]
    · exact hr.other.release _
    · have hge : g ≠ e.gen := by
        rintro rfl
        rw [detach_auth_self] at hg
        have hnone := hd.table
        rw [hg] at hnone
        cases hnone
      rw [detach_auth_of_ne b m l hge] at hg hne
      rw [hv.detach_slots hsub]
      exact hr.rest g k n i d hg hne
  · rw [release_table_shared (w := v.recast a c) (x := .subject e.gen) (i := e.slot) m l ?_ (by simp)
      hheld]
    · have hslots : (v.detach e.gen b m l).slots = v.slots := hv.detach_slots hsub l
      have hdrops : (v.detach e.gen b m l).drops = v.drops := hv.detach_drops hsub l
      rw [recast, ← hslots, ← hdrops]
      rfl
    · intro j hj
      have hji : some e.slot = some j := htab.symm.trans hj
      cases hji
      rfl

/-- The entry of an authority that has dropped its handle is the slot's last holder just when the
subject is it in the ordinary program. -/
theorem lastHandle_entry (hr : v.Recast a c) (hv : v.Inv) (hget : v.map.get k = some e)
    (hnone : c.of (.subject e.gen) = none) (b : Authority K bits) (l : Bool) :
    (v.recast a c).lastHandle (.table e.gen) =
      (v.detach e.gen b m l).lastHandle (.subject e.gen) := by
  obtain ⟨k', d, -, hsub⟩ := hv.mapped.find k e hget
  have htab := hr.of_table hv hget
  have hof : v.arcs.of (.subject e.gen) = some e.slot := by
    rw [hv.held]
    simp [handle, hsub, Authority.slot?]
  have hof' : (v.detach e.gen b m l).arcs.of (.subject e.gen) = some e.slot := by
    rw [detach_of, if_neg (by simp), hof]
  have hiff : (c.release (.table e.gen)).count e.slot = 0 ↔
      ((v.detach e.gen b m l).arcs.release (.subject e.gen)).count e.slot = 0 := by
    rw [Lib.Handles.count_release_eq_zero_iff _ htab,
      Lib.Handles.count_release_eq_zero_iff _ hof']
    constructor
    · intro hall y hy
      rw [detach_of] at hy
      split at hy
      · cases hy
      · rename_i hyt
        rcases hr.of_le hv hy with hc | ⟨g, rfl, hc⟩
        · exact absurd (hall y hc) hyt
        · have hg := hall _ hc
          cases hg
          rfl
    · intro hall y hy
      by_contra hyt
      have hold : (v.detach e.gen b m l).arcs.of y = some e.slot := by
        rw [detach_of, if_neg hyt]
        exact hr.le hv hy
      rw [hall y hold, hnone] at hy
      cases hy
  unfold World.lastHandle
  show (c.of _).filter _ = _
  rw [htab, hof']
  simp only [Option.filter_some, recast, hiff]

/-- The entry goes after its generation's authority. -/
theorem dropEntry_gone (hr : v.Recast a c) (hv : v.Inv) (hget : v.map.get k = some e)
    (hm : v.map.Without m k) (ha : a e.gen = .gone) (l : Bool) :
    ∃ u : World K O W bits, u.Inv ∧ u.Recast a (c.release (.table e.gen)) ∧
      { v.recast a c with map := m }.release (.table e.gen) l =
        u.recast a (c.release (.table e.gen)) := by
  obtain ⟨k', d, hk, hsub⟩ := hv.mapped.find k e hget
  have hnone : c.of (.subject e.gen) = none := by
    rw [hr.subject, ha]
    rfl
  have hrest : (v.slots e.slot).comp.resting = true := by
    refine hr.rest e.gen k' e.generation e.slot d hsub ?_
    rw [ha, hsub]
    intro heq
    cases heq
  have hd : (v.auth e.gen).Detached v.slots (.releasing e.slot) := by
    rw [hsub]
    exact .releasing hrest
  have hinv := hv.detach hsub hd (hm.congr (BEq.symm hk)) l
  have hslots : (v.detach e.gen (.releasing e.slot) m l).slots = v.slots := hv.detach_slots hsub l
  have hdrops : (v.detach e.gen (.releasing e.slot) m l).drops = v.drops := hv.detach_drops hsub l
  have hlast := hr.lastHandle_entry (m := m) hv hget hnone (.releasing e.slot) l
  refine ⟨_, hinv.releaseSubject (g := e.gen) (by rw [detach_auth_self]) l, ?_, ?_⟩
  · refine ⟨fun g => ?_, fun g => ?_, fun x hx => ?_, fun g k n i d hg hne => ?_⟩
    · by_cases hg : g = e.gen
      · subst hg
        simpa [ha] using .same _
      · simpa [hg, detach_auth_of_ne] using hr.auth g
    · rw [Lib.Handles.of_release_of_ne _ (by simp), hr.subject]
    · rw [release_arcs, Lib.Handles.of_release_of_ne _ (hx e.gen)]
      exact hr.other.release (.table e.gen) x hx
    · have hge : g ≠ e.gen := by
        rintro rfl
        simp at hg
      have hold : v.auth g = .subject k n i d := by simpa [hge, detach_auth_of_ne] using hg
      have hresting := hr.rest g k n i d hold (by simpa [hge, detach_auth_of_ne] using hne)
      by_contra hno
      have hq := (World.release_quieter _ (.subject e.gen) l i).comp (by simpa using hno)
      rw [show (World.slots _ i) = v.slots i from congrFun hslots i, hresting] at hq
      cases hq
  · have hlast' : World.lastHandle { v.recast a c with map := m } (.table e.gen) =
        World.lastHandle { v.detach e.gen (.releasing e.slot) m l with
          auth := Function.update (v.detach e.gen (.releasing e.slot) m l).auth e.gen .gone }
            (.subject e.gen) := hlast
    simp only [World.release, hlast']
    rw [recast, recast]
    simp only [hslots, hdrops]
    rfl

/-- An entry that goes without its subject is explained. -/
theorem dropEntry (hr : v.Recast a c) (hv : v.Inv) (hget : v.map.get k = some e)
    (hm : v.map.Without m k) (l : Bool) :
    ∃ u : World K O W bits, u.Inv ∧ u.Recast a (c.release (.table e.gen)) ∧
      { v.recast a c with map := m }.release (.table e.gen) l =
        u.recast a (c.release (.table e.gen)) := by
  obtain ⟨k', d, -, hsub⟩ := hv.mapped.find k e hget
  have hplay := hr.auth e.gen
  have hslot := hr.subject e.gen
  have hrest := hr.rest e.gen k' e.generation e.slot d hsub
  rw [hsub] at hplay hrest
  have hheld {b : Authority K bits} (hd : (v.auth e.gen).Detached v.slots b)
      (hb : (a e.gen).Plays b) (hc : (a e.gen).slot? = some e.slot) :=
    hr.dropEntry_held hv hget hm hd hb (hslot.trans hc) l
  rw [hsub] at hheld
  generalize ha : a e.gen = b at hplay hheld hrest
  cases hplay with
  | same =>
    cases d with
    | false => exact ⟨_, hheld .publisher .unlisted rfl⟩
    | true => exact ⟨_, hheld .publishing .completed rfl⟩
  | orphan hor =>
    have hresting : (v.slots e.slot).comp.resting = true := by
      refine hrest ?_
      rcases hor with rfl | rfl | rfl <;> intro heq <;> cases heq
    rcases hor with rfl | rfl | rfl
    · exact ⟨_, hheld (.retired hresting) (.same _) rfl⟩
    · exact ⟨_, hheld (.releasing hresting) (.same _) rfl⟩
    · exact hr.dropEntry_gone hv hget hm ha l

end DropEntry

/-! ### The section of `Subject::drop` -/

/-- The subject of generation `g` is being dropped, and its entry is still to be looked for. -/
theorem retired (hr : v.Recast a c) (hv : v.Inv) {g : Gen} {k : K} {n : BitVec bits} {i : SlotId}
    {d : Bool} (ha : a g = .subject k n i d) (hrest : (v.slots i).comp.resting = true) :
    ∃ u : World K O W bits, u.Inv ∧ u.Recast (Function.update a g (.retired i)) c ∧
      { v.recast a c with auth := Function.update a g (.retired i) } =
        u.recast (Function.update a g (.retired i)) c := by
  have hslot : (Authority.retired i : Authority K bits).slot? = (a g).slot? := by
    rw [ha]
    rfl
  have hpublished (hown : v.auth g = .publishing i ∧ (v.slots i).comp.resting = true ∨
      v.auth g = .publisher i) :
      ∃ u : World K O W bits, u.Inv ∧ u.Recast (Function.update a g (.retired i)) c ∧
        { v.recast a c with auth := Function.update a g (.retired i) } =
          u.recast (Function.update a g (.retired i)) c := by
    refine ⟨_, hv.published hown, hr.recastAuth rfl rfl .leaving hslot ?_
      fun _ _ _ _ _ _ _ => id, rfl⟩
    intro k' n' j d' hsub
    cases hsub
  rcases (ha ▸ hr.auth g).of_subject with hb | ⟨-, hb⟩ | ⟨-, hb⟩
  · -- the entry is an orphan's from now on
    have hsame : v.auth = Function.update v.auth g (.subject k n i d) := by
      rw [← hb, Function.update_eq_self]
    refine ⟨v, hv, hr.recastAuth hsame rfl (.orphan (.inl rfl)) hslot ?_
      fun _ _ _ _ _ _ _ => id, rfl⟩
    intro k' n' j d' hsub _
    cases hsub
    exact hrest
  · exact hpublished (.inr hb)
  · exact hpublished (.inl ⟨hb, hrest⟩)

/-- A slot that only a dying subject holds is pooled. -/
theorem explained_pushPool (hr : v.Recast a c) (hv : v.Inv) {g : Gen} {i : SlotId}
    (ha : a g = .retired i) (hone : c.count i = 1) (hlen : v.pool.length < slotPoolCap) :
    ((v.recast a c).pushPool i).Explained := by
  have hsub : c.of (.subject g) = some i := by
    rw [hr.subject, ha]
    rfl
  have hpart : (v.auth g).slot? = some i ∧ (v.auth g).current? = none := by
    rcases (ha ▸ hr.auth g).of_retired with hb | hb | ⟨k, n, d, hb⟩
    · rw [hb]
      exact ⟨rfl, rfl⟩
    · rw [hb]
      exact ⟨rfl, rfl⟩
    · -- its entry has the slot as well
      have habs := (Lib.Handles.count_eq_one_iff _ hsub).mp hone _ (hr.of_entry hv hb)
      cases habs
  have hcount := (hr.count_eq_one_iff hv (by simp) hsub).mp hone
  refine ⟨v.pushPool i, a, c.grab (.pool i) i, hv.pushPool hpart.1 hpart.2 hcount hlen, ?_, rfl⟩
  exact hr.keep rfl (fun _ => id) (fun g' => Lib.Handles.of_grab_of_ne _ (by simp) _)
    (hr.other.grab _ _)

end Recast

/-- The section of `Subject::drop`, behind its first step. -/
def removeEntry (w : World K O W bits) (key : K) (generation : BitVec bits) (i : SlotId) :
    World K O W bits :=
  if (w.map.removeIf key generation).2 then
    let w₁ : World K O W bits := { w with map := (w.map.removeIf key generation).1 }
    let w₂ : World K O W bits := match w.map.get key with
      | some entry => w₁.release (.table entry.gen) true
      | none => w₁
    if w₂.arcs.count i = 1 ∧ w₂.pool.length < slotPoolCap then World.pushPool w₂ i else w₂
  else w

omit [WillWake W] in
theorem retire_eq_removeEntry (w : World K O W bits) (g : Gen) (k : K) (n : BitVec bits)
    (i : SlotId) : w.retire g k n i =
      World.removeEntry { w with auth := Function.update w.auth g (.retired i) } k n i := rfl

namespace Recast

theorem explained_retire (hr : v.Recast a c) (hv : v.Inv) {g : Gen} {k : K} {n : BitVec bits}
    {i : SlotId} {d : Bool} (ha : a g = .subject k n i d)
    (hrest : (v.slots i).comp.resting = true) : ((v.recast a c).retire g k n i).Explained := by
  obtain ⟨u, hu, hru, heq⟩ := hr.retired hv ha hrest
  have hauth : (v.recast a c).auth = a := rfl
  rw [retire_eq_removeEntry, hauth, heq]
  unfold World.removeEntry
  cases hrem : ((u.recast (Function.update a g (.retired i)) c).map.removeIf k n).2 with
  | false => exact ⟨u, _, c, hu, hru, rfl⟩
  | true =>
    have hany : ((u.recast (Function.update a g (.retired i)) c).map.get k).any
        (fun e => e.generation == n) = true := by
      rw [← SmallMap.removeIf_snd]
      exact hrem
    obtain ⟨e, hget, -⟩ := (Option.any_eq_true _ _).mp hany
    obtain ⟨u', hu', hru', heq'⟩ := hru.dropEntry hu hget (hu.mapped.ok.without_removeIf hrem) true
    have hrelease : World.release { u.recast (Function.update a g (.retired i)) c with
        map := ((u.recast (Function.update a g (.retired i)) c).map.removeIf k n).1 }
          (.table e.gen) true = u'.recast (Function.update a g (.retired i))
            (c.release (.table e.gen)) := heq'
    simp only [if_true, hget, hrelease]
    split
    · rename_i hpush
      exact hru'.explained_pushPool hu' (g := g) (Function.update_self ..) hpush.1 hpush.2
    · exact ⟨u', _, _, hu', hru', rfl⟩

end Recast

/-! ### Registrations -/

namespace Recast

omit [WillWake W] in
theorem newSlot (hr : v.Recast a c) : v.newSlot.Recast a c := by
  refine hr.keep rfl (fun j hj => ?_) (fun _ => rfl) hr.other
  by_cases hjn : j = v.nextSlot
  · simp [World.newSlot, hjn, SlotSys.fresh, CompPc.resting]
  · simpa [World.newSlot, hjn] using hj

omit [WillWake W] in
theorem recycleSlot (hr : v.Recast a c) (i : SlotId) (rest : List SlotId) :
    (v.recycleSlot i rest).Recast a (c.release (.pool i)) := by
  refine hr.keep rfl (fun j hj => ?_) (fun g => Lib.Handles.of_release_of_ne _ (by simp))
    (hr.other.release _)
  by_cases hji : j = i
  · simp [World.recycleSlot, hji, SlotSys.recycle, CompPc.resting]
  · simpa [World.recycleSlot, hji] using hj

omit [WillWake W] in
/-- The next generation plays itself. -/
theorem claim (hr : v.Recast a c) (hfree : v.auth v.nextGen = .absent)
    (hheld : ∀ x, v.arcs.of x = v.handle x) {i : SlotId} {b : Authority K bits}
    (m : SmallMap K bits) (ht : b.table? = none ∨ b.table? = some i) (hs : b.slot? = some i) :
    (v.claim i b m).Recast (Function.update a v.nextGen b) ((v.recast a c).claim i b m).arcs := by
  have htab : v.arcs.of (.table v.nextGen) = none := by
    rw [hheld]
    simp [handle, hfree, Authority.table?]
  have hof := claim_of (i := i) m ht htab
  have hof' (x : Owner) : ((v.recast a c).claim i b m).arcs.of x =
      if x = .subject v.nextGen then some i
      else if x = .table v.nextGen then b.table? else c.of x :=
    claim_of (w := v.recast a c) m ht ((hr.other _ (by simp)).trans htab) x
  refine ⟨fun g => ?_, fun g => ?_, fun x hx => ?_, fun g k n j d hg hne => ?_⟩
  · by_cases hg : g = v.nextGen
    · simpa [World.claim, hg] using .same b
    · simpa [World.claim, hg] using hr.auth g
  · rw [hof']
    by_cases hg : g = v.nextGen
    · subst hg
      rw [if_pos rfl, Function.update_self, hs]
    · rw [if_neg (by simpa using hg), if_neg (by simp), Function.update_of_ne hg]
      exact hr.subject g
  · rw [hof, hof', if_neg (hx _), if_neg (hx _)]
    split
    · rfl
    · exact hr.other x hx
  · by_cases hgn : g = v.nextGen
    · simp [World.claim, hgn] at hne
    · exact hr.rest g k n j d (by simpa [World.claim, hgn] using hg)
        (by simpa [World.claim, hgn] using hne)

/-- A call of `subject` is explained. -/
theorem explained_subject (hr : v.Recast a c) (hv : v.Inv) (key : K) :
    ((v.recast a c).subject key).1.Explained := by
  have hdraw : v.drawNumber.Inv := hv.nextGeneration _
  have hr' : v.drawNumber.Recast a c := ⟨hr.auth, hr.subject, hr.other, hr.rest⟩
  have hcases := (v.recast a c).subject_cases key
  generalize (v.recast a c).subject key = r at hcases ⊢
  cases hcases with
  | conflict _ => exact ⟨v, a, c, hv, hr, rfl⟩
  | exhausted _ _ => exact hr'.explained_dropPopped hdraw true
  | @recycled i rest hkey _ hpool =>
    have hprep := hdraw.recycleSlot hpool
    exact ⟨_, _, _, hprep.claim (.inr ⟨_, _, rfl⟩)
      (hprep.mapped_enter ((v.map.isVacant_iff key).mp hkey)),
      (hr'.recycleSlot i rest).claim (hprep.auth _ le_rfl) hprep.held _ (.inr rfl) rfl, rfl⟩
  | fresh hkey _ _ =>
    have hprep := hdraw.newSlot
    exact ⟨_, _, _, hprep.claim (.inr ⟨_, _, rfl⟩)
      (hprep.mapped_enter ((v.map.isVacant_iff key).mp hkey)),
      hr'.newSlot.claim (hprep.auth _ le_rfl) hprep.held _ (.inr rfl) rfl, rfl⟩

/-- The call of `subject` has its slot; it is going to unwind. -/
theorem holding (hr : v.Recast a c) (hv : v.Inv) :
    ∃ (u : World K O W bits) (a' : Gen → Authority K bits) (c' : Lib.Handles Owner SlotId),
      u.Inv ∧ u.Recast a' c' ∧ (v.recast a c).holding = u.recast a' c' ∧ u.map = v.map ∧
        a' v.nextGen = .releasing v.registerSlot := by
  have hdraw : v.drawNumber.Inv := hv.nextGeneration _
  have hr' : v.drawNumber.Recast a c := ⟨hr.auth, hr.subject, hr.other, hr.rest⟩
  have hclaim {u : World K O W bits} {c' : Lib.Handles Owner SlotId} {i : SlotId}
      (hprep : u.Prepared i) (hru : u.Recast a c') :
      (u.claim i (.releasing i) u.map).Inv ∧
        (u.claim i (.releasing i) u.map).Recast (Function.update a u.nextGen (.releasing i))
          ((u.recast a c').claim i (.releasing i) u.map).arcs := by
    refine ⟨?_, hru.claim (hprep.auth _ le_rfl) hprep.held _ (.inl rfl) rfl⟩
    have hpub := hprep.claimPublisher.published (g := u.nextGen) (i := i)
      (.inr (Function.update_self ..))
    have hsame : u.claim i (.releasing i) u.map = { u.claim i (.publisher i) u.map with
        auth := Function.update (u.claim i (.publisher i) u.map).auth u.nextGen (.releasing i) } := by
      simp only [World.claim, Function.update_idem]
      rfl
    rwa [hsame]
  unfold World.holding World.prepared World.registerSlot
  cases hpool : v.pool with
  | nil =>
    have hpool' : (v.recast a c).pool = [] := hpool
    obtain ⟨hinv, hrc⟩ := hclaim hdraw.newSlot hr'.newSlot
    simp only [hpool', List.headD_nil]
    exact ⟨_, _, _, hinv, hrc, rfl, rfl, Function.update_self ..⟩
  | cons i rest =>
    have hpool' : (v.recast a c).pool = i :: rest := hpool
    obtain ⟨hinv, hrc⟩ := hclaim (hdraw.recycleSlot (i := i) hpool)
      (hr'.recycleSlot i rest)
    simp only [hpool', List.headD_cons]
    exact ⟨_, _, _, hinv, hrc, rfl, rfl, Function.update_self ..⟩

omit [WillWake W] in
/-- The handles are given back whatever the table is. -/
theorem releaseAll_map (w : World K O W bits) (m : SmallMap K bits) (xs : List Owner) (l : Bool) :
    ({ w with map := m } : World K O W bits).releaseAll xs l =
      { w.releaseAll xs l with map := m } := by
  induction xs generalizing w with
  | nil => rfl
  | cons x xs ih => exact ih (w.release x l)

/-- All inline entries go, one after the other. -/
theorem dropEntries {entries : List (K × SlotEntry bits)} (hr : v.Recast a c) (hv : v.Inv)
    (hmap : v.map = .inline entries) (l : Bool) :
    ∃ (u : World K O W bits) (c' : Lib.Handles Owner SlotId), u.Inv ∧ u.Recast a c' ∧
      { (v.recast a c).releaseAll (entries.map fun e => .table e.2.gen) l with map := .inline [] } =
        u.recast a c' := by
  induction entries generalizing v c with
  | nil =>
    refine ⟨v, c, hv, hr, ?_⟩
    rw [recast, ← hmap]
    rfl
  | cons e entries ih =>
    have hok : (SmallMap.inline (e :: entries)).Ok := hmap ▸ hv.mapped.ok
    have hget : v.map.get e.1 = some e.2 := by
      have hself : SmallMap.hasKey e.1 e = true := BEq.rfl
      rw [hmap]
      simp only [SmallMap.get, List.find?_cons_of_pos hself, Option.map_some]
    obtain ⟨u, hu, hru, heq⟩ := hr.dropEntry hv hget (hmap ▸ hok.without_head) l
    have hmap' : u.map = .inline entries := congrArg World.map heq.symm
    obtain ⟨u', c', hu', hru', heq'⟩ := ih hru hu hmap'
    refine ⟨u', c', hu', hru', ?_⟩
    rw [← heq', ← heq]
    -- the table is no concern of the handles
    have hrest := releaseAll_map ((v.recast a c).release (.table e.2.gen) l) (.inline entries)
      (entries.map fun e => .table e.2.gen) l
    exact congrArg (fun w : World K O W bits => { w with map := .inline [] }) hrest.symm

end Recast

omit [WillWake W] in
/-- The lost entries are all those of the table that the call has found, or none. -/
theorem RegisterReaches.lost_cases {key : K} {r : RegisterCall K O W bits} {p : PanicPoint}
    (h : w.RegisterReaches key r) (hpc : r.pc = .unwinding p)
    (hp : p = .clone ∨ p = .promotion ∨ p = .insertion) :
    w.lost p = [] ∧ r.map = w.map ∨
      ∃ entries, w.map = .inline entries ∧ r.map = .inline [] ∧
        w.lost p = entries.map fun e => .table e.2.gen := by
  have htab := h.tableAt
  unfold RegisterCall.TableAt at htab
  rw [hpc] at htab
  rcases hp with rfl | rfl | rfl
  · exact .inl ⟨rfl, htab⟩
  · obtain ⟨hnil, entries, hmap, -⟩ := htab
    exact .inr ⟨entries, hmap, hnil, by simp only [lost, hmap]⟩
  · exact .inl ⟨rfl, htab⟩

namespace Recast

/-- A call of `subject` that unwinds is explained. -/
theorem explained_unwindRegister (hr : v.Recast a c) (hv : v.Inv) {key : K}
    {r : RegisterCall K O W bits} {p : PanicPoint} (h : (v.recast a c).RegisterReaches key r)
    (hpc : r.pc = .unwinding p) (hp : p = .clone ∨ p = .promotion ∨ p = .insertion) :
    ((v.recast a c).unwindRegister p r.map).Explained := by
  obtain ⟨u, a', c', hu, hru, hhold, hmap, hauth⟩ := hr.holding hv
  have hlost : ∃ (u' : World K O W bits) (c'' : Lib.Handles Owner SlotId),
      u'.Inv ∧ u'.Recast a' c'' ∧
        { (v.recast a c).holding.releaseAll ((v.recast a c).lost p) true with map := r.map } =
          u'.recast a' c'' := by
    rw [hhold]
    rcases h.lost_cases hpc hp with ⟨hnil, hsame⟩ | ⟨entries, hentries, hleft, hlost⟩
    · refine ⟨u, c', hu, hru, ?_⟩
      have hkeep : r.map = u.map := hsame.trans hmap.symm
      rw [hnil, hkeep]
      rfl
    · rw [hlost, hleft]
      exact hru.dropEntries hu (hmap.trans hentries) true
  obtain ⟨u', c'', hu', hru', heq⟩ := hlost
  have hsame : (v.recast a c).unwindRegister p r.map =
      World.release { u'.recast a' c'' with auth := Function.update a' v.nextGen .gone }
        (.subject v.nextGen) true :=
    congrArg (fun w : World K O W bits => World.release { w with
      auth := Function.update w.auth v.nextGen .gone } (.subject v.nextGen) true) heq
  rw [hsame]
  exact hru'.explained_releaseSubject hu' hauth true

theorem explained_newObs (hr : v.Recast a c) (hv : v.Inv) {x : Owner} {i : SlotId} {g : Gen}
    (hp : v.pin x = some (i, g)) : ((v.recast a c).newObs i g).Explained :=
  ⟨v.newObs i g, a, c.grab (.obs v.nextObs) i, hv.newObs hp,
    hr.keep rfl (fun _ => id) (fun g' => Lib.Handles.of_grab_of_ne _ (by simp) _)
      (hr.other.grab _ _), rfl⟩

theorem explained_observe (hr : v.Recast a c) (hv : v.Inv) (key : K) :
    ((v.recast a c).observe key).1.Explained := by
  unfold World.observe
  cases hget : v.map.get key with
  | none =>
    have hget' : (v.recast a c).map.get key = none := hget
    simp only [hget']
    exact ⟨v, a, c, hv, hr, rfl⟩
  | some e =>
    have hget' : (v.recast a c).map.get key = some e := hget
    obtain ⟨k', d, -, hsub⟩ := hv.mapped.find key e hget
    simp only [hget']
    exact hr.explained_newObs hv (x := .subject e.gen) (by simp [pin, hsub, Authority.current?])

theorem explained_pair (hr : v.Recast a c) (hv : v.Inv) : (v.recast a c).pair.Explained := by
  have hprep := hv.newSlot
  have hclaim := hr.newSlot.claim (hprep.auth _ le_rfl) hprep.held (i := v.nextSlot)
    (b := .publisher v.nextSlot) v.map (.inl rfl) rfl
  have hpin : (v.newSlot.claim v.nextSlot (.publisher v.nextSlot) v.map).pin (.subject v.nextGen) =
      some (v.nextSlot, v.nextGen) := by
    simp [pin, World.claim, World.newSlot, Authority.current?]
  exact hclaim.explained_newObs hv.claimPublisher hpin

theorem explained_env (hr : v.Recast a c) {e : Env}
    (hinv : ({ v with env := e } : World K O W bits).Inv) :
    ({ v.recast a c with env := e } : World K O W bits).Explained :=
  hr.explained (u := { v with env := e }) rfl rfl (fun _ => id) hinv

/-- A call on the slot `i` takes a step or starts. -/
theorem explained_setSlot (hr : v.Recast a c) {i : SlotId} {s : SlotSys O W} {e : Env}
    (hcomp : (v.slots i).comp.resting = true → s.comp.resting = true)
    (hinv : ({ v.setSlot i s with env := e } : World K O W bits).Inv) :
    ({ (v.recast a c).setSlot i s with env := e } : World K O W bits).Explained :=
  hr.explained (u := { v.setSlot i s with env := e }) rfl rfl
    (forall_setSlot (P := fun j s => (v.slots j).comp.resting = true → s.comp.resting = true)
      hcomp fun _ => id) hinv

theorem explained_intoFuture (hr : v.Recast a c) (hv : v.Inv) {o : ObsId} {i : SlotId} {g : Gen}
    (ho : v.obs o = .live i g) (hb : v.Unborrowed o) :
    ((v.recast a c).intoFuture o i g).Explained := by
  refine ⟨v.intoFuture o i g, a, (c.release (.obs o)).grab (.fut v.nextFut) i,
    hv.intoFuture ho hb, ?_, rfl⟩
  refine hr.keep rfl (fun j hj => ?_) (fun g' => ?_) ((hr.other.release _).grab _ _)
  · rw [intoFuture_comp]
    exact hj
  · rw [Lib.Handles.of_grab_of_ne _ (by simp), Lib.Handles.of_release_of_ne _ (by simp)]

/-- A call of `into_outcome` is explained. -/
theorem explained_intoOutcome (hr : v.Recast a c) (hv : v.Inv) {o : ObsId} {i : SlotId} {g : Gen}
    (ho : v.obs o = .live i g) (hb : v.Unborrowed o) :
    ((v.recast a c).intoOutcome o i g).1.Explained := by
  have hof : c.of (.obs o) = some i := by
    rw [hr.other _ (by simp), hv.held]
    simp [handle, ho, ObsState.at?]
  unfold World.intoOutcome
  by_cases hone : c.count i = 1
  · have hcount := (hr.count_eq_one_iff hv (by simp) hof).mp hone
    have hone' : (v.recast a c).arcs.count i = 1 := hone
    rw [if_pos hone']
    refine ⟨v.unwrapSlot o i g, a, c.release (.obs o), hv.unwrapSlot ho hb hcount, ?_, rfl⟩
    refine hr.keep rfl (fun j hj => ?_) (fun g' => Lib.Handles.of_release_of_ne _ (by simp))
      (hr.other.release _)
    have hq : Quieter (v.slots j) ((v.unwrapSlot o i g).slots j) := by
      by_cases hji : j = i
      · subst hji
        simpa [World.unwrapSlot] using v.takenSlot_quieter j
      · simpa [World.unwrapSlot, hji] using Quieter.refl (v.slots j)
    by_contra hno
    rw [hq.comp (by simpa using hno)] at hj
    cases hj
  · have hone' : ¬ (v.recast a c).arcs.count i = 1 := hone
    rw [if_neg hone']
    exact hr.explained (u := { v with obs := Function.update v.obs o (.refused i g) }) rfl rfl
      (fun _ => id) (hv.refuseOutcome ho hb)

end Recast

/-! ### The steps -/

/-- Every step of the ordinary program is explained. -/
theorem Recast.explained_step (hr : v.Recast a c) (hv : v.Inv) (hs : Step (v.recast a c) w') :
    w'.Explained := by
  cases hs with
  | subject key => exact hr.explained_subject hv key
  | unwind => exact hr.explained_dropPopped hv true
  | observe key => exact hr.explained_observe hv key
  | cloneSpace =>
    exact hr.explained (u := { v with spaces := v.spaces + 1 }) rfl rfl (fun _ => id) (hv.spaces _)
  | dropSpace =>
    exact hr.explained (u := { v with spaces := v.spaces - 1 }) rfl rfl (fun _ => id) (hv.spaces _)
  | dropPooled => exact hr.explained_dropPopped hv false
  | @complete g k n i x ha =>
    have hag : a g = .subject k n i false := ha
    have hslot : (Authority.subject k n i true : Authority K bits).slot? = (a g).slot? := by
      rw [hag]
      rfl
    rcases (hag ▸ hr.auth g).of_subject with hb | ⟨-, hb⟩ | ⟨hd, -⟩
    · exact hr.explained_complete hv (hb ▸ .subject) (.inr ⟨k, n, rfl⟩)
        (hv.borrowed.idle g i (.inr ⟨k, n, hb⟩)) (.same _) hslot (fun _ _ _ _ _ => rfl) x
    · refine hr.explained_complete hv (hb ▸ .publisher) (.inl rfl)
        (hv.borrowed.idle g i (.inl hb)) .completed hslot (fun _ _ _ _ hsub => ?_) x
      cases hsub
    · cases hd
  | retire ha hrest => exact hr.explained_retire hv ha hrest
  | releaseInner ha => exact hr.explained_releaseInner hv ha
  | releaseSubject ha => exact hr.explained_releaseSubject hv ha false
  | pair => exact hr.explained_pair hv
  | @publish g i x ha =>
    have hown := hr.publisher ha
    refine hr.explained_complete hv (hown ▸ .publisher) (.inl rfl)
      (hv.borrowed.idle g i (.inl hown)) (.same _) ?_ (fun _ _ _ _ _ => rfl) x
    rw [show a g = .publisher i from ha]
    rfl
  | published ha hrest => exact hr.explained_published hv (.inl ⟨ha, hrest⟩)
  | dropPublisher ha => exact hr.explained_published hv (.inr ha)
  | cloneObs ho => exact hr.explained_newObs hv (pin_obs ho)
  | call t r ho hidle => exact hr.explained_setSlot id (hv.call t r ho hidle)
  | callStep i hs =>
    refine hr.explained_setSlot (fun hrest => ?_) (hv.callStep hs)
    by_contra hno
    have hold : (v.slots i).comp.resting = false := hs.quieter.comp (by simpa using hno)
    rw [hold] at hrest
    cases hrest
  | intoFuture ho hb => exact hr.explained_intoFuture hv ho hb
  | poll wk hf hrest => exact hr.explained_setSlot id (hv.poll hf hrest wk)
  | @cancel f i g hf hrest =>
    refine hr.explained_setSlot (fun hcomp => ?_) (hv.cancel hf hrest)
    have hsame : ((v.slots i).startCancel f).comp = (v.slots i).comp := by
      unfold SlotSys.startCancel
      split <;> rfl
    exact (congrArg CompPc.resting hsame).trans hcomp
  | @releaseFuture f i g hf hdead =>
    exact hr.explained_release hv (u := { v with futs := Function.update v.futs f .gone })
      rfl rfl rfl (by simp) (by simp) false (hv.releaseFuture hf hdead)
  | @dropObs o i g ho hb =>
    have hinv := hv.dropObs (s := .gone g none) (congrArg ObsState.at? ho) hb rfl
    exact hr.explained_release hv (u := { v with obs := Function.update v.obs o (.gone g none) })
      rfl rfl rfl (by simp) (by simp) false hinv
  | intoOutcome ho hb => exact hr.explained_intoOutcome hv ho hb
  | @dropRefused o i g ho =>
    exact hr.explained_release hv
      (u := { v with obs := Function.update v.obs o (.gone g (some none)) })
      rfl rfl rfl (by simp) (by simp) false (hv.dropRefused ho)
  | unpark t => exact hr.explained_env (hv.step (.unpark t))
  | park t hidle => exact hr.explained_env (hv.step (.park t hidle))
  | tick n hn => exact hr.explained_env (hv.step (.tick n hn))

/-- **A step of the unwinding program ends where the ordinary one can be, up to the cast.** -/
theorem Explained.step (h : w.Explained) (hs : w.UnwindingStep w') : w'.Explained := by
  obtain ⟨v, a, c, hv, hr, rfl⟩ := h
  cases hs with
  | step hs => exact hr.explained_step hv hs
  | register key _ hc hpc hp => exact hr.explained_unwindRegister hv hc hpc hp
  | remove ha hrest =>
    obtain ⟨u, hu, hru, heq⟩ := hr.retired hv ha hrest
    exact ⟨u, _, c, hu, hru, heq⟩
  | @dropEntry k e _ hget =>
    have hrem : (v.map.removeIf k e.generation).2 = true := by
      rw [SmallMap.removeIf_snd, show v.map.get k = some e from hget]
      simp
    obtain ⟨u, hu, hru, heq⟩ := hr.dropEntry hv hget (hv.mapped.ok.without_removeIf hrem) false
    exact ⟨u, a, _, hu, hru, heq⟩

theorem Explained.new (e : Env) : (World.new e : World K O W bits).Explained :=
  ⟨World.new e, _, _, .new e, ⟨fun _ => .same _, fun _ => rfl, fun _ _ => rfl,
    fun _ _ _ _ _ _ hne => absurd rfl hne⟩, rfl⟩

end World

end Observe
