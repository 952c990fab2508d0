import Observe.Space.Isolation
import Observe.Space.Answers
import Mathlib.Data.Set.Insert

/-!
# The board

What the program is for, without slots, handles, pools and threads: each key has at most one live
generation, each generation publishes at most one outcome, and both are changed by atomic steps.
The program does nothing else, however its calls interleave.
-/

namespace Observe

/-- A notice board of generations. -/
structure Board (K O : Type) where
  /-- The generation whose subject is retained under the key. -/
  live : K → Option Gen
  outcome : Gen → Option O
  /-- The generations made so far. -/
  made : Set Gen
  /-- The generations whose publication authority exists. -/
  authority : Set Gen

namespace Board

variable {K O : Type}

def empty : Board K O where
  live _ := none
  outcome _ := none
  made := ∅
  authority := ∅

def make (b : Board K O) (g : Gen) : Board K O :=
  { b with made := insert g b.made, authority := insert g b.authority }

def abandon (b : Board K O) (g : Gen) : Board K O :=
  { b with authority := b.authority \ {g} }

def setLive [Key K] (b : Board K O) (k : K) (a : Option Gen) : Board K O :=
  { b with live := fun k' => if k == k' then a else b.live k' }

def publish (b : Board K O) (g : Gen) (v : O) : Board K O :=
  { b with outcome := Function.update b.outcome g (some v) }

inductive Step [Key K] : Board K O → Board K O → Prop where
  | subject {b} (k : K) (g : Gen) (hk : b.live k = none) (hg : g ∉ b.made) :
      Step b ((b.make g).setLive k (some g))
  | pair {b} (g : Gen) (hg : g ∉ b.made) : Step b (b.make g)
  | publish {b} (g : Gen) (v : O) (hg : g ∈ b.authority) (hnone : b.outcome g = none) :
      Step b (b.publish g v)
  | retire {b} (k : K) (g : Gen) (hk : b.live k = some g) :
      Step b ((b.abandon g).setLive k none)
  /-- A publisher is dropped, or consumed. -/
  | abandon {b} (g : Gen) (hg : g ∈ b.authority) (hlive : ∀ k, b.live k ≠ some g) :
      Step b (b.abandon g)

end Board

def boardSystem (K O : Type) [Key K] : Lib.System (Board K O) where
  init b := b = .empty
  step := Board.Step

namespace Board

variable {K O : Type} [Key K] {b b' : Board K O}

/-! ## What cannot be undone -/

/-- What has happened to generation `g` and cannot be undone. -/
structure Later (g : Gen) (b b' : Board K O) : Prop where
  made : g ∈ b.made → g ∈ b'.made
  outcome : ∀ v, b.outcome g = some v → b'.outcome g = some v
  authority : g ∈ b.made → g ∉ b.authority → g ∉ b'.authority
  /-- Without its authority nothing is published, -/
  silent : g ∈ b.made → g ∉ b.authority → b.outcome g = none → b'.outcome g = none
  /-- and what is not retained does not come back. -/
  retired : g ∈ b.made → (∀ k, b.live k ≠ some g) → ∀ k, b'.live k ≠ some g

omit [Key K] in
theorem Later.refl (g : Gen) (b : Board K O) : Later g b b :=
  ⟨id, fun _ => id, fun _ => id, fun _ _ => id, fun _ => id⟩

omit [Key K] in
theorem Later.trans {b'' : Board K O} {g : Gen} (h : Later g b b') (h' : Later g b' b'') :
    Later g b b'' where
  made hg := h'.made (h.made hg)
  outcome v hv := h'.outcome v (h.outcome v hv)
  authority hg ha := h'.authority (h.made hg) (h.authority hg ha)
  silent hg ha hnone := h'.silent (h.made hg) (h.authority hg ha) (h.silent hg ha hnone)
  retired hg hl := h'.retired (h.made hg) (h.retired hg hl)

/-- No step of the board undoes anything. -/
theorem Step.later (hs : Step b b') (g : Gen) : Later g b b' := by
  cases hs with
  | subject k g' hk hg' =>
    have hne (hg : g ∈ b.made) : g ≠ g' := fun heq => hg' (heq ▸ hg)
    refine ⟨Set.mem_insert_of_mem _, fun _ => id, fun hg ha hin => ?_, fun _ _ => id, ?_⟩
    · rcases hin with heq | hin
      · exact hne hg heq
      · exact ha hin
    · intro hg hl k'
      simp only [setLive, make]
      split
      · intro heq
        exact hne hg (Option.some.inj heq).symm
      · exact hl k'
  | pair g' hg' =>
    refine ⟨Set.mem_insert_of_mem _, fun _ => id, fun hg ha hin => ?_, fun _ _ => id, fun _ => id⟩
    rcases hin with heq | hin
    · exact hg' (heq ▸ hg)
    · exact ha hin
  | publish g' v hg' hnone =>
    have hother (hne : g ≠ g') : (b.publish g' v).outcome g = b.outcome g :=
      Function.update_of_ne hne ..
    refine ⟨id, fun v' hv' => ?_, fun _ => id, fun _ ha hn => ?_, fun _ => id⟩
    · rw [hother ?_, hv']
      rintro rfl
      rw [hnone] at hv'
      cases hv'
    · rw [hother ?_, hn]
      rintro rfl
      exact ha hg'
  | retire k g' hk =>
    refine ⟨id, fun _ => id, fun _ ha hin => ha hin.1, fun _ _ => id, fun _ hl k' => ?_⟩
    simp only [setLive, Board.abandon]
    split
    · simp
    · exact hl k'
  | abandon g' hg' hlive =>
    exact ⟨id, fun _ => id, fun _ ha hin => ha hin.1, fun _ _ => id, fun _ => id⟩

/-- Along a run of the board nothing is undone. -/
theorem later_of_run (hrun : Relation.ReflTransGen Step b b') (g : Gen) : Later g b b' := by
  induction hrun with
  | refl => exact .refl g b
  | tail _ hst ih => exact ih.trans (hst.later g)

end Board

/-! ## The program shows a board -/

variable {K O W : Type} [Key K] {bits : Nat} [WillWake W] {w w' : World K O W bits}

def Authority.exists {K : Type} {bits : Nat} : Authority K bits → Bool
  | .subject .. | .publisher _ | .publishing _ => true
  | _ => false

namespace World

omit [WillWake W] in
structure Shows (w : World K O W bits) (b : Board K O) : Prop where
  live : ∀ k g, b.live k = some g ↔
    ∃ k' n i c, w.auth g = .subject k' n i c ∧ (k' == k) = true
  outcome : ∀ g v, b.outcome g = some v ↔ ∃ i, (w.slots i).published g = some v
  made : ∀ g, g ∈ b.made ↔ w.auth g ≠ .absent
  authority : ∀ g, g ∈ b.authority ↔ (w.auth g).exists = true

/-- Only a call in flight publishes. -/
theorem Inv.published_step (h : w.Inv) (hh : w.History) (hs : Step w w') :
    (∀ i, (w'.slots i).published = (w.slots i).published) ∨
      ∃ i e' s', CallStep w.env (w.slots i) e' s' ∧
        w' = { w.setSlot i s' with env := e' } := by
  rcases h.lasting_step hh .published hs with hpub | hcall | ⟨o, i, g, -, -, rfl⟩
  · exact .inl hpub
  · exact .inr hcall
  · exact .inl (published_unwrapSlot w o i g)

namespace Shows

variable {b : Board K O}

omit [WillWake W] in
/-- Nothing changes that the board shows. -/
theorem stutter (hb : w.Shows b) (hauth : w'.auth = w.auth)
    (hpub : ∀ i, (w'.slots i).published = (w.slots i).published) : w'.Shows b where
  live k g := by rw [hb.live, hauth]
  outcome g v := by simp only [hb.outcome, hpub]
  made g := by rw [hb.made, hauth]
  authority g := by rw [hb.authority, hauth]

omit [WillWake W] in
/-- The authority of one generation takes a step that the board does not show. -/
theorem setAuth (hb : w.Shows b) {g : Gen} {a : Authority K bits}
    (hset : w'.auth = Function.update w.auth g a)
    (hpub : ∀ i, (w'.slots i).published = (w.slots i).published)
    (hsub : ∀ k, (∃ k' n i c, a = .subject k' n i c ∧ (k' == k) = true) ↔
      ∃ k' n i c, w.auth g = .subject k' n i c ∧ (k' == k) = true)
    (habs : a = .absent ↔ w.auth g = .absent) (hex : a.exists = (w.auth g).exists) :
    w'.Shows b := by
  have hself : w'.auth g = a := by rw [hset, Function.update_self]
  have hother (g' : Gen) (hg : g' ≠ g) : w'.auth g' = w.auth g' := by
    rw [hset, Function.update_of_ne hg]
  refine ⟨fun k g' => ?_, fun g' v => ?_, fun g' => ?_, fun g' => ?_⟩
  · rw [hb.live]
    by_cases hg : g' = g
    · rw [hg, hself, hsub]
    · rw [hother g' hg]
  · simp only [hb.outcome, hpub]
  · rw [hb.made]
    by_cases hg : g' = g
    · rw [hg, hself, Ne, Ne, habs]
    · rw [hother g' hg]
  · rw [hb.authority]
    by_cases hg : g' = g
    · rw [hg, hself, hex]
    · rw [hother g' hg]

/-- A new generation, with the authority `a`. -/
theorem make (hb : w.Shows b) (h : w.Inv) {a : Authority K bits}
    (hset : w'.auth = Function.update w.auth w.nextGen a)
    (hpub : ∀ i, (w'.slots i).published = (w.slots i).published) (hex : a.exists = true) :
    w.nextGen ∉ b.made ∧
      (∀ g v, (b.make w.nextGen).outcome g = some v ↔
        ∃ i, (w'.slots i).published g = some v) ∧
      (∀ g, g ∈ (b.make w.nextGen).made ↔ w'.auth g ≠ .absent) ∧
      ∀ g, g ∈ (b.make w.nextGen).authority ↔ (w'.auth g).exists = true := by
  have habs := h.unused.auth w.nextGen le_rfl
  have hself : w'.auth w.nextGen = a := by rw [hset, Function.update_self]
  have hother (g : Gen) (hg : g ≠ w.nextGen) : w'.auth g = w.auth g := by
    rw [hset, Function.update_of_ne hg]
  refine ⟨fun hmade => (hb.made _).mp hmade habs, fun g v => ?_, fun g => ?_, fun g => ?_⟩
  · simp only [hpub]
    exact hb.outcome g v
  · by_cases hg : g = w.nextGen
    · rw [hg, hself]
      have hne : a ≠ .absent := by
        rintro rfl
        cases hex
      simp [Board.make, hne]
    · rw [hother g hg, ← hb.made]
      simp [Board.make, hg]
  · by_cases hg : g = w.nextGen
    · rw [hg, hself, hex]
      simp [Board.make]
    · rw [hother g hg, ← hb.authority]
      simp [Board.make, hg]

/-- `subject` posts a new generation under a key that has none. -/
theorem subject (hb : w.Shows b) (h : w.Inv) (h' : w'.Inv) {k : K} {n : BitVec bits} {i : SlotId}
    (hset : w'.auth = Function.update w.auth w.nextGen (.subject k n i false))
    (hpub : ∀ j, (w'.slots j).published = (w.slots j).published) :
    ∃ b', Board.Step b b' ∧ w'.Shows b' := by
  obtain ⟨hnew, hout, hmade, hauth⟩ := hb.make h hset hpub rfl
  have habs := h.unused.auth w.nextGen le_rfl
  have hself : w'.auth w.nextGen = .subject k n i false := by rw [hset, Function.update_self]
  have hother (g : Gen) (hg : g ≠ w.nextGen) : w'.auth g = w.auth g := by
    rw [hset, Function.update_of_ne hg]
  -- another subject under the key would now share it
  have hfree (g : Gen) (k' : K) (hk : (k == k') = true) : b.live k' ≠ some g := by
    intro hlive
    obtain ⟨k₀, n₀, i₀, c₀, ha, hk₀⟩ := (hb.live k' g).mp hlive
    have hg : g ≠ w.nextGen := by
      rintro rfl
      rw [habs] at ha
      cases ha
    have hfind := h'.mapped.entry g k₀ n₀ i₀ c₀ (by rw [hother g hg, ha])
    have hfind' := h'.mapped.entry w.nextGen k n i false hself
    rw [w'.map.get_congr (BEq.trans hk₀ (BEq.symm hk)), hfind'] at hfind
    cases hfind
    exact hg rfl
  have hk : b.live k = none := by
    by_contra hne
    obtain ⟨g, hg⟩ := Option.ne_none_iff_exists'.mp hne
    exact hfree g k BEq.rfl hg
  refine ⟨_, .subject k w.nextGen hk hnew, fun k' g => ?_, hout, hmade, hauth⟩
  show (if k == k' then some w.nextGen else b.live k') = some g ↔ _
  by_cases hg : g = w.nextGen
  · rw [hg, hself]
    split
    · rename_i hkk
      exact ⟨fun _ => ⟨k, n, i, false, rfl, hkk⟩, fun _ => rfl⟩
    · rename_i hkk
      constructor
      · intro hlive
        obtain ⟨k₀, n₀, i₀, c₀, ha, -⟩ := (hb.live k' w.nextGen).mp hlive
        rw [habs] at ha
        cases ha
      · intro hsub
        obtain ⟨k₀, n₀, i₀, c₀, ha, hk₀⟩ := hsub
        cases ha
        exact absurd hk₀ hkk
  · rw [hother g hg, ← hb.live]
    split
    · rename_i hkk
      constructor
      · intro heq
        exact absurd (Option.some.inj heq).symm hg
      · intro hlive
        exact absurd hlive (hfree g k' hkk)
    · rfl

/-- The body of `Subject::drop` takes the generation off the board. -/
theorem retire (hb : w.Shows b) (h : w.Inv) {g : Gen} {k : K} {n : BitVec bits} {i : SlotId}
    {c : Bool} (ha : w.auth g = .subject k n i c)
    (hset : w'.auth = Function.update w.auth g (.retired i))
    (hpub : ∀ j, (w'.slots j).published = (w.slots j).published) :
    ∃ b', Board.Step b b' ∧ w'.Shows b' := by
  have hself : w'.auth g = .retired i := by rw [hset, Function.update_self]
  have hother (g' : Gen) (hg : g' ≠ g) : w'.auth g' = w.auth g' := by
    rw [hset, Function.update_of_ne hg]
  have hlive : b.live k = some g := (hb.live k g).mpr ⟨k, n, i, c, ha, BEq.rfl⟩
  have honly (g' : Gen) (k' : K) (hk : (k == k') = true) (hl : b.live k' = some g') : g' = g := by
    obtain ⟨k₀, n₀, i₀, c₀, ha₀, hk₀⟩ := (hb.live k' g').mp hl
    have hfind := h.mapped.entry g' k₀ n₀ i₀ c₀ ha₀
    rw [w.map.get_congr (BEq.trans hk₀ (BEq.symm hk)), h.mapped.entry g k n i c ha] at hfind
    cases hfind
    rfl
  refine ⟨_, .retire k g hlive, fun k' g' => ?_, fun g' v => ?_, fun g' => ?_, fun g' => ?_⟩
  · show (if k == k' then none else b.live k') = some g' ↔ _
    by_cases hg : g' = g
    · rw [hg, hself]
      constructor
      · intro hl
        split at hl
        · cases hl
        · rename_i hkk
          obtain ⟨k₀, n₀, i₀, c₀, ha₀, hk₀⟩ := (hb.live k' g).mp hl
          rw [ha] at ha₀
          cases ha₀
          exact absurd hk₀ hkk
      · intro hsub
        obtain ⟨k₀, n₀, i₀, c₀, ha₀, -⟩ := hsub
        cases ha₀
    · rw [hother g' hg, ← hb.live]
      split
      · rename_i hkk
        constructor
        · intro hl
          cases hl
        · intro hl
          exact absurd (honly g' k' hkk hl) hg
      · rfl
  · show b.outcome g' = some v ↔ _
    simp only [hb.outcome, hpub]
  · show g' ∈ b.made ↔ _
    rw [hb.made]
    by_cases hg : g' = g
    · rw [hg, hself, ha]
      simp
    · rw [hother g' hg]
  · show g' ∈ b.authority \ {g} ↔ _
    by_cases hg : g' = g
    · rw [hg, hself]
      simp [Authority.exists]
    · rw [hother g' hg, ← hb.authority]
      simp [hg]

omit [WillWake W] in
/-- A publisher goes. -/
theorem abandon (hb : w.Shows b) {g : Gen} {i : SlotId}
    (ha : w.auth g = .publisher i ∨ w.auth g = .publishing i)
    (hset : w'.auth = Function.update w.auth g (.releasing i))
    (hpub : ∀ j, (w'.slots j).published = (w.slots j).published) :
    ∃ b', Board.Step b b' ∧ w'.Shows b' := by
  have hself : w'.auth g = .releasing i := by rw [hset, Function.update_self]
  have hother (g' : Gen) (hg : g' ≠ g) : w'.auth g' = w.auth g' := by
    rw [hset, Function.update_of_ne hg]
  have hin : g ∈ b.authority := by
    rw [hb.authority]
    rcases ha with ha | ha <;> rw [ha] <;> rfl
  have hmade : w.auth g ≠ .absent := by
    rcases ha with ha | ha <;> rw [ha] <;> simp
  have hlive (k : K) : b.live k ≠ some g := by
    intro hl
    obtain ⟨k₀, n₀, i₀, c₀, ha₀, -⟩ := (hb.live k g).mp hl
    rcases ha with ha | ha <;> rw [ha] at ha₀ <;> cases ha₀
  refine ⟨_, .abandon g hin hlive, fun k g' => ?_, fun g' v => ?_, fun g' => ?_, fun g' => ?_⟩
  · show b.live k = some g' ↔ _
    by_cases hg : g' = g
    · rw [hg, hself]
      constructor
      · intro hl
        exact absurd hl (hlive k)
      · intro hsub
        obtain ⟨k₀, n₀, i₀, c₀, ha₀, -⟩ := hsub
        cases ha₀
    · rw [hother g' hg, ← hb.live]
  · show b.outcome g' = some v ↔ _
    simp only [hb.outcome, hpub]
  · show g' ∈ b.made ↔ _
    rw [hb.made]
    by_cases hg : g' = g
    · rw [hg, hself]
      simp [hmade]
    · rw [hother g' hg]
  · show g' ∈ b.authority \ {g} ↔ _
    by_cases hg : g' = g
    · rw [hg, hself]
      simp [Authority.exists]
    · rw [hother g' hg, ← hb.authority]
      simp [hg]

/-- `COMPLETED` posts the outcome. -/
theorem publish (hb : w.Shows b) (h : w.Inv) (hh : w.History) {i : SlotId} {v : O}
    (hauth : w'.auth = w.auth) (hrun : (w.slots i).comp.resting = false)
    (hnone : (w.slots i).published (w.slots i).gen = none)
    (hself : (w'.slots i).published =
      Function.update (w.slots i).published (w.slots i).gen (some v))
    (hother : ∀ j, j ≠ i → (w'.slots j).published = (w.slots j).published) :
    ∃ b', Board.Step b b' ∧ w'.Shows b' := by
  have hslot : (w.auth (w.slots i).gen).slot? = some i ∧ (w.auth (w.slots i).gen).exists = true := by
    rcases h.borrowed.comp i hrun with ha | ⟨k, n, ha⟩ <;> rw [ha] <;> exact ⟨rfl, rfl⟩
  -- the generation publishes in its own slot only
  have hhome (j : SlotId) (v' : O) (hj : (w.slots j).published (w.slots i).gen = some v') :
      j = i :=
    (hh.home j _ (by rw [hj]; simp) i hslot.1).symm
  have hpending : b.outcome (w.slots i).gen = none := by
    by_contra hne
    obtain ⟨v', hv'⟩ := Option.ne_none_iff_exists'.mp hne
    obtain ⟨j, hj⟩ := (hb.outcome _ v').mp hv'
    rw [hhome j v' hj, hnone] at hj
    cases hj
  refine ⟨_, .publish (w.slots i).gen v ((hb.authority _).mpr hslot.2) hpending, fun k g => ?_,
    fun g v' => ?_, fun g => ?_, fun g => ?_⟩
  · show b.live k = some g ↔ _
    rw [hb.live, hauth]
  · show Function.update b.outcome (w.slots i).gen (some v) g = some v' ↔ _
    by_cases hg : g = (w.slots i).gen
    · rw [hg, Function.update_self]
      constructor
      · intro heq
        refine ⟨i, ?_⟩
        rw [hself, Function.update_self, heq]
      · intro hpub
        obtain ⟨j, hj⟩ := hpub
        by_cases hji : j = i
        · rw [hji, hself, Function.update_self] at hj
          exact hj
        · rw [hother j hji] at hj
          exact absurd (hhome j v' hj) hji
    · rw [Function.update_of_ne hg, hb.outcome]
      refine exists_congr fun j => ?_
      by_cases hji : j = i
      · rw [hji, hself, Function.update_of_ne hg]
      · rw [hother j hji]
  · show g ∈ b.made ↔ _
    rw [hb.made, hauth]
  · show g ∈ b.authority ↔ _
    rw [hb.authority, hauth]

/-- A step of the program is a step on the board, or none. -/
theorem step (hb : w.Shows b) (h : w.Inv) (hh : w.History) (hs : Step w w') :
    w'.Shows b ∨ ∃ b', Board.Step b b' ∧ w'.Shows b' := by
  rcases h.published_step hh hs with hpub | ⟨i, e', s', hcall, rfl⟩
  · rcases h.auth_step hs with hauth | ⟨g, a, hmove, hset⟩
    · exact .inl (hb.stutter hauth hpub)
    · cases hmove with
      | subject hi => exact .inr (hb.subject h (h.step hs) hset hpub)
      | publisher =>
        obtain ⟨hnew, hout, hmade, hex⟩ := hb.make h hset hpub rfl
        refine .inr ⟨_, .pair w.nextGen hnew, fun k g => ?_, hout, hmade, hex⟩
        show b.live k = some g ↔ _
        rw [hb.live, hset]
        by_cases hg : g = w.nextGen
        · rw [hg, Function.update_self, h.unused.auth w.nextGen le_rfl]
          simp
        · rw [Function.update_of_ne hg]
      | completes hc =>
        refine .inl (hb.setAuth hset hpub (fun k => ?_) ?_ ?_) <;>
          generalize w.auth g = a₀ at hc <;> cases hc <;> simp [Authority.exists]
      | retired ha => exact .inr (hb.retire h ha hset hpub)
      | releasing ha =>
        rcases ha with ha | ha
        · exact .inl (hb.setAuth hset hpub (by simp [ha]) (by simp [ha]) (by rw [ha]; rfl))
        · exact .inr (hb.abandon ha hset hpub)
      | gone ha =>
        exact .inl (hb.setAuth hset hpub (by simp [ha]) (by simp [ha]) (by rw [ha]; rfl))
  · obtain ⟨x, g, hx⟩ := h.pin_callStep hcall
    have hmove : SlotMove (w.env, w.slots i) (e', s') := .step hcall
    rcases hmove.published_of (h.safe_of_pin hx) with hsame | ⟨hrun, hnone, v, hpub⟩
    · exact .inl (hb.stutter rfl (update_lasting SlotSys.published hsame))
    · refine .inr (hb.publish h hh rfl hrun hnone (v := v) ?_ fun j hj => ?_)
      · show (Function.update w.slots i s' i).published = _
        rw [Function.update_self, hpub]
      · show (Function.update w.slots i s' j).published = _
        rw [Function.update_of_ne hj]

omit [WillWake W] in
theorem new (e : Env) : (World.new e : World K O W bits).Shows .empty where
  live k g := by simp [Board.empty, World.new]
  outcome g v := by simp [Board.empty, World.new, SlotSys.blank]
  made g := by simp [Board.empty, World.new]
  authority g := by simp [Board.empty, World.new, Authority.exists]

end Shows

end World

/-- The program refines the board. -/
theorem World.shows_simulates :
    (boardSystem K O).Simulates (worldSystem K O W bits) World.Shows where
  init w hw := by
    obtain ⟨e, rfl⟩ := hw
    exact ⟨.empty, rfl, World.Shows.new e⟩
  step w w' b hreach hb hs := by
    obtain ⟨hi, hh, -⟩ := worldSystem_sound hreach
    exact hb.step hi hh hs

namespace World.Shows

variable {b : Board K O}

/-- A look-up in the table is a look at the board. -/
theorem live_iff_get (hb : w.Shows b) (h : w.Inv) (k : K) (g : Gen) :
    b.live k = some g ↔ ∃ e, w.map.get k = some e ∧ e.gen = g := by
  rw [hb.live]
  constructor
  · intro hsub
    obtain ⟨k', n, i, c, ha, hk⟩ := hsub
    refine ⟨⟨n, i, g⟩, ?_, rfl⟩
    rw [← w.map.get_congr hk]
    exact h.mapped.entry g k' n i c ha
  · intro hget
    obtain ⟨e, he, rfl⟩ := hget
    obtain ⟨k', c, hk, ha⟩ := h.mapped.find k e he
    exact ⟨k', _, _, c, ha, hk⟩

omit [WillWake W] in
/-- What a thread's call has returned is on the board. -/
theorem outcome_of_value (hb : w.Shows b) (hh : w.History) {i : SlotId} {t : Tid} {v : O}
    (hret : (w.slots i).thr t = .returned (.value v)) :
    b.outcome ((w.slots i).via t).gen = some v :=
  (hb.outcome _ v).mpr ⟨i, (hh.past i).thr t _ (.inl hret)⟩

omit [WillWake W] in
/-- What a future is ready with is on the board. -/
theorem outcome_of_ready (hb : w.Shows b) (hh : w.History) {i : SlotId} {f : FutId} {v : O}
    (hret : (w.slots i).fpc f = .ready v) : b.outcome ((w.slots i).fut f).gen = some v :=
  (hb.outcome _ v).mpr ⟨i, (hh.past i).fut f v hret⟩

omit [WillWake W] in
/-- What `into_outcome` has returned is on the board. -/
theorem outcome_of_took (hb : w.Shows b) (ha : w.Answers) {o : ObsId} {g : Gen} {v : O}
    (ht : w.obs o = .gone g (some (some v))) : b.outcome g = some v := by
  obtain ⟨i, hv, -⟩ := ha.value o g v ht
  exact (hb.outcome g v).mpr ⟨i, hv⟩

end World.Shows

/-- **The program refines the board.** Every step of the program, with all its threads, pools and
handles, is one atomic step of the board or none; what the table has for a key is on the board, and
so is every outcome that a call, a future or an `into_outcome` has returned. -/
theorem program_refines_board :
    (boardSystem K O).Simulates (worldSystem K O W bits) World.Shows ∧
    ∀ (w : World K O W bits) (b : Board K O), (worldSystem K O W bits).Reachable w → w.Shows b →
      (∀ k g, b.live k = some g ↔ ∃ e, w.map.get k = some e ∧ e.gen = g) ∧
      (∀ i t v, (w.slots i).thr t = .returned (.value v) →
        b.outcome ((w.slots i).via t).gen = some v) ∧
      (∀ i f v, (w.slots i).fpc f = .ready v → b.outcome ((w.slots i).fut f).gen = some v) ∧
      ∀ o g v, w.obs o = .gone g (some (some v)) → b.outcome g = some v := by
  refine ⟨World.shows_simulates, fun w b hreach hb => ?_⟩
  obtain ⟨hi, hh, -⟩ := worldSystem_sound hreach
  have ha := worldSystem_answers hreach
  exact ⟨hb.live_iff_get hi, fun _ _ _ => hb.outcome_of_value hh,
    fun _ _ _ => hb.outcome_of_ready hh, fun _ _ _ => hb.outcome_of_took ha⟩

/-! ## What the program cannot undo -/

/-- A run of the program is a run of the board. -/
theorem World.shows_later (h : (worldSystem K O W bits).Reachable w)
    (hrun : Relation.ReflTransGen World.Step w w') (g : Gen) :
    ∃ b b' : Board K O, w.Shows b ∧ w'.Shows b' ∧ Board.Later g b b' := by
  obtain ⟨b, -, hb⟩ := World.shows_simulates.reachable h
  obtain ⟨b', hsteps, hb'⟩ := World.shows_simulates.run h hb hrun
  exact ⟨b, b', hb, hb', Board.later_of_run hsteps g⟩

/-- **A retired generation does not come back.** Once no key has the generation, no key has it ever
again, although keys, slots and generation numbers are reused. -/
theorem retired_stays_retired (h : (worldSystem K O W bits).Reachable w)
    (hrun : Relation.ReflTransGen World.Step w w') {g : Gen} (hmade : w.auth g ≠ .absent)
    (hret : ∀ k e, w.map.get k = some e → e.gen ≠ g) :
    ∀ k e, w'.map.get k = some e → e.gen ≠ g := by
  obtain ⟨b, b', hb, hb', hlater⟩ := World.shows_later h hrun g
  have hi : w.Inv := (worldSystem_sound h).inv
  have hi' : w'.Inv := (worldSystem_sound (h.trans hrun)).inv
  have hlive (k : K) : b.live k ≠ some g := by
    intro hl
    obtain ⟨e, he, hg⟩ := (hb.live_iff_get hi k g).mp hl
    exact hret k e he hg
  intro k e he hg
  exact hlater.retired ((hb.made g).mpr hmade) hlive k ((hb'.live_iff_get hi' k g).mpr ⟨e, he, hg⟩)

/-- **An abandoned generation stays pending.** When the subject or the publisher of a generation has
gone without a publication: nothing is ever published for it, no call through an observation of it,
no future of it and no `into_outcome` ever returns an outcome, and nobody is ever notified for
it. -/
theorem abandoned_stays_pending (h : (worldSystem K O W bits).Reachable w)
    (hrun : Relation.ReflTransGen World.Step w w') {g : Gen} (hmade : w.auth g ≠ .absent)
    (hgone : (w.auth g).exists = false) (hnone : ∀ i, (w.slots i).published g = none) :
    (∀ i, (w'.slots i).published g = none) ∧
    (∀ i t v, (w'.slots i).thr t = .returned (.value v) → ((w'.slots i).via t).gen ≠ g) ∧
    (∀ i f v, (w'.slots i).fpc f = .ready v → ((w'.slots i).fut f).gen ≠ g) ∧
    (∀ o v, w'.obs o ≠ .gone g (some (some v))) ∧
    ∀ i x, (g, x) ∉ (w'.slots i).notified := by
  obtain ⟨b, b', hb, hb', hlater⟩ := World.shows_later h hrun g
  have hh' : w'.History := (worldSystem_sound (h.trans hrun)).history
  have hpending : b.outcome g = none := by
    by_contra hne
    obtain ⟨v, hv⟩ := Option.ne_none_iff_exists'.mp hne
    obtain ⟨i, hi⟩ := (hb.outcome g v).mp hv
    rw [hnone i] at hi
    cases hi
  have hsilent : b'.outcome g = none :=
    hlater.silent ((hb.made g).mpr hmade) (by rw [hb.authority, hgone]; simp) hpending
  have hpub (i : SlotId) : (w'.slots i).published g = none := by
    by_contra hne
    obtain ⟨v, hv⟩ := Option.ne_none_iff_exists'.mp hne
    rw [(hb'.outcome g v).mpr ⟨i, hv⟩] at hsilent
    cases hsilent
  refine ⟨hpub, fun i t v hret hg => ?_, fun i f v hret hg => ?_, fun o v ht => ?_,
    fun i x hx => ?_⟩
  · have hval := (hh'.past i).thr t _ (.inl hret)
    rw [hg, hpub i] at hval
    cases hval
  · have hval := (hh'.past i).fut f v hret
    rw [hg, hpub i] at hval
    cases hval
  · rw [hb'.outcome_of_took (worldSystem_answers (h.trans hrun)) ht] at hsilent
    cases hsilent
  · exact ((hh'.past i).notified (g, x) hx).2 (hpub i)

/-- Generation 1 of key 7 is retired without an outcome, its observation left, and generation 2 gets
the key. -/
theorem abandoned_run : ∃ w w' : World Nat Nat Nat 64,
    (worldSystem Nat Nat Nat 64).Reachable w ∧ Relation.ReflTransGen World.Step w w' ∧
    w.auth 1 = .retired 0 ∧ (∀ k e, w.map.get k = some e → e.gen ≠ 1) ∧
    (∀ i, (w.slots i).published 1 = none) ∧ w'.map.get 7 = some ⟨2, 1, 2⟩ ∧
    w'.obs 0 = .live 0 1 := by
  have h₀ : (worldSystem Nat Nat Nat 64).Reachable _ := .init ⟨⟨fun _ => false, 0⟩, rfl⟩
  have h₁ := h₀.step (.subject 7 (by decide))
  have h₂ := h₁.step (.observe 7 (by decide))
  have h₃ := h₂.step (.retire (g := 1) rfl rfl)
  refine ⟨_, _, h₃, .single (.subject 7 (by decide)), rfl, fun k e he => ?_, fun i => ?_, rfl, rfl⟩
  · cases he
  · rcases i with _ | i <;> rfl

theorem abandoned_key_reused : ∃ w : World Nat Nat Nat 64,
    w.map.get 7 = some ⟨2, 1, 2⟩ ∧ ∀ k e, w.map.get k = some e → e.gen ≠ 1 := by
  obtain ⟨w, w', h, hrun, ha, hret, -, hkey, -⟩ := abandoned_run
  exact ⟨w', hkey, retired_stays_retired h hrun (by rw [ha]; simp) hret⟩

theorem abandoned_observation_pending : ∃ w : World Nat Nat Nat 64,
    w.obs 0 = .live 0 1 ∧ ∀ i, (w.slots i).published 1 = none := by
  obtain ⟨w, w', h, hrun, ha, -, hnone, -, hobs⟩ := abandoned_run
  exact ⟨w', hobs, (abandoned_stays_pending h hrun (by rw [ha]; simp) (by rw [ha]; rfl) hnone).1⟩

end Observe
