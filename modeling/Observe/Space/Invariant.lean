import Observe.Space.Handles

/-!
# The invariant of the program

Every handle belongs to a record; an observation, a future and the publication authority of a
generation pin their slot to that generation; a pooled slot is pinned by nobody; and the table holds
exactly the generations whose `Subject` has not been dropped.
-/

namespace Observe

variable {K O W : Type} [Key K] {bits : Nat}

namespace World

def pin (w : World K O W bits) : Owner → Option (SlotId × Gen)
  | .subject g => (w.auth g).current?.map (·, g)
  | .obs o => (w.obs o).at?
  | .fut f => (w.futs f).at?
  | .table _ | .pool _ => none

/-- Only owners that are being dropped share a slot with the pool. -/
structure Pooled (w : World K O W bits) : Prop where
  nodup : w.pool.Nodup
  length : w.pool.length ≤ slotPoolCap
  free : ∀ i ∈ w.pool, ∀ x g, w.pin x ≠ some (i, g)

/-- The table is the map from keys to the generations whose `Subject` exists. -/
structure Mapped (w : World K O W bits) : Prop where
  ok : w.map.Ok
  find : ∀ k e, w.map.get k = some e →
    ∃ k' c, (k' == k) = true ∧ w.auth e.gen = .subject k' e.generation e.slot c
  entry : ∀ g k n i c, w.auth g = .subject k n i c → w.map.get k = some ⟨n, i, g⟩

structure Borrowed (w : World K O W bits) : Prop where
  thr : ∀ i t, ((w.slots i).thr t).active = true →
    w.obs ((w.slots i).via t).obs = .live i ((w.slots i).via t).gen
  alone : ∀ i j t, ((w.slots i).thr t).active = true → ((w.slots j).thr t).active = true → i = j
  fut : ∀ i f, ((w.slots i).fpc f).active = true → ∃ g, w.futs f = .live i g
  mem : ∀ i f g, w.futs f = .live i g → f ∈ (w.slots i).futs
  gone : ∀ i, ∀ f ∈ (w.slots i).futs, (w.slots i).fpc f = .dead ∨ ∃ g, w.futs f = .live i g
  comp : ∀ i, (w.slots i).comp.resting = false →
    w.auth (w.slots i).gen = .publishing i ∨
      ∃ k n, w.auth (w.slots i).gen = .subject k n i true
  idle : ∀ g i, (w.auth g = .publisher i ∨ ∃ k n, w.auth g = .subject k n i false) →
    (w.slots i).comp = .idle

structure Unused (w : World K O W bits) : Prop where
  auth : ∀ g, w.nextGen ≤ g → w.auth g = .absent
  obs : ∀ o, w.nextObs ≤ o → w.obs o = .absent
  fut : ∀ f, w.nextFut ≤ f → w.futs f = .absent
  futs : ∀ i, ∀ f ∈ (w.slots i).futs, f < w.nextFut
  gen : ∀ i, (w.slots i).gen < w.nextGen
  slot : ∀ i, w.nextSlot ≤ i → ∀ x, w.arcs.of x ≠ some i

structure Inv [WillWake W] (w : World K O W bits) : Prop where
  held : ∀ x, w.arcs.of x = w.handle x
  pinned : ∀ x i g, w.pin x = some (i, g) → (w.slots i).gen = g
  pooled : w.Pooled
  mapped : w.Mapped
  borrowed : w.Borrowed
  unused : w.Unused
  safe : ∀ x i, w.arcs.of x = some i → (w.slots i).Safe w.env

variable {w w' : World K O W bits}

theorem handle_of_pin {x : Owner} {i : SlotId} {g : Gen} (h : w.pin x = some (i, g)) :
    w.handle x = some i := by
  cases x with
  | subject g' =>
    simp only [pin, Option.map_eq_some_iff, Prod.mk.injEq] at h
    obtain ⟨j, hj, rfl, rfl⟩ := h
    simp only [handle]
    cases ha : w.auth g' <;> simp_all [Authority.current?, Authority.slot?]
  | obs o => simpa [handle] using ⟨g, h⟩
  | fut f => simpa [handle] using ⟨g, h⟩
  | table g' => cases h
  | pool j => cases h

/-! ## Fewer calls in flight -/

end World

structure Quieter (s s' : SlotSys O W) : Prop where
  gen : s'.gen = s.gen
  futs : s'.futs = s.futs
  via : s'.via = s.via
  thr : ∀ t, (s'.thr t).active = true → (s.thr t).active = true
  fpc : ∀ f, (s'.fpc f).active = true → (s.fpc f).active = true
  dead : ∀ f, s.fpc f = .dead → s'.fpc f = .dead
  comp : s'.comp.resting = false → s.comp.resting = false
  idle : s.comp = .idle → s'.comp = .idle

theorem Quieter.refl (s : SlotSys O W) : Quieter s s :=
  ⟨rfl, rfl, rfl, fun _ => id, fun _ => id, fun _ => id, id, id⟩

theorem Quieter.trans {s s' s'' : SlotSys O W} (h : Quieter s s') (h' : Quieter s' s'') :
    Quieter s s'' :=
  ⟨h'.gen.trans h.gen, h'.futs.trans h.futs, h'.via.trans h.via, fun t ht => h.thr t (h'.thr t ht),
    fun f hf => h.fpc f (h'.fpc f hf), fun f hf => h'.dead f (h.dead f hf),
    fun hc => h.comp (h'.comp hc), fun hi => h'.idle (h.idle hi)⟩

theorem Quieter.finalDrop (s : SlotSys O W) : Quieter s s.finalDrop :=
  ⟨rfl, rfl, rfl, fun _ => id, fun _ => id, fun _ => id, id, id⟩

/-- The completion moves only while it runs. -/
theorem CompStep.notResting {e e' : Env} {s s' : SlotSys O W} (h : CompStep e s e' s') :
    s.comp.resting = false := by
  cases h <;> simp_all [CompPc.resting]

/-- A step of a call in flight starts no other. -/
theorem CallStep.quieter [WillWake W] {e e' : Env} {s s' : SlotSys O W}
    (h : CallStep e s e' s') : Quieter s s' := by
  cases h with
  | thread t h =>
    have hfr := h.frame
    refine ⟨hfr.gen, hfr.futs, hfr.via, fun u hu => ?_, fun f => by rw [hfr.fpc]; exact id,
      fun f => by rw [hfr.fpc]; exact id, by rw [hfr.comp]; exact id, by rw [hfr.comp]; exact id⟩
    by_cases hut : u = t
    · rw [hut]
      exact h.active
    · rwa [hfr.thr u hut] at hu
  | future f he h =>
    have hfr := h.frame
    refine ⟨hfr.gen, hfr.futs, hfr.via, fun u => by rw [hfr.thr]; exact id, fun i hi => ?_,
      fun i hi => ?_, by rw [hfr.comp]; exact id, by rw [hfr.comp]; exact id⟩
    · by_cases hif : i = f
      · rw [hif]
        exact h.active
      · rwa [hfr.fpc i hif] at hi
    · have hif : i ≠ f := by
        rintro rfl
        have hact := h.active
        rw [hi] at hact
        cases hact
      rw [hfr.fpc i hif, hi]
  | complete h =>
    have hfr := h.frame
    refine ⟨hfr.gen, hfr.futs, hfr.via, fun u => by rw [hfr.thr]; exact id,
      fun f => by rw [hfr.fpc]; exact id, fun f => by rw [hfr.fpc]; exact id,
      fun _ => h.notResting, fun hidle => ?_⟩
    have hrest := h.notResting
    rw [hidle] at hrest
    cases hrest

/-- Only a thread inside its own call loses its token. -/
theorem CallStep.token [WillWake W] {e e' : Env} {s s' : SlotSys O W} (h : CallStep e s e' s')
    {u : Tid} (hu : (s.thr u).active = false) (htok : e.token u = true) : e'.token u = true := by
  cases h with
  | thread t h =>
    refine h.token (.inl ?_) htok
    rintro rfl
    rw [h.active] at hu
    cases hu
  | future f he h =>
    subst he
    exact htok
  | complete h =>
    cases h with
    | @unpark g t' g' ws b hpc =>
      by_cases hut : u = t'
      · simp [hut]
      · simpa [hut] using htok
    | _ => exact htok

namespace World

variable {w w' : World K O W bits}

theorem release_quieter (w : World K O W bits) (x : Owner) (l : Bool) (j : SlotId) :
    Quieter (w.slots j) ((w.release x l).slots j) := by
  rcases w.release_slots x l j with h | ⟨-, -, h⟩
  · rw [h]
    exact Quieter.refl _
  · rw [h]
    exact Quieter.finalDrop _

/-- No call starts, and the records that the calls in flight rely on stay. -/
theorem Borrowed.mono (h : w.Borrowed) (hq : ∀ i, Quieter (w.slots i) (w'.slots i))
    (hobs : ∀ i t o g, ((w.slots i).thr t).active = true → (w.slots i).via t = ⟨o, g⟩ →
      w.obs o = .live i g → w'.obs o = .live i g)
    (hfut : ∀ i f g, (w.slots i).fpc f ≠ .dead → w.futs f = .live i g → w'.futs f = .live i g)
    (hlive : ∀ i f g, w'.futs f = .live i g → w.futs f = .live i g)
    (hcomp : ∀ i, (w.slots i).comp.resting = false →
      w'.auth (w.slots i).gen = w.auth (w.slots i).gen)
    (hidle : ∀ g i, (w'.auth g = .publisher i ∨ ∃ k n, w'.auth g = .subject k n i false) →
      (w.auth g = .publisher i ∨ ∃ k n, w.auth g = .subject k n i false) ∨
        (w'.slots i).comp = .idle) : w'.Borrowed where
  thr i t ht := by
    have hold := (hq i).thr t ht
    rw [(hq i).via]
    exact hobs i t _ _ hold rfl (h.thr i t hold)
  alone i j t hi hj := h.alone i j t ((hq i).thr t hi) ((hq j).thr t hj)
  fut i f hf := by
    have hold := (hq i).fpc f hf
    obtain ⟨g, hg⟩ := h.fut i f hold
    refine ⟨g, hfut i f g ?_ hg⟩
    intro hdead
    rw [hdead] at hold
    cases hold
  mem i f g hf := by
    rw [(hq i).futs]
    exact h.mem i f g (hlive i f g hf)
  gone i f hf := by
    rw [(hq i).futs] at hf
    by_cases hdead : (w.slots i).fpc f = .dead
    · exact .inl ((hq i).dead f hdead)
    · obtain ⟨g, hg⟩ := (h.gone i f hf).resolve_left hdead
      exact .inr ⟨g, hfut i f g hdead hg⟩
  comp i hi := by
    have hold := (hq i).comp hi
    rw [(hq i).gen, hcomp i hold]
    exact h.comp i hold
  idle g i hg := (hidle g i hg).elim (fun hold => (hq i).idle (h.idle g i hold)) id

/-- Slot `i` goes on as `s'`, whose calls hold what they borrow. -/
theorem Borrowed.setSlot (h : w.Borrowed) {i : SlotId} {s : SlotSys O W} (e' : Env)
    (hthr : ∀ t, (s.thr t).active = true → w.obs (s.via t).obs = .live i (s.via t).gen)
    (halone : ∀ t, (s.thr t).active = true → ((w.slots i).thr t).active = true ∨ w.Idle t)
    (hfut : ∀ f, (s.fpc f).active = true → ∃ g, w.futs f = .live i g)
    (hmem : ∀ f g, w.futs f = .live i g → f ∈ s.futs)
    (hgone : ∀ f ∈ s.futs, s.fpc f = .dead ∨ ∃ g, w.futs f = .live i g)
    (hcomp : s.comp.resting = false →
      w.auth s.gen = .publishing i ∨ ∃ k n, w.auth s.gen = .subject k n i true)
    (hidle : ∀ g, (w.auth g = .publisher i ∨ ∃ k n, w.auth g = .subject k n i false) →
      s.comp = .idle) : ({ w.setSlot i s with env := e' } : World K O W bits).Borrowed := by
  have hself : ({ w.setSlot i s with env := e' } : World K O W bits).slots i = s := by
    simp [World.setSlot]
  have hother (j : SlotId) (hj : j ≠ i) :
      ({ w.setSlot i s with env := e' } : World K O W bits).slots j = w.slots j := by
    simp [World.setSlot, hj]
  have hlone (t : Tid) (ht : (s.thr t).active = true) (j : SlotId) (hj : j ≠ i) :
      ((w.slots j).thr t).active = false := by
    rcases halone t ht with hold | hidle
    · by_contra hact
      exact hj (h.alone j i t (by simpa using hact) hold)
    · exact hidle j
  have hthr' := forall_setSlot (P := fun j s => ∀ t, (s.thr t).active = true →
    w.obs (s.via t).obs = .live j (s.via t).gen) hthr h.thr
  have hfut' := forall_setSlot (P := fun j s => ∀ f, (s.fpc f).active = true →
    ∃ g, w.futs f = .live j g) hfut h.fut
  have hmem' := forall_setSlot (P := fun j s => ∀ f g, w.futs f = .live j g → f ∈ s.futs) hmem h.mem
  have hgone' := forall_setSlot (P := fun j s => ∀ f ∈ s.futs,
    s.fpc f = .dead ∨ ∃ g, w.futs f = .live j g) hgone h.gone
  have hcomp' := forall_setSlot (P := fun j s => s.comp.resting = false →
    w.auth s.gen = .publishing j ∨ ∃ k n, w.auth s.gen = .subject k n j true) hcomp h.comp
  have hidle' (g : Gen) := forall_setSlot (P := fun j s => (w.auth g = .publisher j ∨
    ∃ k n, w.auth g = .subject k n j false) → s.comp = .idle) (hidle g) (h.idle g)
  refine ⟨hthr', ?alone, hfut', hmem', hgone', hcomp', hidle'⟩
  -- a thread may be in a call on slot `i` and in none elsewhere
  intro j k t hj hk
  by_cases hji : j = i
  · by_cases hki : k = i
    · rw [hji, hki]
    · subst hji
      rw [hself] at hj
      rw [hother k hki, hlone t hj k hki] at hk
      cases hk
  · rw [hother j hji] at hj
    by_cases hki : k = i
    · subst hki
      rw [hself] at hk
      rw [hlone t hk j hji] at hj
      cases hj
    · rw [hother k hki] at hk
      exact h.alone j k t hj hk

/-! ## Handles go -/

/-- Nothing is made: handles, pins and pooled slots only go, and the table stays. -/
structure Shrinks (w w' : World K O W bits) : Prop where
  env : w'.env = w.env
  map : w'.map = w.map
  nextSlot : w'.nextSlot = w.nextSlot
  nextGen : w'.nextGen = w.nextGen
  nextObs : w'.nextObs = w.nextObs
  nextFut : w'.nextFut = w.nextFut
  pool : w'.pool.Sublist w.pool
  arcs : ∀ x i, w'.arcs.of x = some i → w.arcs.of x = some i
  pin : ∀ x p, w'.pin x = some p → w.pin x = some p
  subject : ∀ g k n i c, w'.auth g = .subject k n i c ↔ w.auth g = .subject k n i c
  publisher : ∀ g i, w'.auth g = .publisher i → w.auth g = .publisher i
  publishing : ∀ g i, w.auth g = .publishing i → (w.slots i).comp.resting = false →
    w'.auth g = .publishing i
  absentAuth : ∀ g, w.auth g = .absent → w'.auth g = .absent
  absentObs : ∀ o, w.obs o = .absent → w'.obs o = .absent
  absentFut : ∀ f, w.futs f = .absent → w'.futs f = .absent
  obs : ∀ i t o g, ((w.slots i).thr t).active = true → (w.slots i).via t = ⟨o, g⟩ →
    w.obs o = .live i g → w'.obs o = .live i g
  futs : ∀ i f g, (w.slots i).fpc f ≠ .dead → w.futs f = .live i g → w'.futs f = .live i g
  quieter : ∀ j, Quieter (w.slots j) (w'.slots j)
  slots : ∀ x j, w'.arcs.of x = some j → w'.slots j = w.slots j

theorem Shrinks.refl (w : World K O W bits) : w.Shrinks w where
  env := rfl
  map := rfl
  nextSlot := rfl
  nextGen := rfl
  nextObs := rfl
  nextFut := rfl
  pool := List.Sublist.refl _
  arcs _ _ := id
  pin _ _ := id
  subject _ _ _ _ _ := Iff.rfl
  publisher _ _ := id
  publishing _ _ h _ := h
  absentAuth _ := id
  absentObs _ := id
  absentFut _ := id
  obs _ _ _ _ _ _ := id
  futs _ _ _ _ := id
  quieter _ := Quieter.refl _
  slots _ _ _ := rfl

/-- A release behind steps that make nothing makes nothing. -/
theorem Shrinks.release (hs : w.Shrinks w') (x : Owner) (l : Bool) :
    w.Shrinks (w'.release x l) where
  env := hs.env
  map := hs.map
  nextSlot := hs.nextSlot
  nextGen := hs.nextGen
  nextObs := hs.nextObs
  nextFut := hs.nextFut
  pool := hs.pool
  arcs y i hy := by
    by_cases hyx : y = x
    · simp [hyx] at hy
    · exact hs.arcs y i (by rwa [release_arcs, Lib.Handles.of_release_of_ne _ hyx] at hy)
  pin := hs.pin
  subject := hs.subject
  publisher := hs.publisher
  publishing := hs.publishing
  absentAuth := hs.absentAuth
  absentObs := hs.absentObs
  absentFut := hs.absentFut
  obs := hs.obs
  futs := hs.futs
  quieter j := (hs.quieter j).trans (w'.release_quieter x l j)
  slots y j hy := by
    rcases w'.release_slots x l j with h | ⟨-, hnone, -⟩
    · rw [h]
      have hyx : y ≠ x := by
        rintro rfl
        simp at hy
      exact hs.slots y j (by rwa [release_arcs, Lib.Handles.of_release_of_ne _ hyx] at hy)
    · exact absurd hy (hnone y)

/-- The subject or publisher of `g` gives up its authority. -/
theorem Shrinks.setAuth {g : Gen} {a : Authority K bits} (hne : w.auth g ≠ .absent)
    (hns : ∀ k n i c, w.auth g ≠ .subject k n i c)
    (hpub : ∀ i, w.auth g = .publishing i → (w.slots i).comp.resting = true)
    (ha : a.current? = none) :
    w.Shrinks { w with auth := Function.update w.auth g a } :=
  { Shrinks.refl w with
    pin := fun x p hp => by
      cases x with
      | subject g' =>
        by_cases hg : g' = g
        · subst hg
          simp [World.pin, ha] at hp
        · simpa [World.pin, hg] using hp
      | _ => exact hp
    subject := fun g' k n i c => by
      by_cases hg : g' = g
      · subst hg
        simp only [Function.update_self]
        constructor
        · rintro rfl
          cases ha
        · exact fun h => absurd h (hns k n i c)
      · simp [hg]
    publisher := fun g' i h => by
      by_cases hg : g' = g
      · subst hg
        simp only [Function.update_self] at h
        rw [h] at ha
        cases ha
      · simpa [hg] using h
    publishing := fun g' i h hrest => by
      have hg : g' ≠ g := by
        rintro rfl
        rw [hpub i h] at hrest
        cases hrest
      simpa [hg] using h
    absentAuth := fun g' h => by
      have hg : g' ≠ g := by
        rintro rfl
        exact hne h
      simpa [hg] using h }

/-- An observation that no call has borrowed goes, or is about to. -/
theorem Shrinks.setObs {o : ObsId} {s : ObsState O} (hne : w.obs o ≠ .absent)
    (hb : w.Unborrowed o) (hst : ∀ p, s.at? = some p → (w.obs o).at? = some p) :
    w.Shrinks { w with obs := Function.update w.obs o s } :=
  { Shrinks.refl w with
    pin := fun x p hp => by
      cases x with
      | obs o' =>
        by_cases ho : o' = o
        · subst ho
          simp only [World.pin, Function.update_self] at hp ⊢
          exact hst p hp
        · simpa [World.pin, ho] using hp
      | _ => exact hp
    absentObs := fun o' h => by
      have ho : o' ≠ o := by
        rintro rfl
        exact hne h
      simpa [ho] using h
    obs := fun i t o' g hact hvia h => by
      have ho : o' ≠ o := by
        rintro rfl
        exact hb i t hact (by rw [hvia])
      simpa [ho] using h }

/-- A future goes once its drop is over. -/
theorem Shrinks.setFut {f : FutId} {i : SlotId} {g : Gen} (hf : w.futs f = .live i g)
    (hdead : (w.slots i).fpc f = .dead) :
    w.Shrinks { w with futs := Function.update w.futs f .gone } :=
  { Shrinks.refl w with
    pin := fun x p hp => by
      cases x with
      | fut f' =>
        by_cases hff : f' = f
        · subst hff
          simp [World.pin, FutState.at?] at hp
        · simpa [World.pin, hff] using hp
      | _ => exact hp
    absentFut := fun f' h => by
      have hff : f' ≠ f := by
        rintro rfl
        rw [hf] at h
        cases h
      simpa [hff] using h
    futs := fun i' f' g' hnd h => by
      have hff : f' ≠ f := by
        rintro rfl
        rw [hf] at h
        cases h
        exact hnd hdead
      simpa [hff] using h }

/-! ## Handles and pins only spread -/

/-- Every handle is on a slot that has had one, and every pin is at the generation of an older
one. -/
structure Spreads (w w' : World K O W bits) : Prop where
  nextSlot : w'.nextSlot = w.nextSlot
  pool : w'.pool.Sublist w.pool
  arcs : ∀ x i, w'.arcs.of x = some i → ∃ y, w.arcs.of y = some i
  pin : ∀ x i g, w'.pin x = some (i, g) → ∃ y, w.pin y = some (i, g)
  gen : ∀ i, (w'.slots i).gen = (w.slots i).gen

/-- The pool stays apart from what is pinned. -/
theorem Pooled.spreads (h : w.Pooled) (hs : w.Spreads w') : w'.Pooled where
  nodup := h.nodup.sublist hs.pool
  length := hs.pool.length_le.trans h.length
  free i hi x g hp := by
    obtain ⟨y, hy⟩ := hs.pin x i g hp
    exact h.free i (hs.pool.mem hi) y g hy

/-- What is left to show of a step that only spreads handles and pins. -/
theorem Inv.spreads [WillWake W] (h : w.Inv) (hs : w.Spreads w')
    (hheld : ∀ x, w'.arcs.of x = w'.handle x) (hmapped : w'.Mapped) (hborrowed : w'.Borrowed)
    (hgen : w'.nextGen = w.nextGen) (hauth : ∀ g, w.auth g = .absent → w'.auth g = .absent)
    (hobs : ∀ o, w'.nextObs ≤ o → w'.obs o = .absent)
    (hfut : ∀ f, w'.nextFut ≤ f → w'.futs f = .absent)
    (hfuts : ∀ i, ∀ f ∈ (w'.slots i).futs, f < w'.nextFut)
    (hsafe : ∀ i, (w.slots i).Safe w.env → (∃ x, w'.arcs.of x = some i) →
      (w'.slots i).Safe w'.env) : w'.Inv where
  held := hheld
  pinned x i g hp := by
    obtain ⟨y, hy⟩ := hs.pin x i g hp
    rw [hs.gen]
    exact h.pinned y i g hy
  pooled := h.pooled.spreads hs
  mapped := hmapped
  borrowed := hborrowed
  unused :=
    { auth := fun g hg => hauth g (h.unused.auth g (hgen ▸ hg))
      obs := hobs
      fut := hfut
      futs := hfuts
      gen := fun i => by
        rw [hs.gen, hgen]
        exact h.unused.gen i
      slot := fun i hi x hx => by
        obtain ⟨y, hy⟩ := hs.arcs x i hx
        exact h.unused.slot i (hs.nextSlot ▸ hi) y hy }
  safe x i hx := by
    obtain ⟨y, hy⟩ := hs.arcs x i hx
    exact hsafe i (h.safe y i hy) ⟨x, hx⟩

theorem Shrinks.spreads (hs : w.Shrinks w') : w.Spreads w' where
  nextSlot := hs.nextSlot
  pool := hs.pool
  arcs x i hx := ⟨x, hs.arcs x i hx⟩
  pin x i g hp := ⟨x, hs.pin x (i, g) hp⟩
  gen i := (hs.quieter i).gen

/-- Where nothing is made the table stays the map of the subjects. -/
theorem Shrinks.mapped (hs : w.Shrinks w') (h : w.Mapped) : w'.Mapped where
  ok := by
    rw [hs.map]
    exact h.ok
  find k e he := by
    rw [hs.map] at he
    obtain ⟨k', c, hk, ha⟩ := h.find k e he
    exact ⟨k', c, hk, (hs.subject _ _ _ _ _).mpr ha⟩
  entry g k n i c ha := by
    rw [hs.map]
    exact h.entry g k n i c ((hs.subject _ _ _ _ _).mp ha)

/-- Where nothing is made calls keep what they borrow. -/
theorem Shrinks.borrowed (hs : w.Shrinks w') (h : w.Borrowed) : w'.Borrowed := by
  refine h.mono hs.quieter hs.obs hs.futs (fun i f g hf => ?_) (fun i hi => ?_) fun g i hg => ?_
  · -- a future that still has its handle has had it before
    have hold : (w.futs f).at? = some (i, g) :=
      hs.pin (.fut f) (i, g) (by simp [World.pin, hf, FutState.at?])
    cases hst : w.futs f <;> rw [hst] at hold <;> cases hold
    rfl
  · rcases h.comp i hi with ha | ⟨k, n, ha⟩
    · rw [ha, hs.publishing _ _ ha hi]
    · rw [ha, (hs.subject _ _ _ _ _).mpr ha]
  · exact .inl (hg.imp (hs.publisher g i)
      fun ⟨k, n, ha⟩ => ⟨k, n, (hs.subject _ _ _ _ _).mp ha⟩)

/-- Steps that make nothing keep the invariant. -/
theorem Inv.shrinks [WillWake W] (h : w.Inv) (hs : w.Shrinks w')
    (hheld : ∀ x, w'.arcs.of x = w'.handle x) : w'.Inv := by
  refine h.spreads hs.spreads hheld (hs.mapped h.mapped) (hs.borrowed h.borrowed) hs.nextGen
    hs.absentAuth ?obs ?fut ?futs ?safe
  case obs =>
    intro o ho
    exact hs.absentObs o (h.unused.obs o (hs.nextObs ▸ ho))
  case fut =>
    intro f hf
    exact hs.absentFut f (h.unused.fut f (hs.nextFut ▸ hf))
  case futs =>
    intro i f hf
    rw [hs.nextFut]
    exact h.unused.futs i f ((hs.quieter i).futs ▸ hf)
  case safe =>
    rintro i hsafe ⟨x, hx⟩
    rw [hs.env, hs.slots x i hx]
    exact hsafe

end World

end Observe
