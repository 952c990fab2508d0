import Observe.Sequential.Runs
import Observe.Sequential.Model

/-!
# The program refines the ledger

A slot serves one generation after another, and the relation ties it to the one that its pins name:
what that generation has published is what the ledger has for it.  Handles of retired generations
keep their slots, so nothing they see changes when keys and pooled slots go to others.
-/

namespace Observe

def Authority.key? {K : Type} {bits : Nat} : Authority K bits → Option K
  | .subject k _ _ _ => some k
  | _ => none

def Op.obs? {K O W : Type} : Op K O W → Option ObsId
  | .cloneObs o | .tryGet o | .registerWaker o _ | .intoFuture o | .intoOutcome o | .dropObs o =>
    some o
  | _ => none

def Op.fut? {K O W : Type} : Op K O W → Option FutId
  | .poll f _ | .dropFuture f => some f
  | _ => none

/-! ## What the calls on a slot return -/

namespace SlotSys

variable {O W : Type} {s : SlotSys O W} {g : Gen} {r : Option O}

theorem callTryGet_snd (h : s.Shows g r) (t : Tid) (hd : Handle) : (s.callTryGet t hd).2 = r := by
  cases r with
  | none =>
    have hc : s.slot.state.completed = false := h
    simp [callTryGet, startCall, hc]
  | some v =>
    obtain ⟨hc, hv⟩ := h
    simp [callTryGet, startCall, hc, hv]

variable [WillWake W]

theorem callRegisterWaker_snd (h : s.Shows g r) (t : Tid) (hd : Handle) (w : W) :
    (s.callRegisterWaker t hd w).2 = r.isSome := by
  cases r with
  | none =>
    have hc : s.slot.state.completed = false := h
    simp [callRegisterWaker, startCall, hc]
  | some v =>
    have hc : s.slot.state.completed = true := h.1
    simp [callRegisterWaker, startCall, hc]

/-- A poll answers as the generation has, unless the count of the waker's owners overflows. -/
theorem callPoll_snd (h : s.Shows g r) {f : FutId} {w : W}
    (hfit : r = none → known (s.fut f).wakers w = false →
      s.slot.registry.registerFutureWaker w (s.fut f).gen ≠ none) :
    (s.callPoll f w).2 = r.elim .pending .ready := by
  cases r with
  | some v =>
    obtain ⟨hc, hv⟩ := h
    simp [callPoll, hc, hv]
  | none =>
    have hc : s.slot.state.completed = false := h
    cases hk : known (s.fut f).wakers w with
    | true => simp [callPoll, hc, hk]
    | false =>
      obtain ⟨ws, hws⟩ := Option.ne_none_iff_exists'.mp (hfit rfl hk)
      simp only [Slot.registry] at hws
      simp [callPoll, hc, hk, Slot.registry, hws]

end SlotSys

variable {K O W : Type} [Key K] {bits : Nat}

namespace World

variable {w w' : World K O W bits}

/-! ## Publications that stay -/

theorem release_published (x : Owner) (l : Bool) (j : SlotId) :
    ((w.release x l).slots j).published = (w.slots j).published := by
  rcases w.release_slots x l j with h | ⟨-, -, h⟩
  · rw [h]
  · rw [h]
    rfl

theorem setSlot_published {i : SlotId} {s : SlotSys O W}
    (hs : s.published = (w.slots i).published) (j : SlotId) :
    ((w.setSlot i s).slots j).published = (w.slots j).published := by
  by_cases hj : j = i
  · subst hj
    simpa [World.setSlot] using hs
  · simp [World.setSlot, hj]

/-! ## The relation -/

/-- The ledger is what the program's records say. -/
structure Models (w : World K O W bits) (l : Ledger K O) : Prop where
  key : ∀ g, l.key g = (w.auth g).key?
  obs : ∀ o, l.obs o = (w.obs o).at?.map Prod.snd
  futs : ∀ f, l.futs f = (w.futs f).at?.map Prod.snd
  completed : ∀ g k n i c, w.auth g = .subject k n i c → c = (l.outcome g).isSome
  /-- A slot that is pinned at a generation has published what that generation has. -/
  outcome : ∀ x i g, w.pin x = some (i, g) → l.outcome g = (w.slots i).published g
  /-- Whoever is pinned at one generation has the same slot. -/
  oneSlot : ∀ x y i j g, w.pin x = some (i, g) → w.pin y = some (j, g) → i = j
  pending : ∀ g, w.nextGen ≤ g → l.outcome g = none
  nextGeneration : w.nextGeneration = BitVec.ofNat bits w.nextGen
  nextGen : l.nextGen = w.nextGen
  nextObs : l.nextObs = w.nextObs
  nextFut : l.nextFut = w.nextFut

namespace Models

variable {l l' : Ledger K O}

theorem new (e : Env) : (World.new e : World K O W bits).Models Ledger.new where
  key _ := rfl
  obs _ := rfl
  futs _ := rfl
  completed := nofun
  outcome x i g hp := by cases x <;> cases hp
  oneSlot x y i j g hp := by cases x <;> cases hp
  pending _ _ := rfl
  nextGeneration := rfl
  nextGen := rfl
  nextObs := rfl
  nextFut := rfl

/-- The records change, and every pin was one before. -/
theorem keep (hm : w.Models l) (hkey : ∀ g, l'.key g = (w'.auth g).key?)
    (hobs : ∀ o, l'.obs o = (w'.obs o).at?.map Prod.snd)
    (hfuts : ∀ f, l'.futs f = (w'.futs f).at?.map Prod.snd)
    (hsub : ∀ g k n i c, w'.auth g = .subject k n i c → w.auth g = .subject k n i c)
    (hpin : ∀ x p, w'.pin x = some p → ∃ y, w.pin y = some p)
    (hpub : ∀ i, (w'.slots i).published = (w.slots i).published)
    (hout : l'.outcome = l.outcome) (hgeneration : w'.nextGeneration = w.nextGeneration)
    (hgen : w'.nextGen = w.nextGen) (hlgen : l'.nextGen = l.nextGen)
    (hlobs : l'.nextObs = w'.nextObs) (hlfut : l'.nextFut = w'.nextFut) : w'.Models l' where
  key := hkey
  obs := hobs
  futs := hfuts
  completed g k n i c ha := by
    rw [hout]
    exact hm.completed g k n i c (hsub g k n i c ha)
  outcome x i g hp := by
    obtain ⟨y, hy⟩ := hpin x _ hp
    rw [hout, hpub]
    exact hm.outcome y i g hy
  oneSlot x y i j g hx hy := by
    obtain ⟨x', hx'⟩ := hpin x _ hx
    obtain ⟨y', hy'⟩ := hpin y _ hy
    exact hm.oneSlot x' y' i j g hx' hy'
  pending g hg := by
    rw [hout]
    exact hm.pending g (hgen ▸ hg)
  nextGeneration := by rw [hgeneration, hgen, hm.nextGeneration]
  nextGen := by rw [hlgen, hgen, hm.nextGen]
  nextObs := hlobs
  nextFut := hlfut

/-- A call on one slot that publishes nothing and leaves every record as it is. -/
theorem setSlot (hm : w.Models l) {i : SlotId} {s : SlotSys O W}
    (hs : s.published = (w.slots i).published) : (w.setSlot i s).Models l :=
  hm.keep hm.key hm.obs hm.futs (fun _ _ _ _ _ ha => ha) (fun x _ hp => ⟨x, hp⟩)
    (setSlot_published hs) rfl rfl rfl rfl hm.nextObs hm.nextFut

theorem release (hm : w.Models l) (x : Owner) (b : Bool) : (w.release x b).Models l :=
  hm.keep hm.key hm.obs hm.futs (fun _ _ _ _ _ ha => ha) (fun y _ hp => ⟨y, hp⟩)
    (release_published x b) rfl rfl rfl rfl hm.nextObs hm.nextFut

theorem newObs (hm : w.Models l) {y : Owner} {i : SlotId} {g : Gen}
    (hp : w.pin y = some (i, g)) : (w.newObs i g).Models (l.capture g) := by
  refine hm.keep hm.key (fun o => ?_) hm.futs (fun _ _ _ _ _ ha => ha) (fun x p hx => ?_)
    (fun _ => rfl) rfl rfl rfl rfl ?_ hm.nextFut
  · by_cases ho : o = w.nextObs
    · simp [Ledger.capture, World.newObs, hm.nextObs, ho, ObsState.at?]
    · simpa [Ledger.capture, World.newObs, hm.nextObs, ho] using hm.obs o
  · rw [newObs_pin] at hx
    split at hx
    · exact ⟨y, hp.trans hx⟩
    · exact ⟨x, hx⟩
  · show l.nextObs + 1 = w.nextObs + 1
    rw [hm.nextObs]

/-- An observation goes. -/
theorem dropObs (hm : w.Models l) (o : ObsId) (g : Gen) (a : Option (Option O)) :
    ({ w with obs := Function.update w.obs o (.gone g a) } : World K O W bits).Models
      { l with obs := Function.update l.obs o none } := by
  refine hm.keep hm.key (fun o' => ?_) hm.futs (fun _ _ _ _ _ ha => ha) (fun x p hx => ?_)
    (fun _ => rfl) rfl rfl rfl rfl hm.nextObs hm.nextFut
  · by_cases ho : o' = o
    · simp [ho, ObsState.at?]
    · simpa [ho] using hm.obs o'
  · cases x with
    | obs o' =>
      by_cases ho : o' = o
      · simp [World.pin, ho, ObsState.at?] at hx
      · exact ⟨.obs o', by simpa [World.pin, ho] using hx⟩
    | subject g' => exact ⟨.subject g', hx⟩
    | fut f => exact ⟨.fut f, hx⟩
    | table g' => cases hx
    | pool j => cases hx

/-- A future goes. -/
theorem dropFut (hm : w.Models l) (f : FutId) :
    ({ w with futs := Function.update w.futs f .gone } : World K O W bits).Models
      { l with futs := Function.update l.futs f none } := by
  refine hm.keep hm.key hm.obs (fun f' => ?_) (fun _ _ _ _ _ ha => ha) (fun x p hx => ?_)
    (fun _ => rfl) rfl rfl rfl rfl hm.nextObs hm.nextFut
  · by_cases hf : f' = f
    · simp [hf, FutState.at?]
    · simpa [hf] using hm.futs f'
  · cases x with
    | fut f' =>
      by_cases hf : f' = f
      · simp [World.pin, hf, FutState.at?] at hx
      · exact ⟨.fut f', by simpa [World.pin, hf] using hx⟩
    | subject g' => exact ⟨.subject g', hx⟩
    | obs o => exact ⟨.obs o, hx⟩
    | table g' => cases hx
    | pool j => cases hx

/-- The handle of an observation goes on as a future's. -/
theorem intoFuture (hm : w.Models l) {o : ObsId} {i : SlotId} {g : Gen}
    (ho : w.obs o = .live i g) : (w.intoFuture o i g).Models
      { l with
        obs := Function.update l.obs o none
        futs := Function.update l.futs l.nextFut (some g)
        nextFut := l.nextFut + 1 } := by
  have hlive := pin_obs ho
  refine hm.keep (fun g' => hm.key g') (fun o' => ?_) (fun f => ?_) (fun _ _ _ _ _ ha => ha)
    (fun x p hx => ?_) (setSlot_published rfl) rfl rfl rfl rfl hm.nextObs ?_
  · by_cases hoo : o' = o
    · simp [World.intoFuture, hoo, ObsState.at?]
    · simpa [World.intoFuture, hoo] using hm.obs o'
  · by_cases hf : f = w.nextFut
    · simp [World.intoFuture, hm.nextFut, hf, FutState.at?]
    · simpa [World.intoFuture, hm.nextFut, hf] using hm.futs f
  · rw [intoFuture_pin] at hx
    split at hx
    · -- the future is pinned where the observation was
      exact ⟨.obs o, hlive.trans hx⟩
    · split at hx
      · cases hx
      · exact ⟨x, hx⟩
  · show l.nextFut + 1 = w.nextFut + 1
    rw [hm.nextFut]

/-- The exclusive take of `into_outcome`. -/
theorem unwrapSlot (hm : w.Models l) (o : ObsId) (i : SlotId) (g : Gen) :
    (w.unwrapSlot o i g).Models { l with obs := Function.update l.obs o none } := by
  have hdrop := hm.dropObs o g (some (w.unwrapped i))
  refine hdrop.keep (fun g => hdrop.key g) (fun o' => hdrop.obs o') (fun f => hdrop.futs f)
    (fun _ _ _ _ _ ha => ha) (fun x _ hx => ⟨x, hx⟩) (fun j => ?_) rfl rfl rfl rfl hdrop.nextObs
    hdrop.nextFut
  refine setSlot_published (i := i) ?_ j
  unfold World.takenSlot
  split <;> rfl

/-- The subject of generation `g` goes, with its entry in the table. -/
theorem retire (hm : w.Models l) {g : Gen} {i : SlotId} (hr : w.Unlisted g i w') :
    ({ w' with auth := Function.update w'.auth g .gone } : World K O W bits).Models
      (l.retire g) := by
  have hauth (g' : Gen) : Function.update w'.auth g .gone g' =
      if g' = g then .gone else w.auth g' := by
    rw [hr.auth, Function.update_idem]
    exact Function.update_apply _ _ _ _
  refine hm.keep ?key ?obs ?futs ?sub ?pin (fun j => by rw [hr.slots]) rfl hr.nextGeneration
    hr.nextGen rfl (hm.nextObs.trans hr.nextObs.symm) (hm.nextFut.trans hr.nextFut.symm)
  case key =>
    intro g'
    show Function.update l.key g none g' = (Function.update w'.auth g .gone g').key?
    rw [hauth]
    by_cases hg : g' = g
    · simp [hg, Authority.key?]
    · simpa [hg] using hm.key g'
  case obs =>
    intro o
    show l.obs o = (w'.obs o).at?.map Prod.snd
    rw [hr.obs]
    exact hm.obs o
  case futs =>
    intro f
    show l.futs f = (w'.futs f).at?.map Prod.snd
    rw [hr.futs]
    exact hm.futs f
  case sub =>
    intro g' k' n' i' c' ha
    have ha' : Function.update w'.auth g .gone g' = .subject k' n' i' c' := ha
    rw [hauth] at ha'
    split at ha'
    · cases ha'
    · exact ha'
  case pin =>
    intro x p hx
    cases x with
    | subject g' =>
      have hx' : (Function.update w'.auth g .gone g').current?.map (·, g') = some p := hx
      rw [hauth] at hx'
      split at hx'
      · cases hx'
      · exact ⟨.subject g', hx'⟩
    | obs o =>
      have hx' : (w'.obs o).at? = some p := hx
      exact ⟨.obs o, by rwa [hr.obs] at hx'⟩
    | fut f =>
      have hx' : (w'.futs f).at? = some p := hx
      exact ⟨.fut f, by rwa [hr.futs] at hx'⟩
    | table g' => cases hx
    | pool j => cases hx

/-- The subject of generation `g` publishes. -/
theorem complete [WillWake W] (hm : w.Models l) (h : w.Inv) {g : Gen} {k : K} {n : BitVec bits}
    {i : SlotId} {v : O} {e' : Env} {s' : SlotSys O W} (ha : w.auth g = .subject k n i false)
    (hs : s'.published = Function.update (w.slots i).published g (some v)) :
    ({ w with
      env := e'
      auth := Function.update w.auth g (.subject k n i true)
      slots := Function.update w.slots i s' } : World K O W bits).Models
      { l with outcome := Function.update l.outcome g (some v) } := by
  have hlive : w.pin (.subject g) = some (i, g) := by simp [World.pin, ha, Authority.current?]
  have hpin (x : Owner) : ({ w with
      env := e'
      auth := Function.update w.auth g (.subject k n i true)
      slots := Function.update w.slots i s' } : World K O W bits).pin x = w.pin x := by
    have hc : (w.auth g).Completes (.subject k n i true) := ha ▸ .subject
    refine Eq.trans ?_ (pin_setCompleted hc x)
    cases x <;> rfl
  refine ⟨?key, hm.obs, hm.futs, ?completed, ?outcome, ?oneSlot, ?pending, hm.nextGeneration,
    hm.nextGen, hm.nextObs, hm.nextFut⟩
  case key =>
    intro g'
    by_cases hg : g' = g
    · subst hg
      simp [hm.key, ha, Authority.key?]
    · simpa [hg] using hm.key g'
  case completed =>
    intro g' k' n' i' c' ha'
    by_cases hg : g' = g
    · subst hg
      have hnew : Authority.subject k n i true = .subject k' n' i' c' := by simpa using ha'
      cases hnew
      simp
    · simpa [hg] using hm.completed g' k' n' i' c' (by simpa [hg] using ha')
  case outcome =>
    intro x j g' hx
    rw [hpin] at hx
    by_cases hg : g' = g
    · -- the slot of `g` is the one that the subject publishes in
      subst hg
      have hj : j = i := hm.oneSlot _ _ j i g' hx hlive
      subst hj
      simp [hs]
    · have hold := hm.outcome x j g' hx
      by_cases hj : j = i
      · subst hj
        simpa [hs, hg] using hold
      · simpa [hg, hj] using hold
  case oneSlot =>
    intro x y j j' g' hx hy
    rw [hpin] at hx hy
    exact hm.oneSlot x y j j' g' hx hy
  case pending =>
    intro g' hg
    have hne : g' ≠ g := by
      rintro rfl
      rw [h.unused.auth g' hg] at ha
      cases ha
    simpa [hne] using hm.pending g' hg

/-- The key is given to a new generation, on a slot that nobody is pinned to. -/
theorem register [WillWake W] (hm : w.Models l) (h : w.Inv) (hh : w.History) {key : K}
    {n : BitVec bits} {i : SlotId} (hv : l.live key = none)
    (hauth : w'.auth = Function.update w.auth w.nextGen (.subject key n i false))
    (hobs : w'.obs = w.obs) (hfuts : w'.futs = w.futs)
    (hpub : ∀ j, (w'.slots j).published = (w.slots j).published)
    (hgeneration : w'.nextGeneration = w.nextGeneration + 1) (hgen : w'.nextGen = w.nextGen + 1)
    (hnextObs : w'.nextObs = w.nextObs) (hnextFut : w'.nextFut = w.nextFut) :
    w'.Models (l.register key hv) := by
  have hlt {x : Owner} {j : SlotId} {g : Gen} (hx : w.pin x = some (j, g)) : g < w.nextGen := by
    rw [← h.pinned x j g hx]
    exact h.unused.gen j
  have hpin {x : Owner} {j : SlotId} {g : Gen} (hx : w'.pin x = some (j, g)) :
      w.pin x = some (j, g) ∨ g = w.nextGen ∧ j = i := by
    cases x with
    | subject g' =>
      by_cases hg : g' = w.nextGen
      · subst hg
        have hnew : some (i, w.nextGen) = some (j, g) := by
          simpa [World.pin, hauth, Authority.current?] using hx
        cases hnew
        exact .inr ⟨rfl, rfl⟩
      · exact .inl (by simpa [World.pin, hauth, hg] using hx)
    | obs o => exact .inl (by simpa [World.pin, hobs] using hx)
    | fut f => exact .inl (by simpa [World.pin, hfuts] using hx)
    | table g' => cases hx
    | pool j' => cases hx
  have hnone : l.outcome w.nextGen = none := hm.pending w.nextGen le_rfl
  refine
    { key := ?key
      obs := fun o => by rw [hobs]; exact hm.obs o
      futs := fun f => by rw [hfuts]; exact hm.futs f
      completed := ?completed
      outcome := ?outcome
      oneSlot := ?oneSlot
      pending := ?pending
      nextGeneration := ?nextGeneration
      nextGen := ?nextGen
      nextObs := hm.nextObs.trans hnextObs.symm
      nextFut := hm.nextFut.trans hnextFut.symm }
  case key =>
    intro g
    show Function.update l.key l.nextGen (some key) g = (w'.auth g).key?
    rw [hauth, hm.nextGen]
    by_cases hg : g = w.nextGen
    · simp [hg, Authority.key?]
    · simpa [hg] using hm.key g
  case completed =>
    intro g k' n' i' c' ha
    show c' = (l.outcome g).isSome
    rw [hauth] at ha
    by_cases hg : g = w.nextGen
    · subst hg
      rw [Function.update_self] at ha
      cases ha
      rw [hnone]
      rfl
    · rw [Function.update_of_ne hg] at ha
      exact hm.completed g k' n' i' c' ha
  case outcome =>
    intro x j g hx
    show l.outcome g = (w'.slots j).published g
    rw [hpub]
    rcases hpin hx with hold | ⟨rfl, rfl⟩
    · exact hm.outcome x j g hold
    · -- nothing has been published for a generation that is not made yet
      rw [hnone]
      by_contra hsome
      have hpast := (hh.past j).past w.nextGen (Ne.symm hsome)
      exact absurd hpast (not_le.mpr (h.unused.gen j))
  case oneSlot =>
    intro x y j j' g hx hy
    rcases hpin hx with hold | ⟨rfl, rfl⟩
    · rcases hpin hy with hold' | ⟨rfl, rfl⟩
      · exact hm.oneSlot x y j j' g hold hold'
      · exact absurd (hlt hold) (Nat.lt_irrefl _)
    · rcases hpin hy with hold' | ⟨-, rfl⟩
      · exact absurd (hlt hold') (Nat.lt_irrefl _)
      · rfl
  case pending =>
    intro g hg
    rw [hgen] at hg
    exact hm.pending g ((Nat.le_succ _).trans hg)
  case nextGeneration =>
    rw [hgeneration, hgen, hm.nextGeneration, BitVec.ofNat_add]
    rfl
  case nextGen =>
    show l.nextGen + 1 = w'.nextGen
    rw [hgen, hm.nextGen]

end Models

variable [WillWake W] {l : Ledger K O}

/-! ## Handles that are left -/

omit [WillWake W] in
theorem Models.obs_eq_some (hm : w.Models l) (hq : w.Quiet) {o : ObsId} {g : Gen}
    (ho : l.obs o = some g) : ∃ i, w.obs o = .live i g := by
  rw [hm.obs] at ho
  cases hst : w.obs o with
  | live i g' =>
    rw [hst] at ho
    cases ho
    exact ⟨i, rfl⟩
  | refused i g' => exact absurd hst (hq.obs o i g')
  | absent | gone => rw [hst] at ho; cases ho

omit [WillWake W] in
theorem Models.futs_eq_some (hm : w.Models l) {f : FutId} {g : Gen} (hf : l.futs f = some g) :
    ∃ i, w.futs f = .live i g := by
  rw [hm.futs] at hf
  cases hst : w.futs f with
  | live i g' =>
    rw [hst] at hf
    cases hf
    exact ⟨i, rfl⟩
  | absent | gone => rw [hst] at hf; cases hf

omit [WillWake W] in
theorem Models.key_eq_some (hm : w.Models l) {g : Gen} {k : K} (hk : l.key g = some k) :
    ∃ n i c, w.auth g = .subject k n i c := by
  rw [hm.key] at hk
  cases ha : w.auth g with
  | subject k' n i c =>
    rw [ha] at hk
    cases hk
    exact ⟨n, i, c, rfl⟩
  | _ => rw [ha] at hk; cases hk

/-- The table finds the live generation of a key. -/
theorem Models.live (hm : w.Models l) (h : w.Inv) (k : K) :
    l.live k = (w.map.get k).map SlotEntry.gen := by
  cases he : w.map.get k with
  | some e =>
    obtain ⟨k', c, hk, ha⟩ := h.mapped.find k e he
    exact (l.live_eq_some_iff k e.gen).mpr ⟨k', by rw [hm.key, ha]; rfl, hk⟩
  | none =>
    refine (l.live_eq_none_iff k).mpr fun g k' hg => ?_
    obtain ⟨n, i, c, ha⟩ := hm.key_eq_some hg
    by_contra hk
    have hentry := h.mapped.entry g k' n i c ha
    rw [w.map.get_congr (by simpa using hk), he] at hentry
    cases hentry

/-- The count of a slot is one exactly when the ledger has nothing else of its generation. -/
theorem Models.count_eq_one_iff (hm : w.Models l) (h : w.Inv) (hq : w.Quiet) {o : ObsId}
    {i : SlotId} {g : Gen} (ho : w.obs o = .live i g) : w.arcs.count i = 1 ↔ l.Sole o g := by
  have hp := pin_obs ho
  have hx : w.arcs.of (.obs o) = some i := by
    rw [h.held]
    exact handle_of_pin hp
  rw [Lib.Handles.count_eq_one_iff _ hx]
  constructor
  · intro hall
    -- another record of `g` would be another handle of the same slot
    have hsame {y : Owner} {j : SlotId} (hy : w.pin y = some (j, g)) : y = .obs o := by
      have hj : j = i := hm.oneSlot y (.obs o) j i g hy hp
      subst hj
      apply hall
      rw [h.held]
      exact handle_of_pin hy
    refine ⟨?_, fun o' _ ho' => ?_, fun f _ hf => ?_⟩
    · by_contra hsome
      obtain ⟨k, hk⟩ := Option.ne_none_iff_exists'.mp hsome
      obtain ⟨n, j, c, ha⟩ := hm.key_eq_some hk
      have hy : w.pin (.subject g) = some (j, g) := by simp [pin, ha, Authority.current?]
      cases hsame hy
    · obtain ⟨j, hlive⟩ := hm.obs_eq_some hq ho'
      cases hsame (pin_obs hlive)
      rfl
    · obtain ⟨j, hlive⟩ := hm.futs_eq_some hf
      cases hsame (pin_fut hlive)
  · intro hsole y hy
    by_contra hne
    have hnokey {g' : Gen} {k : K} {n : BitVec bits} {c : Bool} (ha : w.auth g' = .subject k n i c)
        (hg : g' = g) : False := by
      have hkey := hsole.1
      rw [hm.key, ← hg, ha] at hkey
      cases hkey
    have honly : w.SoleObserver o g := by
      refine ⟨fun o' j ho' => ?_, fun f j hf => ?_⟩
      · refine hsole.2.1 o' ?_ (by rw [hm.obs, ho']; rfl)
        by_contra hge
        rw [h.unused.obs o' (hm.nextObs ▸ not_lt.mp hge)] at ho'
        cases ho'
      · refine hsole.2.2 f ?_ (by rw [hm.futs, hf]; rfl)
        by_contra hge
        rw [h.unused.fut f (hm.nextFut ▸ not_lt.mp hge)] at hf
        cases hf
    rcases h.other_holder ho honly hy hne with ⟨g', -, ht, hg⟩ | ⟨g', -, hs, hg⟩
    · cases ha : w.auth g' <;> rw [ha] at ht <;> cases ht
      exact hnokey ha hg
    · have hset := hq.auth g'
      cases ha : w.auth g' <;> rw [ha] at hs hset hg <;> cases hs <;> cases hset
      rcases hg with hg | hg | hg
      · exact hnokey ha hg
      · cases hg
      · cases hg

omit [WillWake W] in
theorem unwrapped_eq {i : SlotId} {g : Gen} {r : Option O} (h : (w.slots i).Shows g r) :
    w.unwrapped i = r := by
  cases r with
  | none =>
    have hc : (w.slots i).slot.state.completed = false := h
    simp [unwrapped, hc]
  | some v =>
    obtain ⟨hc, hv⟩ := h
    simp [unwrapped, hc, hv]

/-! ## The count of a waker's owners -/

/-- A future that is about to register a task is not yet an owner of it. -/
theorem Models.owners_lt (hm : w.Models l) (h : w.Inv) (hq : w.Quiet) {f : FutId} {i : SlotId}
    {g : Gen} (hf : w.futs f = .live i g) (hc : (w.slots i).slot.state.completed = false) {wk : W}
    (hk : known ((w.slots i).fut f).wakers wk = false) :
    (w.slots i).owners wk < (l.futures g).card := by
  have hs := h.safe_of_pin (pin_fut hf)
  have hmem {f' : FutId} {g' : Gen} (hlive : w.futs f' = .live i g') : f' ∈ l.futures g := by
    have hgen : g' = g := by
      rw [← h.pinned _ _ _ (pin_fut hlive), h.pinned _ _ _ (pin_fut hf)]
    refine Finset.mem_filter.mpr ⟨Finset.mem_range.mpr ?_, ?_⟩
    · by_contra hge
      rw [h.unused.fut f' (hm.nextFut ▸ not_lt.mp hge)] at hlive
      cases hlive
    · rw [hm.futs, hlive, hgen]
      rfl
  rw [← hs.liveOwners_eq hc]
  apply Finset.card_lt_card
  refine ⟨fun f' hf' => ?_, fun hsub => ?_⟩
  · obtain ⟨hfuts, -, hnot⟩ := Finset.mem_filter.mp hf'
    rcases h.borrowed.gone i f' hfuts with hdead | ⟨g', hlive⟩
    · rw [(hs.records.ok f' hfuts).cancelled, hdead] at hnot
      cases hnot
    · exact hmem hlive
  · obtain ⟨hfuts, hst, -⟩ := Finset.mem_filter.mp (hsub (hmem hf))
    rcases (hs.records.ok f hfuts).kept hc wk hst with hrec | ⟨a, ha, -⟩
    · rw [hk] at hrec
      cases hrec
    · rw [FutPc.unrecorded_of_resting (hq.fut f i g hf)] at ha
      cases ha

/-- While the futures fit into a `usize`, the count of owners does too. -/
theorem Models.registerFutureWaker_ne_none (hm : w.Models l) (h : w.Inv) (hq : w.Quiet)
    (hfit : l.Fits bits) {f : FutId} {i : SlotId} {g : Gen}
    (hf : w.futs f = .live i g) (hc : (w.slots i).slot.state.completed = false) {wk : W}
    (hk : known ((w.slots i).fut f).wakers wk = false) (g' : Gen) :
    (w.slots i).slot.registry.registerFutureWaker wk g' ≠ none := by
  intro hnone
  have hs := h.safe_of_pin (pin_fut hf)
  obtain ⟨p, hentry⟩ := Registry.entry_of_overflow hnone
  rw [hs.accounts.entry (hs.wf.not_taken_of_pending hc)] at hentry
  have hmax := (account_eq_some hentry).2
  have hlt := hm.owners_lt h hq hf hc hk
  have hused : g < l.nextGen := by
    rw [hm.nextGen, ← h.pinned _ _ _ (pin_fut hf)]
    exact h.unused.gen i
  have hle := hfit.futures g hused
  omega

/-! ## One call -/

omit [WillWake W] in
structure Agree [WillWake W] (w : World K O W bits) (l : Ledger K O) (op : Op K O W) : Prop where
  models : (w.exec op).1.Models (l.exec op).1
  result : (w.exec op).2 = (l.exec op).2

namespace Models

theorem agree_subject (hm : w.Models l) (h : w.Sound) (key : K)
    (hfit : (l.exec (.subject key : Op K O W)).1.Fits bits) : w.Agree l (.subject key) := by
  have hlive := hm.live h.inv key
  by_cases hv : l.live key = none
  · have hvac : w.map.isVacant key = true := by
      rw [w.map.isVacant_iff]
      rw [hv] at hlive
      exact Option.map_eq_none_iff.mp hlive.symm
    have hne : w.nextGeneration ≠ BitVec.allOnes bits := by
      intro hmax
      have hbound : l.nextGen + 1 < 2 ^ bits := by
        simpa [Ledger.exec, hv, Ledger.register] using hfit.generations
      have htoNat := congrArg BitVec.toNat (hm.nextGeneration.symm.trans hmax)
      rw [hm.nextGen] at hbound
      rw [BitVec.toNat_ofNat, BitVec.toNat_allOnes, Nat.mod_eq_of_lt (Nat.lt_of_succ_lt hbound)]
        at htoNat
      exact absurd htoNat (Nat.ne_of_lt (Nat.lt_sub_of_add_lt hbound))
    have hsubject : (w.subject key).1.Models (l.register key hv) ∧
        (w.subject key).2 = .ok w.nextGen := by
      have hh := h.history
      have hcases := w.subject_cases key
      generalize w.subject key = r at hcases ⊢
      cases hcases with
      | conflict hconf =>
        rw [hvac] at hconf
        cases hconf
      | exhausted _ hmax => exact absurd hmax hne
      | @recycled i rest _ _ _ =>
        -- the slot on top of the pool, whose generations keep what they have published
        refine ⟨hm.register h.inv hh hv rfl rfl rfl (fun j => ?_) rfl rfl rfl rfl, rfl⟩
        exact setSlot_published (s := (w.slots i).recycle w.nextGen) rfl j
      | fresh _ _ _ =>
        refine ⟨hm.register h.inv hh hv rfl rfl rfl (fun j => ?_) rfl rfl rfl rfl, rfl⟩
        refine setSlot_published (w := w) (i := w.nextSlot) (s := SlotSys.blank.fresh w.nextGen) ?_ j
        rw [hh.unmade w.nextSlot le_rfl]
        rfl
    refine ⟨?_, ?_⟩
    · simpa [World.exec, Ledger.exec, hv] using hsubject.1
    · simp [World.exec, Ledger.exec, hv, hsubject.2, hm.nextGen]
  · have hvac : w.map.isVacant key = false := by
      by_contra hvac
      rw [(w.map.isVacant_iff key).mp (by simpa using hvac)] at hlive
      exact hv hlive
    have hsame : w.subject key = (w, .subjectExists key) := by simp [World.subject, hvac]
    refine ⟨?_, ?_⟩
    · simpa [World.exec, Ledger.exec, hv, hsame] using hm
    · simp [World.exec, Ledger.exec, hv, hsame]

theorem agree_complete (hm : w.Models l) (h : w.Inv) (g : Gen) (v : O) :
    w.Agree l (.complete g v) := by
  have hkey := hm.key g
  cases ha : w.auth g with
  | subject k n i c =>
    have hdone := hm.completed g k n i c ha
    rw [ha] at hkey
    cases hout : l.outcome g with
    | none =>
      rw [hout] at hdone
      cases hdone
      have hcall := SlotSys.callComplete_frame w.env (w.slots i) g v
      refine ⟨?_, ?_⟩
      · simpa [World.exec, Ledger.exec, ha, hkey, hout, Authority.key?] using
          hm.complete h ha hcall.published
      · simp [World.exec, Ledger.exec, ha, hkey, hout, Authority.key?]
    | some v' =>
      rw [hout] at hdone
      cases hdone
      refine ⟨?_, ?_⟩
      · simpa [World.exec, Ledger.exec, ha, hkey, hout, Authority.key?] using hm
      · simp [World.exec, Ledger.exec, ha, hkey, hout, Authority.key?]
  | _ =>
    rw [ha] at hkey
    refine ⟨?_, ?_⟩
    · simpa [World.exec, Ledger.exec, ha, hkey, Authority.key?] using hm
    · simp [World.exec, Ledger.exec, ha, hkey, Authority.key?]

theorem agree_observe (hm : w.Models l) (h : w.Inv) (key : K) : w.Agree l (.observe key) := by
  have hlive := hm.live h key
  cases he : w.map.get key with
  | some e =>
    obtain ⟨k', c, -, ha⟩ := h.mapped.find key e he
    have hp : w.pin (.subject e.gen) = some (e.slot, e.gen) := by
      simp [pin, ha, Authority.current?]
    rw [he] at hlive
    refine ⟨?_, ?_⟩
    · simpa [World.exec, Ledger.exec, World.observe, he, hlive] using hm.newObs hp
    · simp [World.exec, Ledger.exec, World.observe, he, hlive, hm.nextObs]
  | none =>
    rw [he] at hlive
    refine ⟨?_, ?_⟩
    · simpa [World.exec, Ledger.exec, World.observe, he, hlive] using hm
    · simp [World.exec, Ledger.exec, World.observe, he, hlive]

/-- A call through an observation that does not exist is none. -/
theorem agree_noObs (hm : w.Models l) {op : Op K O W} {o : ObsId} (hop : op.obs? = some o)
    (hnone : l.obs o = none) : w.Agree l op := by
  have hdead (i : SlotId) (g : Gen) : w.obs o ≠ .live i g := by
    intro ho
    rw [hm.obs, ho] at hnone
    cases hnone
  have hworld : w.exec op = (w, .noHandle) := by
    cases op <;> cases hop <;> cases ho : w.obs o <;>
      first | exact absurd ho (hdead _ _) | simp [World.exec, ho]
  have hledger : l.exec op = (l, .noHandle) := by
    cases op <;> cases hop <;> simp [Ledger.exec, hnone]
  exact ⟨by rwa [hworld, hledger], by rw [hworld, hledger]⟩

theorem agree_noFut (hm : w.Models l) {op : Op K O W} {f : FutId} (hop : op.fut? = some f)
    (hnone : l.futs f = none) : w.Agree l op := by
  have hdead (i : SlotId) (g : Gen) : w.futs f ≠ .live i g := by
    intro hf
    rw [hm.futs, hf] at hnone
    cases hnone
  have hworld : w.exec op = (w, .noHandle) := by
    cases op <;> cases hop <;> cases hf : w.futs f <;>
      first | exact absurd hf (hdead _ _) | simp [World.exec, hf]
  have hledger : l.exec op = (l, .noHandle) := by
    cases op <;> cases hop <;> simp [Ledger.exec, hnone]
  exact ⟨by rwa [hworld, hledger], by rw [hworld, hledger]⟩

/-- What an observation reads is what the ledger has for its generation. -/
theorem shows (hm : w.Models l) (h : w.Inv) {x : Owner} {i : SlotId} {g : Gen}
    (hp : w.pin x = some (i, g)) : (w.slots i).Shows g (l.outcome g) := by
  rw [hm.outcome x i g hp]
  exact h.shows hp

/-- A call through an observation of generation `g`. -/
theorem agree_obs (hm : w.Models l) (h : w.Inv) (hq : w.Quiet) {op : Op K O W} {o : ObsId}
    {i : SlotId} {g : Gen} (hop : op.obs? = some o) (ho : w.obs o = .live i g) :
    w.Agree l op := by
  have hlive : l.obs o = some g := by rw [hm.obs, ho]; rfl
  have hp := pin_obs ho
  have hshows := hm.shows h hp
  cases op with
  | cloneObs o' =>
    cases hop
    refine ⟨?_, ?_⟩
    · simpa [World.exec, Ledger.exec, ho, hlive] using hm.newObs hp
    · simp [World.exec, Ledger.exec, ho, hlive]
  | tryGet o' =>
    cases hop
    have hcall := SlotSys.callTryGet_frame (w.slots i) 0 ⟨o, g⟩
    refine ⟨?_, ?_⟩
    · simpa [World.exec, Ledger.exec, ho, hlive] using hm.setSlot hcall.published
    · simp [World.exec, Ledger.exec, ho, hlive, SlotSys.callTryGet_snd hshows]
  | registerWaker o' wk =>
    cases hop
    have hcall := SlotSys.callRegisterWaker_frame (w.slots i) 0 ⟨o, g⟩ wk
    refine ⟨?_, ?_⟩
    · simpa [World.exec, Ledger.exec, ho, hlive] using hm.setSlot hcall.published
    · simp [World.exec, Ledger.exec, ho, hlive, SlotSys.callRegisterWaker_snd hshows]
  | intoFuture o' =>
    cases hop
    refine ⟨?_, ?_⟩
    · simpa [World.exec, Ledger.exec, ho, hlive] using hm.intoFuture ho
    · simp [World.exec, Ledger.exec, ho, hlive]
  | intoOutcome o' =>
    cases hop
    have hsole := hm.count_eq_one_iff h hq ho
    by_cases hone : w.arcs.count i = 1
    · refine ⟨?_, ?_⟩
      · simpa [World.exec, World.intoOutcome, Ledger.exec, ho, hlive, hone] using hm.unwrapSlot o i g
      · simp [World.exec, World.intoOutcome, Ledger.exec, ho, hlive, hone, hsole.mp hone,
          unwrapped_eq hshows]
    · refine ⟨?_, ?_⟩
      · simpa [World.exec, World.intoOutcome, Ledger.exec, ho, hlive, hone] using
          (hm.dropObs o g (some none)).release (.obs o) false
      · simp [World.exec, World.intoOutcome, Ledger.exec, ho, hlive, hone, mt hsole.mpr hone]
  | dropObs o' =>
    cases hop
    refine ⟨?_, ?_⟩
    · simpa [World.exec, Ledger.exec, ho, hlive] using
        (hm.dropObs o g none).release (.obs o) false
    · simp [World.exec, Ledger.exec, ho, hlive]
  | _ => cases hop

/-- A call on a future of generation `g`. -/
theorem agree_fut (hm : w.Models l) (h : w.Inv) (hq : w.Quiet) (hfit : l.Fits bits)
    {op : Op K O W} {f : FutId} {i : SlotId} {g : Gen} (hop : op.fut? = some f)
    (hf : w.futs f = .live i g) : w.Agree l op := by
  have hlive : l.futs f = some g := by rw [hm.futs, hf]; rfl
  have hshows := hm.shows h (pin_fut hf)
  cases op with
  | poll f' wk =>
    cases hop
    have hcall := SlotSys.callPoll_frame (w.slots i) f wk
    have hanswer := SlotSys.callPoll_snd hshows (f := f) (w := wk) fun hnone hk => by
      rw [hnone] at hshows
      exact hm.registerFutureWaker_ne_none h hq hfit hf hshows hk _
    refine ⟨?_, ?_⟩
    · simpa [World.exec, Ledger.exec, hf, hlive] using hm.setSlot hcall.published
    · simp [World.exec, Ledger.exec, hf, hlive, hanswer]
  | dropFuture f' =>
    cases hop
    have hcall := SlotSys.callCancel_frame (w.slots i) f
    refine ⟨?_, ?_⟩
    · simpa [World.exec, Ledger.exec, hf, hlive] using
        ((hm.setSlot hcall.published).dropFut f).release (.fut f) false
    · simp [World.exec, Ledger.exec, hf, hlive]
  | _ => cases hop

theorem agree_dropSubject (hm : w.Models l) (h : w.Inv) (g : Gen) :
    w.Agree l (.dropSubject g) := by
  have hkey := hm.key g
  cases ha : w.auth g with
  | subject k n i c =>
    rw [ha] at hkey
    refine ⟨?_, ?_⟩
    · simpa [World.exec, Ledger.exec, ha, hkey, Authority.key?] using
        (hm.retire (h.unlisted ha)).release (.subject g) false
    · simp [World.exec, Ledger.exec, ha, hkey, Authority.key?]
  | _ =>
    rw [ha] at hkey
    refine ⟨?_, ?_⟩
    · simpa [World.exec, Ledger.exec, ha, hkey, Authority.key?] using hm
    · simp [World.exec, Ledger.exec, ha, hkey, Authority.key?]

/-- **Every call agrees.** -/
theorem agree (hm : w.Models l) (h : w.Sound) (hq : w.Quiet) (op : Op K O W)
    (hfit : l.Fits bits) (hfit' : (l.exec op).1.Fits bits) : w.Agree l op := by
  have hobs {o : ObsId} (hop : op.obs? = some o) : w.Agree l op := by
    cases hl : l.obs o with
    | none => exact hm.agree_noObs hop hl
    | some g =>
      obtain ⟨i, ho⟩ := hm.obs_eq_some hq hl
      exact hm.agree_obs h.inv hq hop ho
  have hfut {f : FutId} (hop : op.fut? = some f) : w.Agree l op := by
    cases hl : l.futs f with
    | none => exact hm.agree_noFut hop hl
    | some g =>
      obtain ⟨i, hf⟩ := hm.futs_eq_some hl
      exact hm.agree_fut h.inv hq hfit hop hf
  cases op with
  | subject key => exact hm.agree_subject h key hfit'
  | complete g v => exact hm.agree_complete h.inv g v
  | observe key => exact hm.agree_observe h.inv key
  | dropSubject g => exact hm.agree_dropSubject h.inv g
  | poll f wk => exact hfut rfl
  | dropFuture f => exact hfut rfl
  | cloneObs o => exact hobs rfl
  | tryGet o => exact hobs rfl
  | registerWaker o wk => exact hobs rfl
  | intoFuture o => exact hobs rfl
  | intoOutcome o => exact hobs rfl
  | dropObs o => exact hobs rfl

end Models

/-! ## Runs of calls -/

/-- Related states stay related over any sequence of calls, and every call returns the same. -/
theorem Models.run (ops : List (Op K O W)) {w : World K O W bits} {l : Ledger K O}
    (hm : w.Models l) (h : w.Sound) (hq : w.Quiet) (hb : l.Bounded bits ops) :
    (w.run ops).1.Models (l.run ops).1 ∧ (w.run ops).2 = (l.run ops).2 := by
  induction ops generalizing w l with
  | nil => exact ⟨hm, rfl⟩
  | cons op ops ih =>
    obtain ⟨hfit, hrest⟩ := hb
    have hfit' : (l.exec op).1.Fits bits := by
      cases ops with
      | nil => exact hrest
      | cons => exact hrest.1
    have hagree := hm.agree h hq op hfit hfit'
    have hsound := (hq.runs_exec h.inv op).sound h
    obtain ⟨hmodels, hresults⟩ := ih hagree.models hsound (hq.exec h.inv op) hrest
    refine ⟨hmodels, ?_⟩
    simp only [World.run, Ledger.run, hagree.result, hresults]

end World

/-- **Sequential refinement.** Calls made one after another on a new space return what the ledger
returns, whatever the keys, the handles and their order. -/
theorem sequential_refinement [WillWake W] (e : Env) (ops : List (Op K O W))
    (hb : (Ledger.new : Ledger K O).Bounded bits ops) :
    ((World.new e : World K O W bits).run ops).2 = (Ledger.new.run ops).2 :=
  (World.Models.run ops (World.Models.new e) (World.Sound.new e) (World.Quiet.new e) hb).2

/-- Generation 1 of key 7 completes and is retired; generation 2 has the key, and the observation,
the future and the last clone of generation 1 still get what generation 1 has published. -/
def retiredOps : List (Op Nat Nat Nat) :=
  [.subject 7, .subject 7, .observe 7, .cloneObs 0, .cloneObs 0, .intoFuture 2, .poll 0 5,
    .complete 1 42, .dropSubject 1, .subject 7, .observe 7, .tryGet 0, .tryGet 3, .poll 0 5,
    .intoOutcome 0, .dropFuture 0, .intoOutcome 1, .registerWaker 3 5, .dropSubject 2, .observe 7]

theorem sequential_refinement_retired :
    ((World.new ⟨fun _ => false, 0⟩ : World Nat Nat Nat 64).run retiredOps).2 =
      [.subject (.ok 1), .subject (.subjectExists 7), .observe (some 0), .done, .done, .done,
        .polled .pending, .done, .done, .subject (.ok 2), .observe (some 3), .outcome (some 42),
        .outcome none, .polled (.ready 42), .outcome none, .done, .outcome (some 42),
        .registered false, .done, .observe none] :=
  (sequential_refinement ⟨fun _ => false, 0⟩ retiredOps (by decide +kernel)).trans rfl

end Observe
