import Observe.Space.History
import Observe.Space.RegisterCall

/-!
# Registering a subject

The generation numbers that the calls of `subject` in a run hand out.  The counter is advanced before
it is compared with `usize::MAX`, and it wraps.  A call that panics, at that comparison or in user
code behind it, has used up its number.
-/

namespace Observe

variable {K O W : Type} [Key K] {bits : Nat}

/-! ## The numbers are drawn in order -/

/-- A step of the program, or a call of `subject` that panics. -/
inductive RegistrationStep [WillWake W] : World K O W bits → World K O W bits → Prop where
  | step {w w'} (h : World.Step w w') : RegistrationStep w w'
  /-- No number depends on the slots and handles that the unwinding leaves: they are left open. -/
  | panic {w c p} (key : K) (slots arcs drops) (hspace : 0 < w.spaces)
      (hc : w.RegisterReaches key c) (hpc : c.pc = .unwinding p) :
      RegistrationStep w
        { w with
          map := c.map, nextGeneration := c.nextGeneration, pool := w.pool.tail
          slots := slots, arcs := arcs, drops := drops }

inductive Registration (bits : Nat) where
  | returned (generation : BitVec bits)
  /-- `assert_ne!` has panicked. -/
  | exhausted
  /-- User code has panicked. -/
  | unwound
deriving DecidableEq

/-- What the step from `w` to `w'` draws. -/
inductive Registers (w w' : World K O W bits) : Option (Registration bits) → Prop where
  | nothing (hnext : w'.nextGeneration = w.nextGeneration) : Registers w w' none
  | exhausted (hnext : w'.nextGeneration = w.nextGeneration + 1)
      (hmax : w.nextGeneration = BitVec.allOnes bits) : Registers w w' (some .exhausted)
  | unwound (hnext : w'.nextGeneration = w.nextGeneration + 1)
      (hmax : w.nextGeneration ≠ BitVec.allOnes bits) (hgen : w'.nextGen = w.nextGen) :
      Registers w w' (some .unwound)
  | returned (hnext : w'.nextGeneration = w.nextGeneration + 1)
      (hmax : w.nextGeneration ≠ BitVec.allOnes bits) (hgen : w'.nextGen = w.nextGen + 1)
      (key : K) (hkey : w.map.isVacant key = true) (hw : w' = (w.subject key).1) :
      Registers w w' (some (.returned w.nextGeneration))

namespace World

theorem retire_nextGeneration (w : World K O W bits) (g : Gen) (key : K) (n : BitVec bits)
    (i : SlotId) : (w.retire g key n i).nextGeneration = w.nextGeneration := by
  unfold World.retire
  dsimp only
  split
  · cases w.map.get key with
    | none =>
      dsimp only
      split <;> rfl
    | some entry =>
      dsimp only
      split <;> rfl
  · rfl

/-- A call on a vacant key at `usize::MAX`. -/
theorem subject_exhausted (w : World K O W bits) {key : K} (hkey : w.map.isVacant key = true)
    (hmax : w.nextGeneration = BitVec.allOnes bits) :
    Registers w (w.subject key).1 (some .exhausted) ∧ (w.subject key).1.map = w.map ∧
      (w.subject key).1.spaces = w.spaces := by
  have hcases := w.subject_cases key
  generalize w.subject key = r at hcases ⊢
  cases hcases with
  | conflict hconf =>
    rw [hkey] at hconf
    cases hconf
  | exhausted _ _ =>
    exact ⟨.exhausted (dropPopped_nextGeneration _ true) hmax, dropPopped_map _ true,
      dropPopped_spaces _ true⟩
  | recycled _ hne _ | fresh _ hne _ => exact absurd hmax hne

/-- A call on a vacant key below `usize::MAX`. -/
theorem subject_returned (w : World K O W bits) {key : K} (hkey : w.map.isVacant key = true)
    (hmax : w.nextGeneration ≠ BitVec.allOnes bits) :
    Registers w (w.subject key).1 (some (.returned w.nextGeneration)) ∧
      (∃ i, (w.subject key).1.auth w.nextGen = .subject key w.nextGeneration i false) ∧
      (w.subject key).1.spaces = w.spaces := by
  have hcases := w.subject_cases key
  have hret (hnext hgen) := Registers.returned (w := w) hnext hmax hgen key hkey rfl
  generalize w.subject key = r at hcases hret ⊢
  cases hcases with
  | conflict hconf =>
    rw [hkey] at hconf
    cases hconf
  | exhausted _ hexh => exact absurd hexh hmax
  | recycled _ _ hpool | fresh _ _ hpool =>
    exact ⟨hret rfl rfl, ⟨_, Function.update_self ..⟩, rfl⟩

/-- A call of `subject` draws one number or none. -/
theorem subject_registers (w : World K O W bits) (key : K) :
    ∃ x, Registers w (w.subject key).1 x := by
  cases hkey : w.map.isVacant key with
  | false =>
    have hsame : (w.subject key).1 = w := by simp [World.subject, hkey]
    rw [hsame]
    exact ⟨_, .nothing rfl⟩
  | true =>
    by_cases hmax : w.nextGeneration = BitVec.allOnes bits
    · exact ⟨_, (w.subject_exhausted hkey hmax).1⟩
    · exact ⟨_, (w.subject_returned hkey hmax).1⟩

end World

/-- Every step draws one number or none. -/
theorem RegistrationStep.registers [WillWake W] {w w' : World K O W bits}
    (h : RegistrationStep w w') : ∃ x, Registers w w' x := by
  cases h with
  | step hs =>
    cases hs with
    | subject key => exact w.subject_registers key
    | unwind => exact ⟨_, .nothing (w.dropPopped_nextGeneration true)⟩
    | dropPooled => exact ⟨_, .nothing (w.dropPopped_nextGeneration false)⟩
    | observe key =>
      refine ⟨_, .nothing ?_⟩
      unfold World.observe
      split <;> rfl
    | retire ha hrest => exact ⟨_, .nothing (w.retire_nextGeneration _ _ _ _)⟩
    | intoOutcome ho hb =>
      refine ⟨_, .nothing ?_⟩
      unfold World.intoOutcome
      split <;> rfl
    | _ => exact ⟨_, .nothing rfl⟩
  | @panic c p key slots arcs drops hspace hc hpc =>
    have hcounter := hc.counterAt
    unfold RegisterCall.CounterAt at hcounter
    rw [hpc] at hcounter
    cases p with
    | vacancy => exact ⟨_, .nothing hcounter⟩
    | exhausted => exact ⟨_, .exhausted hcounter.1 hcounter.2.2⟩
    | outcome | waker | clone | promotion | insertion =>
      -- the number is used up, and no subject has it
      exact ⟨_, .unwound hcounter.1 hcounter.2.2 rfl⟩

/-! ## The numbers of a run -/

def noteRegistration (w w' : World K O W bits) (log : List (Registration bits)) :
    List (Registration bits) :=
  if w'.nextGeneration = w.nextGeneration then log
  else if w.nextGeneration = BitVec.allOnes bits then .exhausted :: log
  else if w'.nextGen = w.nextGen then .unwound :: log
  else .returned w.nextGeneration :: log

def registrationSystem (K O W : Type) [Key K] [WillWake W] (bits : Nat) :
    Lib.System (World K O W bits × List (Registration bits)) :=
  Lib.System.recording ⟨(worldSystem K O W bits).init, RegistrationStep⟩ [] noteRegistration

/-- A counter of one bit or more moves when it is advanced. -/
theorem add_one_ne {bits : Nat} (hb : 0 < bits) (n : BitVec bits) : n + 1 ≠ n := by
  intro h
  have hone : BitVec.ofNat bits 1 = BitVec.ofNat bits 0 := by
    have hsub : n + 1 - n = n - n := by rw [h]
    rwa [BitVec.add_comm, BitVec.add_sub_cancel, BitVec.sub_self] at hsub
  have htoNat := congrArg BitVec.toNat hone
  have hlt : 1 < 2 ^ bits := Nat.one_lt_two_pow (by omega)
  rw [BitVec.toNat_ofNat, BitVec.toNat_ofNat, Nat.mod_eq_of_lt hlt, Nat.zero_mod] at htoNat
  omega

theorem Registers.note (hb : 0 < bits) {w w' : World K O W bits}
    {x : Option (Registration bits)} (h : Registers w w' x) (log : List (Registration bits)) :
    noteRegistration w w' log = x.toList ++ log := by
  have hdrawn (hnext : w'.nextGeneration = w.nextGeneration + 1) :
      w'.nextGeneration ≠ w.nextGeneration := hnext ▸ add_one_ne hb _
  unfold noteRegistration
  cases h with
  | nothing hnext => exact if_pos hnext
  | exhausted hnext hmax => exact (if_neg (hdrawn hnext)).trans (if_pos hmax)
  | unwound hnext hmax hgen =>
    exact (if_neg (hdrawn hnext)).trans ((if_neg hmax).trans (if_pos hgen))
  | returned hnext hmax hgen =>
    have hnew : w'.nextGen ≠ w.nextGen := hgen ▸ Nat.succ_ne_self _
    exact (if_neg (hdrawn hnext)).trans ((if_neg hmax).trans (if_neg hnew))

/-- No number is returned twice, and none after a call has panicked for lack of numbers. -/
def Unrepeated (log : List (Registration bits)) : Prop :=
  log.Pairwise fun later earlier =>
    ∀ n, later = .returned n → earlier ≠ .returned n ∧ earlier ≠ .exhausted

inductive Draw (bits n : Nat) : Registration bits → Prop where
  | exhausted (hmax : BitVec.ofNat bits n = BitVec.allOnes bits) : Draw bits n .exhausted
  | returned (hmax : BitVec.ofNat bits n ≠ BitVec.allOnes bits) :
      Draw bits n (.returned (BitVec.ofNat bits n))
  | unwound (hmax : BitVec.ofNat bits n ≠ BitVec.allOnes bits) : Draw bits n .unwound

def Drawn : List (Registration bits) → Prop
  | [] => True
  | x :: log => Draw bits (log.length + 1) x ∧ Drawn log

section Draws

variable {log : List (Registration bits)}

/-- Every record is one of the draws so far. -/
theorem Drawn.of_mem (h : Drawn log) {x : Registration bits} (hx : x ∈ log) :
    ∃ n, 0 < n ∧ n ≤ log.length ∧ Draw bits n x := by
  induction log with
  | nil => cases hx
  | cons y log ih =>
    rcases List.mem_cons.mp hx with rfl | hx
    · exact ⟨log.length + 1, by omega, by simp, h.1⟩
    · have ⟨n, hpos, hn, hdraw⟩ := ih h.2 hx
      refine ⟨n, hpos, ?_, hdraw⟩
      rw [List.length_cons]
      omega

/-- Every draw so far has its record. -/
theorem Drawn.exists_mem (h : Drawn log) {n : Nat} (hpos : 0 < n) (hn : n ≤ log.length) :
    ∃ x ∈ log, Draw bits n x := by
  induction log with
  | nil =>
    rw [List.length_nil] at hn
    omega
  | cons y log ih =>
    by_cases hlast : n = log.length + 1
    · subst hlast
      exact ⟨y, List.mem_cons_self, h.1⟩
    · rw [List.length_cons] at hn
      have ⟨x, hx, hdraw⟩ := ih h.2 (by omega)
      exact ⟨x, List.mem_cons_of_mem _ hx, hdraw⟩

/-- The last number comes up once in `2 ^ bits` draws. -/
theorem ofNat_eq_allOnes_iff {n : Nat} :
    BitVec.ofNat bits n = BitVec.allOnes bits ↔ n % 2 ^ bits = 2 ^ bits - 1 := by
  rw [← BitVec.toNat_inj, BitVec.toNat_ofNat, BitVec.toNat_allOnes]

/-- A number is new as long as the counter has not come to `usize::MAX`. -/
theorem Drawn.unrepeated_returned (h : Drawn log) (hu : Unrepeated log)
    (hlen : log.length + 1 < 2 ^ bits) :
    Unrepeated (.returned (BitVec.ofNat bits (log.length + 1)) :: log) := by
  refine List.pairwise_cons.mpr ⟨?_, hu⟩
  intro x hx n hn
  injection hn with hn
  have ⟨m, hpos, hm, hdraw⟩ := h.of_mem hx
  have hmod : m % 2 ^ bits = m := Nat.mod_eq_of_lt (by omega)
  constructor
  · intro heq
    rw [heq] at hdraw
    cases hdraw with
    | returned hmax =>
      have htoNat := congrArg BitVec.toNat hn
      rw [BitVec.toNat_ofNat, BitVec.toNat_ofNat, hmod, Nat.mod_eq_of_lt hlen] at htoNat
      omega
  · intro heq
    rw [heq] at hdraw
    cases hdraw with
    | exhausted hmax =>
      rw [ofNat_eq_allOnes_iff, hmod] at hmax
      omega

/-- Behind `usize::MAX` no number may be returned. -/
theorem Drawn.not_unrepeated_returned (hb : 0 < bits) (h : Drawn log)
    (hlen : 2 ^ bits ≤ log.length + 1) (n : BitVec bits) :
    ¬ Unrepeated (.returned n :: log) := by
  have hpow : 1 < 2 ^ bits := Nat.one_lt_two_pow (by omega)
  have hmax : BitVec.ofNat bits (2 ^ bits - 1) = BitVec.allOnes bits := by
    rw [ofNat_eq_allOnes_iff]
    exact Nat.mod_eq_of_lt (by omega)
  have ⟨x, hx, hdraw⟩ := h.exists_mem (n := 2 ^ bits - 1) (by omega) (by omega)
  intro hu
  have hx' := ((List.pairwise_cons.mp hu).1 x hx n rfl).2
  cases hdraw with
  | exhausted _ => exact hx' rfl
  | returned hne => exact hne hmax
  | unwound hne => exact hne hmax

end Draws

/-! ## Runs -/

/-- The numbers have all been drawn, and a call of `subject` draws one again and returns it: its key
is vacant, the counter is not at `usize::MAX`, and no user code panics. -/
def Overdraws (x x' : World K O W bits × List (Registration bits)) : Prop :=
  2 ^ bits ≤ x.2.length + 1 ∧ x.1.nextGeneration ≠ BitVec.allOnes bits ∧
    ∃ key, x.1.map.isVacant key = true ∧ x'.1 = (x.1.subject key).1

structure Counted (x : World K O W bits × List (Registration bits)) : Prop where
  drawn : Drawn x.2
  next : x.1.nextGeneration = BitVec.ofNat bits (x.2.length + 1)

section Runs

variable {w w' : World K O W bits} {log : List (Registration bits)}

/-- A draw goes on the record. -/
theorem Counted.draw (h : Counted (w, log)) {x : Registration bits}
    (hdraw : Draw bits (log.length + 1) x) (hnext : w'.nextGeneration = w.nextGeneration + 1) :
    Counted (w', x :: log) where
  drawn := ⟨hdraw, h.drawn⟩
  next := by
    have hlast : w.nextGeneration = BitVec.ofNat bits (log.length + 1) := h.next
    show w'.nextGeneration = BitVec.ofNat bits (log.length + 1 + 1)
    rw [hnext, hlast]
    exact (BitVec.ofNat_add (log.length + 1) 1).symm

/-- A draw keeps the counter and the record in step. -/
theorem Counted.step (hb : 0 < bits) (h : Counted (w, log)) {x : Option (Registration bits)}
    (hx : Registers w w' x) : Counted (w', noteRegistration w w' log) := by
  rw [hx.note hb]
  cases hx with
  | nothing hnext => exact ⟨h.drawn, hnext.trans h.next⟩
  | exhausted hnext hmax => exact h.draw (.exhausted (h.next ▸ hmax)) hnext
  | unwound hnext hmax hgen => exact h.draw (.unwound (h.next ▸ hmax)) hnext
  | returned hnext hmax hgen key hkey hw =>
    have hdraw : Draw bits (log.length + 1) (.returned w.nextGeneration) := by
      rw [h.next]
      exact .returned (h.next ▸ hmax)
    exact h.draw hdraw hnext

theorem Counted.new [WillWake W] {x : World K O W bits × List (Registration bits)}
    (hi : (registrationSystem K O W bits).init x) : Counted x := by
  have ⟨⟨e, hw⟩, hlog⟩ := hi
  constructor
  · rw [hlog]
    trivial
  · rw [hw, hlog]
    rfl

/-- In every reachable state the record is one of draws, and the counter stands at the next one. -/
theorem registrations_counted [WillWake W] (hb : 0 < bits)
    (h : (registrationSystem K O W bits).Reachable (w, log)) : Counted (w, log) := by
  have hinv := Lib.System.Reachable.recorded_invariant
    (I := fun w log => Counted (w, log)) ?_ ?_ h
  · exact hinv
  · intro w hw
    exact .new ⟨hw, rfl⟩
  · intro w w' log _ hcounted hs
    have ⟨x, hx⟩ := hs.registers
    exact hcounted.step hb hx

/-- A step that draws no number again keeps the record without repetition. -/
theorem Counted.unrepeated (hb : 0 < bits) (h : Counted (w, log)) (hu : Unrepeated log)
    {x : Option (Registration bits)} (hx : Registers w w' x)
    (hover : ¬ Overdraws (w, log) (w', noteRegistration w w' log)) :
    Unrepeated (noteRegistration w w' log) := by
  rw [hx.note hb] at hover ⊢
  cases hx with
  | nothing hnext => exact hu
  | exhausted hnext hmax => exact List.pairwise_cons.mpr ⟨fun _ _ => nofun, hu⟩
  | unwound hnext hmax hgen => exact List.pairwise_cons.mpr ⟨fun _ _ => nofun, hu⟩
  | returned hnext hmax hgen key hkey hw =>
    have hlen : log.length + 1 < 2 ^ bits := by
      by_contra hge
      exact hover ⟨Nat.not_lt.mp hge, hmax, key, hkey, hw⟩
    rw [h.next]
    exact h.drawn.unrepeated_returned hu hlen

/-- A number that is drawn behind `usize::MAX` breaks the record. -/
theorem Counted.not_unrepeated (hb : 0 < bits) (h : Counted (w, log))
    (hover : Overdraws (w, log) (w', noteRegistration w w' log)) :
    ¬ Unrepeated (noteRegistration w w' log) := by
  have ⟨hlen, hmax, key, hkey, hw⟩ := hover
  have hw' : w' = (w.subject key).1 := hw
  rw [hw', (w.subject_returned hkey hmax).1.note hb]
  exact h.drawn.not_unrepeated_returned hb hlen _

/-- **Generation numbers.** All along a run the numbers that `subject` returns are pairwise distinct
and none is returned after a call has panicked for lack of numbers, exactly when no call of the run
goes through on a vacant key once all numbers have been drawn. -/
theorem generations_unrepeated_iff [WillWake W] (hb : 0 < bits)
    {l : List (World K O W bits × List (Registration bits))}
    (hr : (registrationSystem K O W bits).Run l) :
    (∀ x ∈ l, Unrepeated x.2) ↔ Lib.System.Steps (fun x x' => ¬ Overdraws x x') l := by
  apply hr.forall_iff_steps (I := fun x => Counted x ∧ Unrepeated x.2)
  · intro x hi
    refine ⟨.new hi, ?_⟩
    rw [hi.2]
    exact List.Pairwise.nil
  · intro x x' hx hs hover
    have ⟨hstep, hnote⟩ := hs
    have hx' : x' = (x'.1, noteRegistration x.1 x'.1 x.2) := Prod.ext rfl hnote
    rw [hx'] at hover ⊢
    have ⟨_, hdraw⟩ := hstep.registers
    exact ⟨hx.1.step hb hdraw, hx.1.unrepeated hb hx.2 hdraw hover⟩
  · intro x hx
    exact hx.2
  · intro x x' hx hs hover
    have ⟨_, hnote⟩ := hs
    have hx' : x' = (x'.1, noteRegistration x.1 x'.1 x.2) := Prod.ext rfl hnote
    rw [hx'] at hover ⊢
    exact hx.1.not_unrepeated hb (not_not.mp hover)

/-- `Clone` panics in the first call; two subjects are made by the next ones. -/
theorem generations_unrepeated_two :
    ∃ l : List (World Nat Nat Nat 64 × List (Registration 64)),
      (registrationSystem Nat Nat Nat 64).Run l ∧
      l.head?.map Prod.snd = some [.returned 3, .returned 2, .unwound] ∧
      ∀ x ∈ l, Unrepeated x.2 := by
  have ⟨c, hc, hpc, hmap, hnext⟩ := World.reaches_clone_panic
    (World.new ⟨fun _ => false, 0⟩ : World Nat Nat Nat 64) 7 rfl (by decide) rfl
  have h₀ : (registrationSystem Nat Nat Nat 64).Run [(_, _)] :=
    .init ⟨⟨⟨fun _ => false, 0⟩, rfl⟩, rfl⟩
  have h₁ := h₀.record (.panic 7 (fun _ => .blank) .empty [] (by decide) hc hpc)
  rw [hmap, hnext] at h₁
  have h₂ := h₁.record (.step (.subject 7 (by decide)))
  have h₃ := h₂.record (.step (.subject 8 (by decide)))
  refine ⟨_, h₃, rfl, (generations_unrepeated_iff (by decide) h₃).mpr ?_⟩
  have hfew {x x' : World Nat Nat Nat 64 × List (Registration 64)} (hlen : x.2.length ≤ 2) :
      ¬ Overdraws x x' := by
    intro hover
    have hlate := hover.1
    omega
  exact ⟨hfew (by decide), hfew (by decide), hfew (by decide), trivial⟩

/-- A subject that is dropped leaves its key vacant, and draws nothing. -/
theorem exists_vacant [WillWake W] {key : K} {g : Gen} {n : BitVec bits} {i : SlotId}
    (hw : (worldSystem K O W bits).Reachable w)
    (h : (registrationSystem K O W bits).Reachable (w, log)) (ha : w.auth g = .subject key n i false)
    (hspace : 0 < w.spaces) :
    ∃ w', (worldSystem K O W bits).Reachable w' ∧
      (registrationSystem K O W bits).Reachable (w', log) ∧ w'.map.get key = none ∧
        0 < w'.spaces := by
  have hinv := (worldSystem_sound hw).inv
  have hidle : (w.slots i).comp = .idle := hinv.borrowed.idle g i (.inr ⟨key, n, ha⟩)
  have hretire : World.Step w (w.retire g key n i) := .retire ha (by rw [hidle]; rfl)
  have hstep := h.record (.step hretire)
  have hret : (w.retire g key n i).map = (w.map.removeIf key n).1 ∧
      (w.retire g key n i).spaces = w.spaces := by
    rw [hinv.retire_eq ha]
    split <;> exact ⟨rfl, rfl⟩
  rw [noteRegistration, if_pos (w.retire_nextGeneration g key n i)] at hstep
  refine ⟨_, hw.step hretire, hstep, ?_, hret.2 ▸ hspace⟩
  rw [hret.1, SmallMap.get_removeIf hinv.mapped.ok (hinv.removeIf_subject ha), if_pos BEq.rfl]

/-- A key can be registered and dropped over and over, so a run can draw any number of times. -/
theorem exists_draws [WillWake W] (hb : 0 < bits) (key : K) (n : Nat) :
    ∃ (w : World K O W bits) (log : List (Registration bits)),
      (worldSystem K O W bits).Reachable w ∧
      (registrationSystem K O W bits).Reachable (w, log) ∧ log.length = n ∧
        w.map.get key = none ∧ 0 < w.spaces := by
  induction n with
  | zero =>
    have hinit : (worldSystem K O W bits).init (World.new ⟨fun _ => false, 0⟩) := ⟨_, rfl⟩
    exact ⟨_, [], .init hinit, .start hinit, rfl, SmallMap.get_empty key, Nat.one_pos⟩
  | succ n ih =>
    have ⟨w, log, hw, hr, hlen, hkey, hspace⟩ := ih
    have hvacant : w.map.isVacant key = true := (w.map.isVacant_iff key).mpr hkey
    have hsubject : World.Step w (w.subject key).1 := .subject key hspace
    have hstep := hr.record (.step hsubject)
    have hw' := hw.step hsubject
    by_cases hmax : w.nextGeneration = BitVec.allOnes bits
    · -- the call panics, and leaves the key vacant
      have ⟨hnote, hmap, hspaces⟩ := w.subject_exhausted hvacant hmax
      rw [hnote.note hb] at hstep
      exact ⟨_, _, hw', hstep, congrArg (· + 1) hlen, hmap ▸ hkey, hspaces ▸ hspace⟩
    · have ⟨hnote, ⟨i, ha⟩, hspaces⟩ := w.subject_returned hvacant hmax
      rw [hnote.note hb] at hstep
      have ⟨w', hr', hreg', hkey', hspace'⟩ := exists_vacant hw' hstep ha (hspaces ▸ hspace)
      exact ⟨w', _, hr', hreg', congrArg (· + 1) hlen, hkey', hspace'⟩

/-- The counter of a 64-bit target wraps: the `2 ^ 64`-th draw returns 0 right after the one that
panicked. -/
theorem generations_repeated : ¬ ∀ (w : World Nat Nat Nat 64) (log : List (Registration 64)),
    (registrationSystem Nat Nat Nat 64).Reachable (w, log) → Unrepeated log := by
  intro hclaim
  have ⟨w, log, _, hr, hlen, hkey, hspace⟩ :=
    @exists_draws Nat Nat Nat _ 64 _ (by decide) 7 (2 ^ 64 - 1)
  have hvacant : w.map.isVacant 7 = true := (w.map.isVacant_iff 7).mpr hkey
  have hcounted := registrations_counted (by decide) hr
  have hmax : w.nextGeneration ≠ BitVec.allOnes 64 := by
    rw [hcounted.next, hlen]
    decide
  have hlate : 2 ^ 64 ≤ log.length + 1 := by omega
  apply hcounted.not_unrepeated (by decide) ⟨hlate, hmax, 7, hvacant, rfl⟩
  exact hclaim _ _ (hr.record (.step (.subject 7 hspace)))

end Runs

end Observe
