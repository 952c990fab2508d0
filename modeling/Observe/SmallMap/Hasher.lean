import Observe.SmallMap
import Observe.Lib.Mixing

/-!
# The hasher of the key table

`FxHasher` takes its input in words of eight bytes and fills up the last one with zeros.  A step
loses nothing, so two inputs that differ inside one word never collide; for any other beginning,
exactly one word makes up for it.
-/

namespace Observe

def fxSeed : BitVec 64 := 0x517cc1b727220a95

/-- The seed is odd, so the multiplication can be undone. -/
theorem fxSeed_mul_inv : fxSeed * 0x2040003d780970bd = 1#64 := by decide

structure FxHasher where
  hash : BitVec 64
deriving DecidableEq, Repr

def leNat : List (BitVec 8) → Nat
  | [] => 0
  | b :: bs => b.toNat + 256 * leNat bs

def fromLeBytes (bytes : List (BitVec 8)) : BitVec 64 := BitVec.ofNat 64 (leNat bytes)

def chunksExact (bytes : List (BitVec 8)) : List (List (BitVec 8)) :=
  (List.range (bytes.length / 8)).map fun i => (bytes.drop (8 * i)).take 8

def remainder (bytes : List (BitVec 8)) : List (BitVec 8) := bytes.drop (8 * (bytes.length / 8))

def toLeBytes : Nat → Nat → List (BitVec 8)
  | 0, _ => []
  | n + 1, x => BitVec.ofNat 8 x :: toLeBytes n (x / 256)

/-- `padded`, with the tail copied to its front. -/
def padded (tail : List (BitVec 8)) : List (BitVec 8) :=
  tail ++ List.replicate (8 - tail.length) 0

namespace FxHasher

def default : FxHasher := ⟨0⟩

def add (h : FxHasher) (word : BitVec 64) : FxHasher :=
  ⟨(h.hash.rotateLeft 5 ^^^ word) * fxSeed⟩

def write (h : FxHasher) (bytes : List (BitVec 8)) : FxHasher :=
  let h := (chunksExact bytes).foldl (fun h chunk => h.add (fromLeBytes chunk)) h
  let tail := remainder bytes
  if !tail.isEmpty then h.add (fromLeBytes (padded tail)) else h

def writeU64 (h : FxHasher) (value : BitVec 64) : FxHasher := h.add value

/-- `usize` has at most 64 bits. -/
def writeUsize {bits : Nat} (h : FxHasher) (value : BitVec bits) : FxHasher :=
  h.add (value.setWidth 64)

def finish (h : FxHasher) : BitVec 64 := h.hash

end FxHasher

/-! ## Words -/

/-- The number of `n` bytes is below `256 ^ n`. -/
theorem leNat_lt (bytes : List (BitVec 8)) : leNat bytes < 256 ^ bytes.length := by
  induction bytes with
  | nil => decide
  | cons b bs ih =>
    have hb := b.isLt
    rw [List.length_cons, Nat.pow_succ]
    simp only [leNat]
    omega

/-- A little-endian number of known length tells its bytes. -/
theorem leNat_injective {bs bs' : List (BitVec 8)} (hlen : bs.length = bs'.length)
    (h : leNat bs = leNat bs') : bs = bs' := by
  induction bs generalizing bs' with
  | nil => exact (List.length_eq_zero_iff.mp hlen.symm).symm
  | cons b bs ih =>
    cases bs' with
    | nil => cases hlen
    | cons b' bs' =>
      have hb := b.isLt
      have hb' := b'.isLt
      simp only [leNat] at h
      have hhead : b = b' := BitVec.eq_of_toNat_eq (by omega)
      have htail : bs = bs' := ih (by simpa using hlen) (by omega)
      rw [hhead, htail]

/-- Up to eight bytes are told by their word. -/
theorem fromLeBytes_injective {bs bs' : List (BitVec 8)} (hlen : bs.length = bs'.length)
    (hle : bs.length ≤ 8) (h : fromLeBytes bs = fromLeBytes bs') : bs = bs' := by
  have hsmall (cs : List (BitVec 8)) (hcs : cs.length ≤ 8) : leNat cs % 2 ^ 64 = leNat cs := by
    apply Nat.mod_eq_of_lt
    have hpow : 256 ^ cs.length ≤ 256 ^ 8 := Nat.pow_le_pow_right (by decide) hcs
    have hlt := leNat_lt cs
    omega
  have hnat := congrArg BitVec.toNat h
  rw [fromLeBytes, fromLeBytes, BitVec.toNat_ofNat, BitVec.toNat_ofNat, hsmall bs hle,
    hsmall bs' (hlen ▸ hle)] at hnat
  exact leNat_injective hlen hnat

theorem length_toLeBytes (n x : Nat) : (toLeBytes n x).length = n := by
  induction n generalizing x with
  | zero => rfl
  | succ n ih => rw [toLeBytes, List.length_cons, ih]

/-- Writing a number to `n` bytes keeps it modulo `256 ^ n`. -/
theorem leNat_toLeBytes (n x : Nat) : leNat (toLeBytes n x) = x % 256 ^ n := by
  induction n generalizing x with
  | zero => simp [toLeBytes, leNat, Nat.mod_one]
  | succ n ih =>
    have hsplit : x % 256 ^ (n + 1) = x % 256 + 256 * (x / 256 % 256 ^ n) := by
      rw [Nat.pow_succ', Nat.mod_mul]
    rw [toLeBytes, leNat, ih, hsplit, BitVec.toNat_ofNat]

theorem fromLeBytes_toLeBytes (w : BitVec 64) : fromLeBytes (toLeBytes 8 w.toNat) = w := by
  apply BitVec.eq_of_toNat_eq
  have hw := w.isLt
  rw [fromLeBytes, leNat_toLeBytes, BitVec.toNat_ofNat]
  omega

/-! ## The words of an input -/

variable {a b c c' : List (BitVec 8)}

/-- Whole chunks in front are chunks of the whole. -/
theorem chunksExact_append (ha : 8 ∣ a.length) :
    chunksExact (a ++ b) = chunksExact a ++ chunksExact b := by
  obtain ⟨k, hk⟩ := ha
  have hab : (a ++ b).length / 8 = k + b.length / 8 := by
    rw [List.length_append]
    omega
  have hak : a.length / 8 = k := by omega
  unfold chunksExact
  rw [hab, hak, List.range_add, List.map_append, List.map_map]
  congr 1
  · apply List.map_congr_left
    intro i hi
    have hlt := List.mem_range.mp hi
    rw [List.drop_append_of_le_length (by omega),
      List.take_append_of_le_length (by rw [List.length_drop]; omega)]
  · apply List.map_congr_left
    intro j _
    show ((a ++ b).drop (8 * (k + j))).take 8 = _
    rw [show 8 * (k + j) = a.length + 8 * j by omega, List.drop_length_add_append]

theorem remainder_append (ha : 8 ∣ a.length) : remainder (a ++ b) = remainder b := by
  have hlen : 8 * ((a ++ b).length / 8) = a.length + 8 * (b.length / 8) := by
    rw [List.length_append]
    omega
  unfold remainder
  rw [hlen, List.drop_length_add_append]

namespace FxHasher

def words (bytes : List (BitVec 8)) : List (BitVec 64) :=
  (chunksExact bytes).map fromLeBytes ++
    if !(remainder bytes).isEmpty then [fromLeBytes (padded (remainder bytes))] else []

/-- `write` adds its words one after the other. -/
theorem write_eq_foldl (h : FxHasher) (bytes : List (BitVec 8)) :
    h.write bytes = (words bytes).foldl add h := by
  simp only [write, words, List.foldl_append, List.foldl_map]
  split <;> rfl

theorem words_append (ha : 8 ∣ a.length) : words (a ++ b) = words a ++ words b := by
  have hrem : remainder a = [] := by
    unfold remainder
    rw [Nat.mul_div_cancel' ha, List.drop_length]
  unfold words
  rw [chunksExact_append ha, remainder_append ha, hrem, List.map_append]
  simp

/-- A word of up to eight bytes. -/
theorem words_short (hc : c ≠ []) (hlen : c.length ≤ 8) : words c = [fromLeBytes (padded c)] := by
  have hpos := List.length_pos_iff.mpr hc
  rcases Nat.lt_or_ge c.length 8 with hlt | hge
  · have hdiv : c.length / 8 = 0 := by omega
    simp [words, chunksExact, remainder, hdiv, hc]
  · have heq : c.length = 8 := by omega
    have hpad : padded c = c := by simp [padded, heq]
    have htake : c.take 8 = c := List.take_of_length_le hlen
    have hdrop : c.drop 8 = [] := List.drop_eq_nil_of_le (by omega)
    simp [words, chunksExact, remainder, heq, hpad, htake, hdrop]

/-- `write` in two parts, the first a number of whole words. -/
theorem write_append (h : FxHasher) (ha : 8 ∣ a.length) :
    h.write (a ++ b) = (h.write a).write b := by
  rw [write_eq_foldl, write_eq_foldl, write_eq_foldl, words_append ha, List.foldl_append]

/-! ## Collisions -/

/-- The rotation loses nothing. -/
theorem rotateLeft_injective : Function.Injective fun x : BitVec 64 => x.rotateLeft 5 := by
  intro x y h
  apply BitVec.eq_of_getElem_eq
  intro i hi
  -- bit `i` is bit `i + 5` behind the rotation, or has come round to the front
  rcases Nat.lt_or_ge (i + 5) 64 with hlt | hge
  · have hbit := congrArg (fun z : BitVec 64 => z.getLsbD (i + 5)) h
    have hback : ¬ i + 5 < 5 := by omega
    simpa [BitVec.getLsbD_rotateLeft, hlt, hback] using hbit
  · have hbit := congrArg (fun z : BitVec 64 => z.getLsbD (i - 59)) h
    have hfront : i - 59 < 5 := by omega
    have hback : 59 + (i - 59) = i := by omega
    rw [← BitVec.getLsbD_eq_getElem, ← BitVec.getLsbD_eq_getElem]
    simpa [BitVec.getLsbD_rotateLeft, hfront, hback] using hbit

/-- The seed is odd, so that the multiplication loses nothing. -/
theorem mul_fxSeed_injective : Function.Injective fun x : BitVec 64 => x * fxSeed := by
  intro x y h
  have hinv := congrArg (· * (0x2040003d780970bd : BitVec 64)) h
  simpa only [BitVec.mul_assoc, fxSeed_mul_inv, BitVec.mul_one] using hinv

/-- A step loses neither the state nor the word. -/
theorem mixing : Lib.Mixing add where
  state word h h' heq := by
    have hhash := mul_fxSeed_injective (congrArg hash heq)
    have hrot := rotateLeft_injective ((BitVec.xor_left_inj word).mp hhash)
    cases h
    cases h'
    exact congrArg mk hrot
  word h := by
    constructor
    · intro word word' heq
      have hhash := mul_fxSeed_injective (congrArg hash heq)
      exact (BitVec.xor_right_inj (h.hash.rotateLeft 5)).mp hhash
    · intro target
      refine ⟨h.hash.rotateLeft 5 ^^^ target.hash * 0x2040003d780970bd, ?_⟩
      have hback : (0x2040003d780970bd : BitVec 64) * fxSeed = 1#64 := by
        rw [BitVec.mul_comm, fxSeed_mul_inv]
      show (⟨_⟩ : FxHasher) = target
      rw [← BitVec.xor_assoc, BitVec.xor_self, BitVec.zero_xor, BitVec.mul_assoc, hback,
        BitVec.mul_one]

/-- **A changed word is seen.** Two inputs of the same length that differ in the bytes of one word
only, which may be the last and incomplete, never have the same hash. -/
theorem write_ne (h : FxHasher) (ha : 8 ∣ a.length) (hlen : c.length = c'.length)
    (hword : c.length = 8 ∨ c.length < 8 ∧ b = []) (hne : c ≠ c') :
    (h.write (a ++ c ++ b)).finish ≠ (h.write (a ++ c' ++ b)).finish := by
  have hle : c.length ≤ 8 := by omega
  have hnil : c ≠ [] ∧ c' ≠ [] := by
    constructor <;> rintro rfl
    · exact hne (List.length_eq_zero_iff.mp hlen.symm).symm
    · exact hne (List.length_eq_zero_iff.mp hlen)
  have hsplit (d : List (BitVec 8)) (hd : d ≠ []) (hdc : d.length = c.length) :
      words (a ++ d ++ b) = words a ++ fromLeBytes (padded d) :: words b := by
    rw [List.append_assoc, words_append ha]
    congr 1
    rcases hword with h8 | ⟨-, rfl⟩
    · rw [words_append (by omega), words_short hd (by omega)]
      rfl
    · rw [List.append_nil, words_short hd (by omega)]
      rfl
  intro heq
  have hsame : h.write (a ++ c ++ b) = h.write (a ++ c' ++ b) := congrArg mk heq
  rw [write_eq_foldl, write_eq_foldl, hsplit c hnil.1 rfl, hsplit c' hnil.2 hlen.symm] at hsame
  refine mixing.foldl_ne h _ _ (fun hw => hne ?_) hsame
  have hpad : padded c = padded c' :=
    fromLeBytes_injective (by simp [padded, hlen]) (by simp [padded]; omega) hw
  exact List.append_inj_left hpad hlen

theorem last_byte_seen : (default.write ([] ++ [104, 105] ++ [])).finish ≠
    (default.write ([] ++ [104, 106] ++ [])).finish :=
  write_ne default ⟨0, rfl⟩ rfl (.inr ⟨by decide, rfl⟩) (by decide)

/-- **Exactly one word makes up for any other.** Behind any other beginning of whole words there is
exactly one choice of the next eight bytes that leads to the same hash, whatever follows. -/
theorem existsUnique_write (h h' : FxHasher) (ha : 8 ∣ a.length) (hc : c.length = 8)
    (a' : List (BitVec 8)) (ha' : 8 ∣ a'.length) :
    ∃! c' : List (BitVec 8), c'.length = 8 ∧
      (h'.write (a' ++ c' ++ b)).finish = (h.write (a ++ c ++ b)).finish := by
  have hfold (k : FxHasher) (d e : List (BitVec 8)) (hd : 8 ∣ d.length) (he : e.length = 8) :
      k.write (d ++ e ++ b) = (words d ++ fromLeBytes e :: words b).foldl add k := by
    have hne : e ≠ [] := by
      rintro rfl
      cases he
    have hpad : padded e = e := by simp [padded, he]
    rw [write_eq_foldl, List.append_assoc, words_append hd, words_append (by omega),
      words_short hne (by omega), hpad]
    rfl
  obtain ⟨w, hw, huniq⟩ := mixing.existsUnique_foldl
    ((words a ++ [fromLeBytes c]).foldl add h) h' (words a') (words b)
  have hgoal (e : List (BitVec 8)) (he : e.length = 8) :
      (h'.write (a' ++ e ++ b)).finish = (h.write (a ++ c ++ b)).finish ↔ fromLeBytes e = w := by
    have htarget : (words a ++ fromLeBytes c :: words b).foldl add h =
        (words b).foldl add ((words a ++ [fromLeBytes c]).foldl add h) := by
      rw [← List.foldl_append, List.append_assoc]
      rfl
    constructor
    · intro heq
      apply huniq
      have hsame : h'.write (a' ++ e ++ b) = h.write (a ++ c ++ b) := congrArg mk heq
      rwa [hfold h' a' e ha' he, hfold h a c ha hc, htarget] at hsame
    · intro heq
      rw [hfold h' a' e ha' he, hfold h a c ha hc, htarget, heq]
      exact congrArg finish hw
  have hlen := length_toLeBytes 8 w.toNat
  refine ⟨toLeBytes 8 w.toNat, ⟨hlen, (hgoal _ hlen).mpr (fromLeBytes_toLeBytes w)⟩, ?_⟩
  intro e he
  obtain ⟨he8, heq⟩ := he
  apply fromLeBytes_injective (by rw [he8, hlen]) (by omega)
  rw [(hgoal e he8).mp heq, fromLeBytes_toLeBytes]

theorem second_word_made_up : ∃! c : List (BitVec 8), c.length = 8 ∧
    (default.write ([1, 2, 3, 4, 5, 6, 7, 8] ++ c ++ [9])).finish =
      (default.write ([] ++ [8, 7, 6, 5, 4, 3, 2, 1] ++ [9])).finish :=
  existsUnique_write default default ⟨0, rfl⟩ rfl [1, 2, 3, 4, 5, 6, 7, 8] ⟨1, rfl⟩

/-! ## Padding -/

/-- Two tails that are padded to one word differ by zeros at the end. -/
theorem padded_eq_of_le (hle : c.length ≤ c'.length) (h8 : c'.length ≤ 8)
    (h : padded c = padded c') : c' = c ++ List.replicate (c'.length - c.length) 0 := by
  have htake := congrArg (List.take c'.length) h
  rw [padded, padded, List.take_append_of_le_length (Nat.le_refl c'.length), List.take_length,
    List.take_append, List.take_of_length_le hle, List.take_replicate] at htake
  rw [show min (c'.length - c.length) (8 - c.length) = c'.length - c.length by omega] at htake
  exact htake.symm

/-- Zeros behind a tail are lost in its padding. -/
theorem padded_append_zeros (n : Nat) (h8 : c.length + n ≤ 8) :
    padded (c ++ List.replicate n 0) = padded c := by
  unfold padded
  rw [List.length_append, List.length_replicate, List.append_assoc, List.replicate_append_replicate,
    show n + (8 - (c.length + n)) = 8 - c.length by omega]

/-- **Padding collides, and nothing else.** Two inputs with the same whole words in front and a last
word of one to eight bytes have the same hash exactly when one is the other with zeros behind it. -/
theorem write_tail_eq_iff (h : FxHasher) (ha : 8 ∣ a.length) (hc : c ≠ [] ∧ c.length ≤ 8)
    (hc' : c' ≠ [] ∧ c'.length ≤ 8) :
    (h.write (a ++ c)).finish = (h.write (a ++ c')).finish ↔
      ∃ n, c' = c ++ List.replicate n 0 ∨ c = c' ++ List.replicate n 0 := by
  have hlast (d : List (BitVec 8)) (hd : d ≠ [] ∧ d.length ≤ 8) :
      h.write (a ++ d) = (h.write a).add (fromLeBytes (padded d)) := by
    rw [write_append h ha, write_eq_foldl _ d, words_short hd.1 hd.2]
    rfl
  rw [hlast c hc, hlast c' hc']
  constructor
  · intro heq
    have hword := (mixing.word (h.write a)).injective (congrArg mk heq)
    have hpad : padded c = padded c' :=
      fromLeBytes_injective (by simp [padded]; omega) (by simp [padded]; omega) hword
    rcases Nat.le_total c.length c'.length with hle | hle
    · exact ⟨_, .inl (padded_eq_of_le hle hc'.2 hpad)⟩
    · exact ⟨_, .inr (padded_eq_of_le hle hc.2 hpad.symm)⟩
  · intro hzeros
    obtain ⟨n, heq | heq⟩ := hzeros
    · have hlen := congrArg List.length heq
      rw [List.length_append, List.length_replicate] at hlen
      rw [heq, padded_append_zeros n (by omega)]
    · have hlen := congrArg List.length heq
      rw [List.length_append, List.length_replicate] at hlen
      rw [heq, padded_append_zeros n (by omega)]

theorem zero_byte_unseen : (default.write ([] ++ [104, 105])).finish =
    (default.write ([] ++ [104, 105, 0])).finish :=
  (write_tail_eq_iff default ⟨0, rfl⟩ ⟨by decide, by decide⟩ ⟨by decide, by decide⟩).mpr
    ⟨1, .inl rfl⟩

/-! ## Keys of one word -/

/-- `u64` keys are hashed as their bytes are. -/
theorem writeU64_eq_write (h : FxHasher) (value : BitVec 64) :
    h.writeU64 value = h.write (toLeBytes 8 value.toNat) := by
  have hlen := length_toLeBytes 8 value.toNat
  have hne : toLeBytes 8 value.toNat ≠ [] := by
    intro hnil
    rw [hnil] at hlen
    cases hlen
  have hpad : padded (toLeBytes 8 value.toNat) = toLeBytes 8 value.toNat := by
    simp [padded, hlen]
  rw [write_eq_foldl, words_short hne (by omega), hpad, fromLeBytes_toLeBytes]
  rfl

/-- Different keys of one word have different hashes. -/
theorem writeU64_injective (h : FxHasher) : Function.Injective fun k => (h.writeU64 k).finish := by
  intro k k' heq
  exact (mixing.word h).injective (congrArg mk heq)

end FxHasher

@[reducible] def buildFx : Hashable (BitVec 64) :=
  ⟨fun k => .ofBitVec (FxHasher.default.writeU64 k).finish⟩

/-- `u64` keys with the table's own hasher. -/
instance instKeyU64 : Key (BitVec 64) where
  toBEq := instBEqOfDecidableEq
  toHashable := buildFx
  equivBEq := instEquivBEqOfLawfulBEq
  lawfulHashable := @LawfulHashable.mk _ _ buildFx fun k k' h => by rw [eq_of_beq h]
  clone := id
  clone_beq k := beq_self_eq_true (id k)

end Observe
