import Observe.Waiter
import Std.Data.HashMap.Lemmas
import Mathlib.Data.List.Perm.Basic

/-!
# The key table

`SmallMap<K, O>`: an inline vector of at most four entries, promoted to a hash map by the fifth and
never demoted.  The table's meaning is the partial function `get`; the two forms agree on it as long
as the inline vector holds no key twice.
-/

namespace Observe

/-- A slot's address: one allocation, for as long as the program runs. -/
abbrev SlotId := Nat

/-- Keys with lawful `Eq`, `Hash` and `Clone`. -/
class Key (K : Type) extends BEq K, Hashable K where
  equivBEq : EquivBEq K
  lawfulHashable : LawfulHashable K
  clone : K → K
  clone_beq : ∀ k, (clone k == k) = true

instance instEquivBEqOfKey {K : Type} [Key K] : EquivBEq K := Key.equivBEq
instance instLawfulHashableOfKey {K : Type} [Key K] : LawfulHashable K := Key.lawfulHashable

instance instKeyNat : Key Nat where
  toBEq := instBEqOfDecidableEq
  toHashable := instHashableNat
  equivBEq := instEquivBEqOfLawfulBEq
  lawfulHashable := instLawfulHashableOfLawfulBEq
  clone := id
  clone_beq k := beq_self_eq_true (id k)

/-- `generation` is the code's `usize`; `gen` tells apart the generations it may count twice. -/
structure SlotEntry (bits : Nat) where
  generation : BitVec bits
  slot : SlotId
  gen : Gen
deriving DecidableEq

def inlineCap : Nat := 4

inductive SmallMap (K : Type) [Key K] (bits : Nat) where
  | inline (entries : List (K × SlotEntry bits))
  | hash (map : Std.HashMap K (SlotEntry bits))

/-- `Vec::swap_remove`: the last element takes the place of the removed one. -/
def swapRemove {α : Type} (l : List α) (i : Nat) : List α :=
  match l.getLast? with
  | none => []
  | some x => (l.set i x).dropLast

namespace SmallMap

variable {K : Type} [Key K] {bits : Nat}

def hasKey (key : K) (e : K × SlotEntry bits) : Bool := e.1 == key

def KeysDistinct (entries : List (K × SlotEntry bits)) : Prop :=
  entries.Pairwise fun a b => hasKey b.1 a = false

def empty : SmallMap K bits := .inline []

def get (m : SmallMap K bits) (key : K) : Option (SlotEntry bits) :=
  match m with
  | .inline entries => (entries.find? (hasKey key)).map Prod.snd
  | .hash map => map[key]?

def isVacant (m : SmallMap K bits) (key : K) : Bool :=
  match m with
  | .inline entries => !entries.any (hasKey key)
  | .hash map => !map.contains key

def insertVacant (m : SmallMap K bits) (key : K) (entry : SlotEntry bits) : SmallMap K bits :=
  match m with
  | .inline entries =>
    -- the new key goes in behind the promoted ones
    if inlineCap ≤ entries.length then
      .hash ((Std.HashMap.ofList entries).insert key entry)
    else .inline (entries ++ [(key, entry)])
  | .hash map => .hash (map.insert key entry)

def removeIf (m : SmallMap K bits) (key : K) (generation : BitVec bits) : SmallMap K bits × Bool :=
  match m with
  | .inline entries =>
    match entries.findIdx? (hasKey key) with
    | some index =>
      -- `position` has found the first entry of the key, and no other one is compared
      if (entries[index]?.any fun e => e.2.generation == generation) then
        (.inline (swapRemove entries index), true)
      else (m, false)
    | none => (m, false)
  | .hash map =>
    if (map[key]?.any fun entry => entry.generation == generation) then
      (.hash (map.erase key), true)
    else (m, false)

/-- The inline form holds no key twice, and at most four entries. -/
def Ok : SmallMap K bits → Prop
  | .inline entries => KeysDistinct entries ∧ entries.length ≤ inlineCap
  | .hash _ => True

end SmallMap

/-! ## `swap_remove` -/

/-- Up to the order of the others, `swap_remove` removes one element. -/
theorem swapRemove_perm {α : Type} {l : List α} {i : Nat} (hi : i < l.length) :
    (swapRemove l i).Perm (l.eraseIdx i) := by
  obtain ⟨init, x, rfl⟩ := (List.eq_nil_or_concat' l).resolve_left (by rintro rfl; simp at hi)
  have hlast : swapRemove (init ++ [x]) i = ((init ++ [x]).set i x).dropLast := by
    simp [swapRemove]
  rw [hlast]
  rcases Nat.lt_or_ge i init.length with hlt | hge
  · rw [List.set_append_left _ _ hlt, List.dropLast_concat, List.eraseIdx_append_of_lt_length hlt]
    exact (List.set_perm_cons_eraseIdx hlt x).trans (List.perm_append_singleton x _).symm
  · have hi' : i = init.length := by
      rw [List.length_append, List.length_singleton] at hi
      omega
    subst hi'
    simp [List.eraseIdx_append_of_length_le]

theorem length_swapRemove {α : Type} {l : List α} {i : Nat} (hi : i < l.length) :
    (swapRemove l i).length = l.length - 1 := by
  rw [(swapRemove_perm hi).length_eq, List.length_eraseIdx_of_lt hi]

namespace SmallMap

variable {K : Type} [Key K] {bits : Nat}

/-! ## The inline form -/

theorem hasKey_congr {k k' : K} (h : (k == k') = true) (e : K × SlotEntry bits) :
    hasKey k e = hasKey k' e := by
  cases hk : hasKey k' e with
  | true => exact BEq.trans hk (BEq.symm h)
  | false =>
    cases hk' : hasKey k e with
    | false => rfl
    | true => rw [show hasKey k' e = true from BEq.trans hk' h] at hk; cases hk

/-- Two entries with one key share it. -/
theorem hasKey_trans {a b : K × SlotEntry bits} {k : K} (ha : hasKey k a = true)
    (hb : hasKey k b = true) : hasKey b.1 a = true :=
  BEq.trans ha (BEq.symm hb)

/-- A key is found first at its only entry. -/
theorem find?_eq_some_of_mem {l : List (K × SlotEntry bits)} (hd : KeysDistinct l)
    {e : K × SlotEntry bits} (he : e ∈ l) {k : K} (hk : hasKey k e = true) :
    l.find? (hasKey k) = some e := by
  induction l with
  | nil => cases he
  | cons a l ih =>
    obtain ⟨ha, hd⟩ := List.pairwise_cons.mp hd
    rcases List.mem_cons.mp he with rfl | he
    · exact List.find?_cons_of_pos hk
    · have hak : ¬ hasKey k a = true := by
        intro hak
        have hae := hasKey_trans hak hk
        rw [ha e he] at hae
        cases hae
      rw [List.find?_cons_of_neg hak]
      exact ih hd he

theorem KeysDistinct.perm {l l' : List (K × SlotEntry bits)} (hd : KeysDistinct l)
    (hp : l.Perm l') : KeysDistinct l' :=
  hp.pairwise hd fun {a b} h => by
    have hcomm : hasKey a.1 b = hasKey b.1 a := BEq.comm
    rw [hcomm]
    exact h

/-- Lookup does not depend on the order of entries with different keys. -/
theorem find?_perm {l l' : List (K × SlotEntry bits)} (hp : l.Perm l') (hd : KeysDistinct l)
    (k : K) : l.find? (hasKey k) = l'.find? (hasKey k) := by
  cases hf : l.find? (hasKey k) with
  | some e =>
    have hmem := hp.mem_iff.mp (List.mem_of_find?_eq_some hf)
    exact (find?_eq_some_of_mem (hd.perm hp) hmem (List.find?_some hf)).symm
  | none =>
    rw [List.find?_eq_none] at hf
    symm
    rw [List.find?_eq_none]
    exact fun e he => hf e (hp.mem_iff.mpr he)

/-- Removing the first entry of a key removes the key and nothing else. -/
theorem find?_eraseIdx {l : List (K × SlotEntry bits)} (hd : KeysDistinct l) {key : K} {i : Nat}
    (hi : l.findIdx? (hasKey key) = some i) (k : K) :
    (l.eraseIdx i).find? (hasKey k) = if key == k then none else l.find? (hasKey k) := by
  induction l generalizing i with
  | nil => cases hi
  | cons a l ih =>
    obtain ⟨ha, hd⟩ := List.pairwise_cons.mp hd
    rw [List.findIdx?_cons] at hi
    split at hi
    · rename_i hak
      cases hi
      rw [List.eraseIdx_cons_zero]
      split
      · rename_i hkk
        rw [List.find?_eq_none]
        intro e he hek
        rw [← hasKey_congr hkk] at hek
        have hae := hasKey_trans hak hek
        rw [ha e he] at hae
        cases hae
      · rename_i hkk
        rw [List.find?_cons_of_neg]
        intro hak'
        exact hkk (BEq.trans (BEq.symm hak) hak')
    · rename_i hak
      obtain ⟨j, hj, rfl⟩ := Option.map_eq_some_iff.mp hi
      rw [List.eraseIdx_cons_succ]
      by_cases hak' : hasKey k a = true
      · have hkk : ¬ (key == k) = true := fun hkk => hak (by rwa [hasKey_congr hkk])
        rw [List.find?_cons_of_pos hak', if_neg hkk, List.find?_cons_of_pos hak']
      · rw [List.find?_cons_of_neg hak', ih hd hj, List.find?_cons_of_neg hak']

/-! ## Both forms -/

@[simp] theorem get_empty (k : K) : (empty : SmallMap K bits).get k = none := rfl

theorem ok_empty : (empty : SmallMap K bits).Ok := ⟨List.Pairwise.nil, Nat.zero_le _⟩

/-- Equal keys find the same entry. -/
theorem get_congr (m : SmallMap K bits) {k k' : K} (h : (k == k') = true) :
    m.get k = m.get k' := by
  cases m with
  | inline entries =>
    have hfun : (hasKey k : K × SlotEntry bits → Bool) = hasKey k' := funext (hasKey_congr h)
    simp only [get, hfun]
  | hash map => exact Std.HashMap.getElem?_congr h

/-- A key is vacant when nothing is found under it. -/
theorem isVacant_iff (m : SmallMap K bits) (key : K) :
    m.isVacant key = true ↔ m.get key = none := by
  cases m with
  | inline entries => simp [isVacant, get]
  | hash map => simp [isVacant, get]

/-- The new key's entry is found, also when the insertion promotes the table; the others stay. -/
theorem get_insertVacant {m : SmallMap K bits} (hm : m.Ok) {key : K} (hv : m.get key = none)
    (entry : SlotEntry bits) (k : K) :
    (m.insertVacant key entry).get k = if key == k then some entry else m.get k := by
  cases m with
  | hash map => exact Std.HashMap.getElem?_insert
  | inline entries =>
    have hnone : entries.find? (hasKey key) = none := by simpa [get] using hv
    by_cases hcap : inlineCap ≤ entries.length
    · -- the promotion moves every entry into the hash map
      have hpromote : (inline entries).insertVacant key entry =
          .hash ((Std.HashMap.ofList entries).insert key entry) := if_pos hcap
      have hold : (Std.HashMap.ofList entries)[k]? = (inline entries).get k := by
        cases hf : entries.find? (hasKey k) with
        | some e =>
          simp only [get, hf]
          exact Std.HashMap.getElem?_ofList_of_mem (List.find?_some hf : hasKey k e = true) hm.1
            (List.mem_of_find?_eq_some hf)
        | none =>
          simp only [get, hf]
          refine Std.HashMap.getElem?_ofList_of_contains_eq_false ?_
          rw [List.find?_eq_none] at hf
          by_contra hc
          rw [Bool.not_eq_false, List.contains_iff_exists_mem_beq] at hc
          obtain ⟨k', hk', hkk⟩ := hc
          obtain ⟨e, he, rfl⟩ := List.mem_map.mp hk'
          exact hf e he (BEq.symm hkk)
      rw [hpromote, ← hold]
      exact Std.HashMap.getElem?_insert
    · have hpush : (inline entries).insertVacant key entry = .inline (entries ++ [(key, entry)]) :=
        if_neg hcap
      rw [hpush]
      simp only [get, List.find?_append]
      by_cases hk : (key == k) = true
      · have hnone' : entries.find? (hasKey k) = none := by
          rwa [← funext (hasKey_congr hk)]
        simp [hnone', hasKey, hk]
      · simp [hasKey, hk]

/-- An insert under a vacant key keeps the table in order, promoted or not. -/
theorem Ok.insertVacant {m : SmallMap K bits} (hm : m.Ok) {key : K} (hv : m.get key = none)
    (entry : SlotEntry bits) : (m.insertVacant key entry).Ok := by
  cases m with
  | hash map => trivial
  | inline entries =>
    by_cases hcap : inlineCap ≤ entries.length
    · rw [show (inline entries).insertVacant key entry = _ from if_pos hcap]
      trivial
    · rw [show (inline entries).insertVacant key entry = _ from if_neg hcap]
      have hnone : entries.find? (hasKey key) = none := by simpa [get] using hv
      rw [List.find?_eq_none] at hnone
      refine ⟨List.pairwise_append.mpr ⟨hm.1, List.pairwise_singleton _ _, fun a ha b hb => ?_⟩, ?_⟩
      · rw [List.mem_singleton.mp hb]
        simpa using hnone a ha
      · rw [List.length_append, List.length_singleton]
        omega

/-- An entry is removed exactly when it is the key's current one. -/
theorem removeIf_snd (m : SmallMap K bits) (key : K) (generation : BitVec bits) :
    (m.removeIf key generation).2 = (m.get key).any fun e => e.generation == generation := by
  cases m with
  | hash map =>
    unfold removeIf
    simp only [get]
    split <;> simp_all
  | inline entries =>
    unfold removeIf
    simp only [get]
    cases hi : entries.findIdx? (hasKey key) with
    | none =>
      have hnone : entries.find? (hasKey key) = none := by
        rw [List.findIdx?_eq_none_iff] at hi
        rw [List.find?_eq_none]
        simpa using hi
      simp [hnone]
    | some i =>
      rw [List.find?_eq_bind_findIdx?_getElem?, hi, Option.bind_some]
      cases hx : entries[i]? with
      | none => simp [hx]
      | some e =>
        by_cases hg : (e.2.generation == generation) = true
        · simp [hx, hg]
        · simp [hx, hg]

/-- A removal that fails leaves the table as it was. -/
theorem removeIf_eq_of_not {m : SmallMap K bits} {key : K} {generation : BitVec bits}
    (h : (m.removeIf key generation).2 = false) : (m.removeIf key generation).1 = m := by
  cases m with
  | hash map =>
    unfold removeIf at h ⊢
    simp only at h ⊢
    split <;> simp_all
  | inline entries =>
    unfold removeIf at h ⊢
    cases hi : entries.findIdx? (hasKey key) with
    | none => simp [hi]
    | some i =>
      simp only [hi] at h ⊢
      split <;> simp_all

/-- A successful removal from the inline form is a `swap_remove` of the key's first entry. -/
theorem removeIf_inline {entries : List (K × SlotEntry bits)} {key : K}
    {generation : BitVec bits} (h : ((inline entries).removeIf key generation).2 = true) :
    ∃ i, entries.findIdx? (hasKey key) = some i ∧ i < entries.length ∧
      ((inline entries).removeIf key generation).1 = .inline (swapRemove entries i) := by
  unfold removeIf at h ⊢
  cases hi : entries.findIdx? (hasKey key) with
  | none => simp [hi] at h
  | some i =>
    have hlt : i < entries.length := (List.findIdx?_eq_some_iff_findIdx_eq.mp hi).1
    refine ⟨i, rfl, hlt, ?_⟩
    simp only [hi] at h ⊢
    split <;> simp_all

/-- A successful removal removes the key and nothing else. -/
theorem get_removeIf {m : SmallMap K bits} (hm : m.Ok) {key : K} {generation : BitVec bits}
    (h : (m.removeIf key generation).2 = true) (k : K) :
    (m.removeIf key generation).1.get k = if key == k then none else m.get k := by
  cases m with
  | hash map =>
    have hg : (map[key]?.any fun entry => entry.generation == generation) = true := by
      rw [removeIf_snd] at h
      exact h
    rw [show (hash map).removeIf key generation = _ from if_pos hg]
    exact Std.HashMap.getElem?_erase
  | inline entries =>
    obtain ⟨i, hi, hlt, heq⟩ := removeIf_inline h
    have hd : KeysDistinct (swapRemove entries i) :=
      KeysDistinct.perm (hm.1.sublist (List.eraseIdx_sublist entries i)) (swapRemove_perm hlt).symm
    rw [heq]
    simp only [get, find?_perm (swapRemove_perm hlt) hd, find?_eraseIdx hm.1 hi]
    split <;> rfl

/-- A removal keeps the table in order. -/
theorem Ok.removeIf {m : SmallMap K bits} (hm : m.Ok) (key : K) (generation : BitVec bits) :
    (m.removeIf key generation).1.Ok := by
  cases h : (m.removeIf key generation).2 with
  | false =>
    rw [removeIf_eq_of_not h]
    exact hm
  | true =>
    cases m with
    | hash map =>
      unfold SmallMap.removeIf
      simp only
      split <;> trivial
    | inline entries =>
      obtain ⟨i, -, hlt, heq⟩ := removeIf_inline h
      rw [heq]
      refine ⟨KeysDistinct.perm (hm.1.sublist (List.eraseIdx_sublist entries i))
        (swapRemove_perm hlt).symm, ?_⟩
      rw [length_swapRemove hlt]
      exact Nat.le_trans (Nat.sub_le _ _) hm.2

/-- The table `m'` is `m` without the entry of `key`. -/
structure Without (m m' : SmallMap K bits) (key : K) : Prop where
  ok : m'.Ok
  get : ∀ k, m'.get k = if key == k then none else m.get k

/-- A table without a key is without every equal one. -/
theorem Without.congr {m m' : SmallMap K bits} {key key' : K} (h : m.Without m' key)
    (hk : (key == key') = true) : m.Without m' key' := by
  refine ⟨h.ok, fun k => ?_⟩
  rw [h.get]
  have hiff : (key == k) = true ↔ (key' == k) = true :=
    ⟨BEq.trans (BEq.symm hk), BEq.trans hk⟩
  by_cases hkk : (key == k) = true
  · rw [if_pos hkk, if_pos (hiff.mp hkk)]
  · rw [if_neg hkk, if_neg (fun h => hkk (hiff.mpr h))]

/-- A removal that succeeds takes out the entry of its key. -/
theorem Ok.without_removeIf {m : SmallMap K bits} (hm : m.Ok) {key : K} {generation : BitVec bits}
    (h : (m.removeIf key generation).2 = true) : m.Without (m.removeIf key generation).1 key :=
  ⟨hm.removeIf key generation, get_removeIf hm h⟩

/-- The first inline entry goes. -/
theorem Ok.without_head {e : K × SlotEntry bits} {entries : List (K × SlotEntry bits)}
    (hm : (inline (e :: entries)).Ok) : (inline (e :: entries)).Without (.inline entries) e.1 := by
  obtain ⟨hd, hlen⟩ := hm
  have ⟨hfirst, hrest⟩ := List.pairwise_cons.mp hd
  refine ⟨⟨hrest, ?_⟩, fun k => ?_⟩
  · rw [List.length_cons] at hlen
    omega
  · by_cases hk : (e.1 == k) = true
    · -- no other entry has its key
      have hnone : entries.find? (hasKey k) = none := by
        rw [List.find?_eq_none]
        intro e' he' hk'
        have hsame : hasKey e'.1 e = true := BEq.trans hk (BEq.symm hk')
        rw [hfirst e' he'] at hsame
        cases hsame
      rw [if_pos hk]
      simp only [SmallMap.get, hnone, Option.map_none]
    · have hk' : ¬ hasKey k e = true := hk
      rw [if_neg hk]
      simp only [SmallMap.get, List.find?_cons_of_neg hk']

end SmallMap

end Observe
