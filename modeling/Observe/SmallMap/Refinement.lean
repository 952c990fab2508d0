import Observe.SmallMap

/-!
# The key table is a finite map

Every history of insertions and removals, run on the two-form table and on a partial function from
keys to entries, gives the same answers and the same contents, whichever form the table is in.
-/

namespace Observe

variable {K : Type} [Key K] {bits : Nat}

/-! ## The reference map -/

/-- A map from keys to entries that does not tell equal keys apart. -/
structure Table (K : Type) [Key K] (bits : Nat) where
  find : K → Option (SlotEntry bits)
  congr : ∀ {k k' : K}, (k == k') = true → find k = find k'

namespace Table

def empty : Table K bits where
  find _ := none
  congr _ := rfl

theorem beq_congr {k k' : K} (h : (k == k') = true) (key : K) : (key == k) = (key == k') := by
  cases hk : key == k' with
  | true => exact BEq.trans hk (BEq.symm h)
  | false =>
    by_contra hne
    rw [BEq.trans (by simpa using hne) h] at hk
    cases hk

def insert (f : Table K bits) (key : K) (entry : SlotEntry bits) : Table K bits where
  find k := if key == k then some entry else f.find k
  congr h := by rw [beq_congr h key, f.congr h]

def erase (f : Table K bits) (key : K) : Table K bits where
  find k := if key == k then none else f.find k
  congr h := by rw [beq_congr h key, f.congr h]

def current (f : Table K bits) (key : K) (generation : BitVec bits) : Bool :=
  (f.find key).any fun e => e.generation == generation

def removeIf (f : Table K bits) (key : K) (generation : BitVec bits) : Table K bits × Bool :=
  if f.current key generation then (f.erase key, true) else (f, false)

end Table

/-! ## Histories -/

inductive TableOp (K : Type) (bits : Nat) where
  | insertVacant (key : K) (entry : SlotEntry bits)
  | removeIf (key : K) (generation : BitVec bits)

abbrev TableRes := Option Bool

def SmallMap.exec (m : SmallMap K bits) : TableOp K bits → SmallMap K bits × TableRes
  | .insertVacant key entry => (m.insertVacant key entry, none)
  | .removeIf key generation => ((m.removeIf key generation).1, some (m.removeIf key generation).2)

def SmallMap.run (m : SmallMap K bits) : List (TableOp K bits) → SmallMap K bits × List TableRes
  | [] => (m, [])
  | op :: ops => (((m.exec op).1.run ops).1, (m.exec op).2 :: ((m.exec op).1.run ops).2)

/-- `insert_vacant` is called only where `is_vacant` holds. -/
def SmallMap.Guarded (m : SmallMap K bits) : List (TableOp K bits) → Prop
  | [] => True
  | op :: ops =>
    (∀ key entry, op = .insertVacant key entry → m.isVacant key = true) ∧ (m.exec op).1.Guarded ops

def Table.exec (f : Table K bits) : TableOp K bits → Table K bits × TableRes
  | .insertVacant key entry => (f.insert key entry, none)
  | .removeIf key generation => ((f.removeIf key generation).1, some (f.removeIf key generation).2)

def Table.run (f : Table K bits) : List (TableOp K bits) → Table K bits × List TableRes
  | [] => (f, [])
  | op :: ops => (((f.exec op).1.run ops).1, (f.exec op).2 :: ((f.exec op).1.run ops).2)

/-! ## Refinement -/

structure SmallMap.Refines (m : SmallMap K bits) (f : Table K bits) : Prop where
  ok : m.Ok
  get : ∀ k, m.get k = f.find k

namespace SmallMap.Refines

variable {m : SmallMap K bits} {f : Table K bits}

theorem empty : (SmallMap.empty : SmallMap K bits).Refines Table.empty := ⟨ok_empty, get_empty⟩

/-- `is_vacant` tells whether the map has no entry. -/
theorem isVacant (h : m.Refines f) (key : K) : m.isVacant key = (f.find key).isNone := by
  rw [Bool.eq_iff_iff, m.isVacant_iff, h.get, Option.isNone_iff_eq_none]

/-- `remove_if` succeeds when the generation is the current one. -/
theorem removed (h : m.Refines f) (key : K) (generation : BitVec bits) :
    (m.removeIf key generation).2 = f.current key generation := by
  rw [m.removeIf_snd, h.get]
  rfl

/-- An insert under a vacant key is an insert into the map. -/
theorem insertVacant (h : m.Refines f) {key : K} (hv : m.isVacant key = true)
    (entry : SlotEntry bits) : (m.insertVacant key entry).Refines (f.insert key entry) := by
  have hnone : m.get key = none := (m.isVacant_iff key).mp hv
  constructor
  · exact h.ok.insertVacant hnone entry
  · intro k
    rw [get_insertVacant h.ok hnone, h.get]
    rfl

/-- A removal is one from the map. -/
theorem removeIf (h : m.Refines f) (key : K) (generation : BitVec bits) :
    (m.removeIf key generation).1.Refines (f.removeIf key generation).1 := by
  have hsnd := h.removed key generation
  unfold Table.removeIf
  cases hc : f.current key generation with
  | false =>
    -- nothing is removed, and nothing moves
    rw [removeIf_eq_of_not (hsnd.trans hc)]
    exact h
  | true =>
    constructor
    · exact h.ok.removeIf key generation
    · intro k
      rw [get_removeIf h.ok (hsnd.trans hc), h.get]
      rfl

/-- One call: the same answer, and contents that still agree. -/
theorem exec (h : m.Refines f) (op : TableOp K bits)
    (hguard : ∀ key entry, op = .insertVacant key entry → m.isVacant key = true) :
    (m.exec op).1.Refines (f.exec op).1 ∧ (m.exec op).2 = (f.exec op).2 := by
  cases op with
  | insertVacant key entry => exact ⟨h.insertVacant (hguard key entry rfl) entry, rfl⟩
  | removeIf key generation =>
    refine ⟨h.removeIf key generation, ?_⟩
    show some (m.removeIf key generation).2 = some (f.removeIf key generation).2
    rw [h.removed]
    unfold Table.removeIf
    cases f.current key generation <;> rfl

/-- Along a sequence of calls the table returns what the map does. -/
theorem run (h : m.Refines f) (ops : List (TableOp K bits)) (hguard : m.Guarded ops) :
    (m.run ops).1.Refines (f.run ops).1 ∧ (m.run ops).2 = (f.run ops).2 := by
  induction ops generalizing m f with
  | nil => exact ⟨h, rfl⟩
  | cons op ops ih =>
    have hexec := h.exec op hguard.1
    have hrest := ih hexec.1 hguard.2
    refine ⟨hrest.1, ?_⟩
    show (m.exec op).2 :: _ = (f.exec op).2 :: _
    rw [hexec.2, hrest.2]

end SmallMap.Refines

/-- **The table refines a finite map.** Over every guarded history from the default table: the
answers are those of the map; `get` and `is_vacant` read the map; the inline form holds no key twice
and at most `INLINE_CAP` pairs; and the next `remove_if` removes an entry exactly when the key's
current entry has the generation, and otherwise changes nothing. -/
theorem smallMap_refines (ops : List (TableOp K bits))
    (hguard : (SmallMap.empty : SmallMap K bits).Guarded ops) :
    let m := ((SmallMap.empty : SmallMap K bits).run ops).1
    let f := ((Table.empty : Table K bits).run ops).1
    ((SmallMap.empty : SmallMap K bits).run ops).2 = ((Table.empty : Table K bits).run ops).2 ∧
      m.Ok ∧ (∀ k, m.get k = f.find k) ∧ (∀ k, m.isVacant k = (f.find k).isNone) ∧
      ∀ k g, (m.removeIf k g).2 = f.current k g ∧
        (f.current k g = true → ∀ k', (m.removeIf k g).1.get k' = (f.erase k).find k') ∧
        (f.current k g = false → (m.removeIf k g).1 = m) := by
  intro m f
  have hrun := SmallMap.Refines.empty.run ops hguard
  have href : m.Refines f := hrun.1
  refine ⟨hrun.2, href.ok, href.get, href.isVacant, fun k g => ⟨href.removed k g, ?_, ?_⟩⟩
  · intro hc k'
    rw [SmallMap.get_removeIf href.ok ((href.removed k g).trans hc), href.get]
    rfl
  · intro hc
    exact SmallMap.removeIf_eq_of_not ((href.removed k g).trans hc)

/-- Five keys go in, so that the table is promoted; a removal with the wrong generation fails, and
one with the right generation succeeds. -/
def promotionOps : List (TableOp Nat 64) :=
  [.insertVacant 1 ⟨1, 0, 1⟩, .insertVacant 2 ⟨2, 1, 2⟩, .insertVacant 3 ⟨3, 2, 3⟩,
    .insertVacant 4 ⟨4, 3, 4⟩, .insertVacant 5 ⟨5, 4, 5⟩, .removeIf 2 9, .removeIf 2 2]

theorem smallMap_refines_promotion :
    ((SmallMap.empty : SmallMap Nat 64).run promotionOps).2 =
        [none, none, none, none, none, some false, some true] ∧
      ((SmallMap.empty : SmallMap Nat 64).run promotionOps).1.get 2 = none ∧
      ((SmallMap.empty : SmallMap Nat 64).run promotionOps).1.get 3 = some ⟨3, 2, 3⟩ := by
  have hguard : (SmallMap.empty : SmallMap Nat 64).Guarded promotionOps := by
    -- every insertion comes while the table is still inline
    refine ⟨?_, ?_, ?_, ?_, ?_, nofun, nofun, trivial⟩ <;>
    · intro key entry h
      cases h
      rfl
  have href := smallMap_refines promotionOps hguard
  exact ⟨href.1, (href.2.2.1 2).trans rfl, (href.2.2.1 3).trans rfl⟩

end Observe
