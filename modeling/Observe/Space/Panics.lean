import Observe.Space.Events
import Observe.Space.RegisterCall

/-!
# Panics of a key

`Eq`, `Hash` and `Clone` of `K` are user code that runs under the entries lock, and every panic there
unwinds out of the section.  One in `is_vacant` drops the popped slot; one in `insert_vacant` drops
the new one, and in a promotion every inline entry with it, so that subjects are left without an
entry; one in the `remove_if` of `Subject::drop` leaves an entry without its subject.
-/

namespace Observe

variable {K O W : Type} [Key K] {bits : Nat}

namespace World

def releaseAll (w : World K O W bits) (xs : List Owner) (locked : Bool) : World K O W bits :=
  xs.foldl (fun w x => w.release x locked) w

/-- The entries that go when `subject` unwinds at `p`. -/
def lost (w : World K O W bits) (p : PanicPoint) : List Owner :=
  match p, w.map with
  -- the drained vector and the new map are dropped, in some order
  | .promotion, .inline entries => entries.map fun e => .table e.2.gen
  | _, _ => []

/-- A call of `subject` on a vacant key before its `insert_vacant`: the number is drawn, and the
popped slot reset or a new one made. -/
def prepared (w : World K O W bits) : World K O W bits :=
  match w.pool with
  | i :: rest => w.drawNumber.recycleSlot i rest
  | [] => w.drawNumber.newSlot

/-- Such a call, with its local handle of the slot.  No generation comes of it. -/
def holding (w : World K O W bits) : World K O W bits :=
  w.prepared.claim w.registerSlot (.releasing w.registerSlot) w.map

/-- The call unwinds at `p` and leaves the table `m`; the local handle is dropped last, and still
before the guard of the lock. -/
def unwindRegister (w : World K O W bits) (p : PanicPoint) (m : SmallMap K bits) :
    World K O W bits :=
  let w₁ := { w.holding.releaseAll (w.lost p) true with map := m }
  { w₁ with auth := Function.update w₁.auth w.nextGen .gone }.release (.subject w.nextGen) true

inductive UnwindingStep [WillWake W] : World K O W bits → World K O W bits → Prop where
  /-- Among these is the panic of `is_vacant`.  One in `observe` changes nothing. -/
  | step {w w'} (h : Step w w') : UnwindingStep w w'
  /-- `Clone` in `subject`, or `Eq` or `Hash` in its `insert_vacant`. -/
  | register {w c p} (key : K) (hspace : 0 < w.spaces) (hc : w.RegisterReaches key c)
      (hpc : c.pc = .unwinding p) (hp : p = .clone ∨ p = .promotion ∨ p = .insertion) :
      UnwindingStep w (w.unwindRegister p c.map)
  /-- `Eq` or `Hash` in `remove_if`; the fields of the `Subject` are dropped all the same. -/
  | remove {w g k n i c} (ha : w.auth g = .subject k n i c)
      (hrest : (w.slots i).comp.resting = true) :
      UnwindingStep w { w with auth := Function.update w.auth g (.retired i) }
  /-- The drop of `Inner` drops what is left in the table. -/
  | dropEntry {w k e} (hinner : w.InnerDropped) (hget : w.map.get k = some e) :
      UnwindingStep w
        ({ w with map := (w.map.removeIf k e.generation).1 }.release (.table e.gen) false)

end World

def unwindingSystem (K O W : Type) [Key K] [WillWake W] (bits : Nat) :
    Lib.System (World K O W bits) where
  init w := ∃ e, w = World.new e
  step := World.UnwindingStep

end Observe
