import Observe.Space.History
import Observe.Memory
import Observe.Lib.RefCount

/-!
# The whole program with its reference counts in memory

`Subject::drop` and `into_outcome` look at the count of a slot before they give it away, and the
count is an atomic: a load of it may return an old value.  What the rest of the program does to the
counts is a clone, a move or a drop of a handle; every step of a call uses the slot through a handle,
and `reset`, `into_outcome` and a slot's final drop take the slot for their own.
-/

namespace Observe

open Lib

/-- The orderings of the accesses to a count, which are the business of the `Arc`. -/
structure CountOrders where
  arc : ArcOrders
  /-- The load of `Arc::strong_count`. -/
  strongCount : MemOrder
  /-- The load of `Arc::try_unwrap`. -/
  tryUnwrap : MemOrder

structure ArcWorld (K O W : Type) [Key K] (bits : Nat) where
  world : World K O W bits
  mem : ArcMem Owner SlotId

def Proc.owner {O W : Type} (s : SlotSys O W) : Proc → Owner
  | .thread t => .obs (s.via t).obs
  | .future f => .fut f
  | .completer => .subject s.gen

namespace World

variable {K O W : Type} [Key K] {bits : Nat}

/-! ## The two decisions, by the count that was read -/

def retireSeeing (w : World K O W bits) (g : Gen) (key : K) (generation : BitVec bits) (i : SlotId)
    (seen : Nat) : World K O W bits :=
  let w₁ := { w with auth := Function.update w.auth g (.retired i) }
  if (w₁.map.removeIf key generation).2 then
    let w₂ := { w₁ with map := (w₁.map.removeIf key generation).1 }
    let w₃ := match w₁.map.get key with
      | some entry => w₂.release (.table entry.gen) true
      | none => w₂
    if seen = 1 ∧ w₃.pool.length < slotPoolCap then
      { w₃ with arcs := w₃.arcs.grab (.pool i) i, pool := i :: w₃.pool }
    else w₃
  else w₁

def intoOutcomeSeeing (w : World K O W bits) (o : ObsId) (i : SlotId) (g : Gen) (seen : Nat) :
    World K O W bits × Option O :=
  if seen = 1 then (w.unwrapSlot o i g, w.unwrapped i)
  else ({ w with obs := Function.update w.obs o (.refused i g) }, none)

/-! ## What the program does to the counts -/

section Mem

variable (w : World K O W bits) (m : ArcMem Owner SlotId) (a : ArcOrders)

def dropPoppedMem : ArcMem Owner SlotId :=
  match w.pool with
  | [] => m
  | i :: _ => m.drop a (.pool i) i

def enterMem (i : SlotId) : ArcMem Owner SlotId :=
  m.clone a (.subject w.nextGen) (.table w.nextGen) i

def subjectMem (key : K) : ArcMem Owner SlotId :=
  if w.map.isVacant key then
    if w.nextGeneration = BitVec.allOnes bits then w.dropPoppedMem m a
    else
      match w.pool with
      | i :: _ => w.enterMem ((m.take (.pool i) i).move (.pool i) (.subject w.nextGen)) a i
      | [] => w.enterMem (m.make w.nextSlot) a w.nextSlot
  else m

def observeMem (key : K) : ArcMem Owner SlotId :=
  match w.map.get key with
  | some entry => m.clone a (.table entry.gen) (.obs w.nextObs) entry.slot
  | none => m

/-- The entry's handle is dropped, by the owner of the `Subject`. -/
def unlistMem (g : Gen) (i : SlotId) : ArcMem Owner SlotId :=
  ((m.join (.table g) (.subject g)).drop a (.table g) i).join (.subject g) (.table g)

def retireMem (g : Gen) (i : SlotId) (o : MemOrder) (k : Nat)
    (msg : Message (ArcLoc Owner SlotId) Nat) : ArcMem Owner SlotId :=
  let m₁ := (unlistMem m a g i).load (.subject g) i o k msg
  if msg.val = 1 ∧ w.pool.length < slotPoolCap then m₁.clone a (.subject g) (.pool i) i else m₁

def pairMem : ArcMem Owner SlotId :=
  (m.make w.nextSlot).clone a (.subject w.nextGen) (.obs w.nextObs) w.nextSlot

def intoOutcomeMem (o : ObsId) (i : SlotId) (ord : MemOrder) (k : Nat)
    (msg : Message (ArcLoc Owner SlotId) Nat) : ArcMem Owner SlotId :=
  let m₁ := m.load (.obs o) i ord k msg
  if msg.val = 1 then m₁.take (.obs o) i else m₁

end Mem

/-- The steps that move no handle and touch no slot. -/
inductive Aside [WillWake W] : World K O W bits → World K O W bits → Prop where
  | cloneSpace {w} (hspace : 0 < w.spaces) : Aside w { w with spaces := w.spaces + 1 }
  | dropSpace {w} (hspace : 0 < w.spaces) : Aside w { w with spaces := w.spaces - 1 }
  | complete {w g k n i} (v : O) (ha : w.auth g = .subject k n i false) :
      Aside w { w with
        auth := Function.update w.auth g (.subject k n i true)
        slots := Function.update w.slots i ((w.slots i).startComplete g v) }
  | releaseInner {w g i} (ha : w.auth g = .retired i) :
      Aside w { w with auth := Function.update w.auth g (.releasing i) }
  | publish {w g i} (v : O) (ha : w.auth g = .publisher i) :
      Aside w { w with
        auth := Function.update w.auth g (.publishing i)
        slots := Function.update w.slots i ((w.slots i).startComplete g v) }
  | published {w g i} (ha : w.auth g = .publishing i)
      (hrest : (w.slots i).comp.resting = true) :
      Aside w { w with auth := Function.update w.auth g (.releasing i) }
  | dropPublisher {w g i} (ha : w.auth g = .publisher i) :
      Aside w { w with auth := Function.update w.auth g (.releasing i) }
  | call {w o i g} (t : Tid) (c : Call W) (ho : w.obs o = .live i g) (hidle : w.Idle t) :
      Aside w (w.setSlot i ((w.slots i).startCall t ⟨o, g⟩ c))
  | poll {w f i g} (wk : W) (hf : w.futs f = .live i g)
      (hrest : ((w.slots i).fpc f).resting = true) :
      Aside w (w.setSlot i ((w.slots i).startPoll f wk))
  | cancel {w f i g} (hf : w.futs f = .live i g)
      (hrest : ((w.slots i).fpc f).resting = true) :
      Aside w (w.setSlot i ((w.slots i).startCancel f))
  | unpark {w} (t : Tid) :
      Aside w { w with env := { w.env with token := Function.update w.env.token t true } }
  | park {w} (t : Tid) (hidle : w.Idle t) :
      Aside w { w with env := { w.env with token := Function.update w.env.token t false } }
  | tick {w} (n : Nat) (hn : w.env.now ≤ n) : Aside w { w with env := { w.env with now := n } }

end World

open World

/-- One step of the program.  The steps are those of the interleaved program but for the two loads
of a count, which may return any message that their owner has not seen a newer one of. -/
inductive CountedStep {K O W : Type} [Key K] [WillWake W] {bits : Nat} (l : CountOrders) :
    ArcWorld K O W bits → ArcWorld K O W bits → Prop where
  | aside {w w' m} (h : Aside w w') : CountedStep l ⟨w, m⟩ ⟨w', m⟩
  | subject {w m} (key : K) (hspace : 0 < w.spaces) :
      CountedStep l ⟨w, m⟩ ⟨(w.subject key).1, w.subjectMem m l.arc key⟩
  | unwind {w m} (hspace : 0 < w.spaces) :
      CountedStep l ⟨w, m⟩ ⟨w.dropPopped true, w.dropPoppedMem m l.arc⟩
  | observe {w m} (key : K) (hspace : 0 < w.spaces) :
      CountedStep l ⟨w, m⟩ ⟨(w.observe key).1, w.observeMem m l.arc key⟩
  | dropPooled {w m} (hinner : w.InnerDropped) :
      CountedStep l ⟨w, m⟩ ⟨w.dropPopped false, w.dropPoppedMem m l.arc⟩
  /-- `Subject::drop` loads the count of its slot. -/
  | retire {w m g key n i c k msg} (ha : w.auth g = .subject key n i c)
      (hrest : (w.slots i).comp.resting = true)
      (hr : ((unlistMem m l.arc g i).count i).Reads (.count i)
        ((unlistMem m l.arc g i).view (.subject g)) k msg) :
      CountedStep l ⟨w, m⟩
        ⟨w.retireSeeing g key n i msg.val, w.retireMem m l.arc g i l.strongCount k msg⟩
  | releaseSubject {w m g i} (ha : w.auth g = .releasing i) :
      CountedStep l ⟨w, m⟩
        ⟨({ w with auth := Function.update w.auth g .gone } : World K O W bits).release
          (.subject g) false, m.drop l.arc (.subject g) i⟩
  | pair {w m} : CountedStep l ⟨w, m⟩ ⟨w.pair, w.pairMem m l.arc⟩
  | cloneObs {w m o i g} (ho : w.obs o = .live i g) :
      CountedStep l ⟨w, m⟩ ⟨w.newObs i g, m.clone l.arc (.obs o) (.obs w.nextObs) i⟩
  /-- A call in flight uses its slot. -/
  | callStep {w m e'} (i : SlotId) (p : Proc) {s'} (h : ProcStep p w.env (w.slots i) e' s') :
      CountedStep l ⟨w, m⟩ ⟨{ w.setSlot i s' with env := e' }, m.use (p.owner (w.slots i)) i⟩
  | intoFuture {w m o i g} (ho : w.obs o = .live i g) (hb : w.Unborrowed o) :
      CountedStep l ⟨w, m⟩ ⟨w.intoFuture o i g, m.move (.obs o) (.fut w.nextFut)⟩
  | releaseFuture {w m f i g} (hf : w.futs f = .live i g) (hdead : (w.slots i).fpc f = .dead) :
      CountedStep l ⟨w, m⟩
        ⟨({ w with futs := Function.update w.futs f .gone } : World K O W bits).release
          (.fut f) false, m.drop l.arc (.fut f) i⟩
  | dropObs {w m o i g} (ho : w.obs o = .live i g) (hb : w.Unborrowed o) :
      CountedStep l ⟨w, m⟩
        ⟨({ w with obs := Function.update w.obs o (.gone g none) } : World K O W bits).release
          (.obs o) false, m.drop l.arc (.obs o) i⟩
  /-- `into_outcome` loads the count of its slot. -/
  | intoOutcome {w m o i g k msg} (ho : w.obs o = .live i g) (hb : w.Unborrowed o)
      (hr : (m.count i).Reads (.count i) (m.view (.obs o)) k msg) :
      CountedStep l ⟨w, m⟩
        ⟨(w.intoOutcomeSeeing o i g msg.val).1, intoOutcomeMem m o i l.tryUnwrap k msg⟩
  | dropRefused {w m o i g} (ho : w.obs o = .refused i g) :
      CountedStep l ⟨w, m⟩
        ⟨({ w with obs := Function.update w.obs o (.gone g (some none)) } : World K O W bits).release
          (.obs o) false, m.drop l.arc (.obs o) i⟩

def countedSystem (K O W : Type) [Key K] [WillWake W] (bits : Nat) (l : CountOrders) :
    Lib.System (ArcWorld K O W bits) where
  init x := ∃ e, x = ⟨World.new e, .empty⟩
  step := CountedStep l

end Observe
