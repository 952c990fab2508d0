import Observe.Protocol
import Observe.Lib.ReleaseAcquire

/-!
# One slot in release-acquire memory

The calls of the first generation of a slot, with every atomic access given the ordering it has in
the source.  A load of the state word or of the registry pointer may return an old message, as far
as the caller's view allows; the rule of the interleaved model is then applied to the memory the
caller is presented with.  The mutex, `unpark` and `park` synchronise, the outcome cell and the box of the
registry are plain memory, and `SeqCst` is worth no more than acquire and release.
-/

namespace Observe

open Lib

/-- The locations of one `Slot`.  The outcome cell and the registry's box are not atomic: their
place counts the writes. -/
inductive Loc where
  | state
  | waiters
  | outcome
  | box
deriving DecidableEq

/-! ## What a step accesses -/

/-- The access that a step makes, with its `Ordering`. -/
inductive Access where
  /-- No access to shared memory, or one that the mutex protects. -/
  | plain
  | load (o : MemOrder)
  | fetchOr (o : MemOrder) (mask : StateWord)
  | loadPtr (o : MemOrder)
  | casPtr (success failure : MemOrder)
  | lock
  | unlock
  | setOutcome
  | outcomeRef
  | park
  | unpark (t : Tid)

def ThreadPc.access {O W : Type} : ThreadPc O W → Access
  | .tryGet => .load .acquire
  | .check _ => .load .acquire
  | .setBit _ => .fetchOr .seqCst .HAS_WAITER
  | .loadReg _ => .loadPtr .acquire
  | .casReg _ => .casPtr .release .acquire
  | .acquire _ => .lock
  | .recheck _ => .load .seqCst
  | .readLocked => .outcomeRef
  | .unlock _ => .unlock
  | .park _ => .park
  | .read => .outcomeRef
  | _ => .plain

def FutPc.access {O W : Type} : FutPc O W → Access
  | .poll _ => .load .acquire
  | .check _ => .load .acquire
  | .setBit _ => .fetchOr .seqCst .HAS_WAITER
  | .loadReg _ => .loadPtr .acquire
  | .casReg _ => .casPtr .release .acquire
  | .acquire _ => .lock
  | .recheck _ => .load .seqCst
  | .unlock _ => .unlock
  | .poll2 .. => .load .acquire
  | .read => .outcomeRef
  | _ => .plain

def CompPc.access {O W : Type} : CompPc O W → Access
  | .write .. => .setOutcome
  | .publish .. => .fetchOr .release (StateWord.COMPLETED.fetchOr .OUTCOME_VALID)
  | .loadReg _ => .loadPtr .acquire
  | .casReg _ => .casPtr .release .acquire
  | .acquire _ => .lock
  | .unlock .. => .unlock
  | .notify _ (.thread t _ :: _) _ => .unpark t
  | _ => .plain

def SlotSys.access {O W : Type} (s : SlotSys O W) : Proc → Access
  | .thread t => (s.thr t).access
  | .future f => (s.fpc f).access
  | .completer => s.comp.access

/-! ## The state -/

/-- A slot in memory: `sys` is the slot as the newest messages have it. -/
structure Weak (O W : Type) where
  sys : SlotSys O W
  /-- `Slot::state`. -/
  words : History Loc StateWord
  /-- `Slot::waiters`: whether the pointer is set. -/
  boxes : History Loc Bool
  view : Proc → View Loc
  /-- What the last owner of the registry's mutex knew. -/
  guard : View Loc
  /-- What those who made a thread's token available knew. -/
  token : Tid → View Loc

namespace Weak

variable {O W : Type}

@[simp] def look (x : Weak O W) (p : Proc) (v : View Loc) : Weak O W :=
  { x with view := Function.update x.view p v }

def present (s : SlotSys O W) (b : StateWord) : SlotSys O W := s.setState b

def presentPtr (s : SlotSys O W) (b : Bool) : SlotSys O W :=
  { s with slot := { s.slot with waiters := if b then s.slot.waiters else none } }

/-- `Slot::new` for generation `g`, handed on to everybody. -/
def fresh (g : Gen) : Weak O W where
  sys := SlotSys.blank.fresh g
  words := .init .zero
  boxes := .init false
  view _ := ⊥
  guard := ⊥
  token _ := ⊥

end Weak

/-! ## Steps -/

section Steps

variable {O W : Type} [WillWake W]

def ProcStep : Proc → Env → SlotSys O W → Env → SlotSys O W → Prop
  | .thread t, e, s, e', s' => ThreadStep t e s e' s'
  | .future f, e, s, e', s' => e' = e ∧ FutStep f s s'
  | .completer, e, s, e', s' => CompStep e s e' s'

inductive WeakStep (p : Proc) : Env → Weak O W → Env → Weak O W → Prop where
  | plain {e x e' s'} (ha : x.sys.access p = .plain) (h : ProcStep p e x.sys e' s') :
      WeakStep p e x e' { x with sys := s' }
  /-- Any message that is not older than what `p` has seen. -/
  | load {e x e' s' o i m} (ha : x.sys.access p = .load o)
      (hr : x.words.Reads .state (x.view p) i m)
      (h : ProcStep p e (Weak.present x.sys m.val) e' s') :
      WeakStep p e x e'
        ({ x with sys := Weak.present s' x.sys.slot.state }.look p
          ((x.view p).learn .state i o m))
  -- a read-modify-write reads the newest word
  | fetchOr {e x e' s' o mask} (ha : x.sys.access p = .fetchOr o mask)
      (h : ProcStep p e x.sys e' s') :
      WeakStep p e x e'
        ({ x with
            sys := s'
            words := x.words.rmw .state o (·.fetchOr mask) (x.view p) }.look p
          (x.words.rmwView .state o (x.view p)))
  | loadPtr {e x e' s' o i m} (ha : x.sys.access p = .loadPtr o)
      (hr : x.boxes.Reads .waiters (x.view p) i m)
      (h : ProcStep p e (Weak.presentPtr x.sys m.val) e' s') :
      WeakStep p e x e'
        ({ x with sys := { s' with slot := x.sys.slot } }.look p
          ((x.view p).learn .waiters i o m))
  /-- The winner has filled its box, and publishes it. -/
  | casPtr_won {e x e' s' o o'} (ha : x.sys.access p = .casPtr o o')
      (hnull : x.boxes.last.val = false) (h : ProcStep p e x.sys e' s') :
      WeakStep p e x e'
        ({ x with
            sys := s'
            boxes := x.boxes.rmw .waiters o (fun _ => true)
              ((x.view p).write .box) }.look p
          (x.boxes.rmwView .waiters o ((x.view p).write .box)))
  /-- The loser gives its box back and takes the pointer that it has read. -/
  | casPtr_lost {e x e' s' o o' i m} (ha : x.sys.access p = .casPtr o o')
      (hr : x.boxes.Reads .waiters (x.view p) i m) (hset : m.val = true)
      (h : ProcStep p e x.sys e' s') :
      WeakStep p e x e'
        ({ x with sys := s' }.look p ((x.view p).learn .waiters i o' m))
  | lock {e x e' s'} (ha : x.sys.access p = .lock) (h : ProcStep p e x.sys e' s') :
      WeakStep p e x e' ({ x with sys := s' }.look p (x.view p ⊔ x.guard))
  | unlock {e x e' s'} (ha : x.sys.access p = .unlock) (h : ProcStep p e x.sys e' s') :
      WeakStep p e x e' { x with sys := s', guard := x.guard ⊔ x.view p }
  -- the one write of the outcome cell
  | setOutcome {e x e' s'} (ha : x.sys.access p = .setOutcome) (h : ProcStep p e x.sys e' s') :
      WeakStep p e x e' ({ x with sys := s' }.look p ((x.view p).write .outcome))
  | outcomeRef {e x e' s'} (ha : x.sys.access p = .outcomeRef) (h : ProcStep p e x.sys e' s') :
      WeakStep p e x e' { x with sys := s' }
  /-- All prior `unpark`s synchronise with the `park` that consumes the token. -/
  | park_token {e x e' s' t} (hp : p = .thread t) (ha : x.sys.access p = .park)
      (h : ProcStep p e x.sys e' s') (htok : e.token t = true ∧ e'.token t = false) :
      WeakStep p e x e' ({ x with sys := s' }.look p (x.view p ⊔ x.token t))
  | park_spurious {e x s'} (ha : x.sys.access p = .park) (h : ProcStep p e x.sys e s') :
      WeakStep p e x e { x with sys := s' }
  | unpark {e x e' s' t} (ha : x.sys.access p = .unpark t) (h : ProcStep p e x.sys e' s') :
      WeakStep p e x e'
        { x with sys := s', token := Function.update x.token t (x.token t ⊔ x.view p) }

end Steps

/-! ## Everything that can happen in one generation -/

/-- What the rest of the program does to a slot between its steps. -/
inductive OuterMove {O W : Type} : Env × SlotSys O W → Env × SlotSys O W → Prop where
  | call {e s} (t : Tid) (h : Handle) (c : Call W) (hidle : (s.thr t).active = false)
      (hg : h.gen = s.gen) : OuterMove (e, s) (e, s.startCall t h c)
  | intoFuture {e s} (f : FutId) (hf : f ∉ s.futs) (hidle : (s.fpc f).active = false) :
      OuterMove (e, s) (e, s.newFuture f s.gen)
  | poll {e s} (f : FutId) (w : W) (hf : f ∈ s.futs) (hrest : (s.fpc f).resting = true) :
      OuterMove (e, s) (e, s.startPoll f w)
  | cancel {e s} (f : FutId) (hf : f ∈ s.futs) (hrest : (s.fpc f).resting = true) :
      OuterMove (e, s) (e, s.startCancel f)
  | complete {e s} (v : O) (hidle : s.comp = .idle) :
      OuterMove (e, s) (e, s.startComplete s.gen v)
  | unparkElsewhere {e s} (t : Tid) :
      OuterMove (e, s) ({ e with token := Function.update e.token t true }, s)
  | parkElsewhere {e s} (t : Tid) (hidle : (s.thr t).active = false) :
      OuterMove (e, s) ({ e with token := Function.update e.token t false }, s)
  | tick {e s} (n : Nat) (hn : e.now ≤ n) : OuterMove (e, s) ({ e with now := n }, s)

/-- One generation of one slot in memory.  Anybody may learn what anybody else knows at any time, by
means of the rest of the program. -/
inductive WeakMove {O W : Type} [WillWake W] : Env × Weak O W → Env × Weak O W → Prop where
  | step {e x e' x'} (p : Proc) (h : WeakStep p e x e' x') : WeakMove (e, x) (e', x')
  | outer {e x e' s'} (h : OuterMove (e, x.sys) (e', s')) :
      WeakMove (e, x) (e', { x with sys := s' })
  | sync {e x} (p q : Proc) : WeakMove (e, x) (e, x.look q (x.view q ⊔ x.view p))

/-- The runs of one generation of a slot in memory, from `Slot::new`.  What a thread does with a slot
that it has to itself (`reset`, the take of `into_outcome`, the final drop) is not among its steps. -/
def weakSystem (O W : Type) [WillWake W] : Lib.System (Env × Weak O W) where
  init x := ∃ g, x.2 = Weak.fresh g
  step := WeakMove

end Observe
