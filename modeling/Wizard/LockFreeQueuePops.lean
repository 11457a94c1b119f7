import Wizard.LockFreeQueue

/-! The queue of `lock_free_queue.h` with pushes and pops. A pop that finds the queue empty keeps
the reference to the first node that it has counted. -/

namespace Wizard.LockFreeQueue.Shared

/-- The next access of a pop. `turn` is the number of pops that have moved head before it, and one
that returns empty remembers whether they had taken all that tail had left when it read tail. -/
inductive Pop
  | idle
  | load
  | increase (oldHead : CountedNodePtr)
  | tail (oldHead : CountedNodePtr)
  | next (oldHead : CountedNodePtr)
  | head (oldHead next : CountedNodePtr)
  | data (oldHead : CountedNodePtr) (turn : Nat)
  | freeLoad (oldHead : CountedNodePtr) (res : Option Nat)
  | freeCas (oldHead : CountedNodePtr) (oldCounter : NodeCounter) (res : Option Nat)
  | releaseLoad (p : Nat) (oldHead : CountedNodePtr)
  | releaseCas (p : Nat) (oldHead : CountedNodePtr) (oldCounter : NodeCounter)
  | returned (res : Option Nat)
  | empty (drained : Bool)

variable {T Tid : Type*}

/-- The queue with its pushes, the pops, and a history: the addresses of the nodes, the objects in
the order in which pushes have put them into nodes, how often tail has moved on, and what the pops
have taken, in the order in which they have moved head. -/
structure State (T Tid : Type*) where
  queue : LockFreeQueue.State T Tid
  pop : Tid → Pop
  made : Nat → Prop
  pushed : List Nat
  swung : Nat
  popped : List (Option (Option Nat))

namespace State

/-- `LockFreeQueue()`, with its node at the address `dummy`. -/
def make (dummy : Nat) : State T Tid where
  queue := .make dummy
  pop := fun _ => .idle
  made := fun a => a = dummy
  pushed := []
  swung := 0
  popped := []

def drained (s : State T Tid) : Bool := s.swung = s.popped.length

end State

def Init (s : State T Tid) : Prop := ∃ dummy, s = .make dummy

/-- The object that a push has just put into a node. -/
def filled? : Pc → Pc → Option Nat
  | .data k _ _, .next _ _ => some k
  | _, _ => none

section Steps

variable [DecidableEq Tid]

namespace State

variable (s : State T Tid)

def setPop (t : Tid) (p : Pop) : State T Tid := { s with pop := Function.update s.pop t p }

def setHead (head : CountedNodePtr) : State T Tid := { s with queue := { s.queue with head := head } }

/-- A push of thread `t` has taken the queue to `queue`. -/
def push (t : Tid) (queue : LockFreeQueue.State T Tid) : State T Tid :=
  { s with
    queue := queue
    made := fun a => s.made a ∨ queue.live a
    pushed := s.pushed ++ (filled? (s.queue.pc t) (queue.pc t)).toList
    swung := if queue.tail.ptr = s.queue.tail.ptr then s.swung else s.swung + 1 }

end State

/-- The steps of thread `t`. -/
inductive Step (t : Tid) : State T Tid → State T Tid → Prop
  | push (s q) (ht : s.pop t = .idle) (h : LockFreeQueue.Step t s.queue q) : Step t s (s.push t q)
  | pop (s) (ht : s.pop t = .idle) (hq : s.queue.pc t = .idle) : Step t s (s.setPop t .load)
  | load (s) (ht : s.pop t = .load) : Step t s (s.setPop t (.increase s.queue.head))
  | increaseOk (s old) (ht : s.pop t = .increase old) (he : s.queue.head = old) :
      Step t s ((s.setHead old.increase).setPop t (.tail old.increase))
  | increaseFail (s old) (ht : s.pop t = .increase old) (he : s.queue.head ≠ old) :
      Step t s (s.setPop t (.increase s.queue.head))
  | tail (s old) (ht : s.pop t = .tail old) :
      Step t s (s.setPop t (if old.ptr = s.queue.tail.ptr then .empty s.drained else .next old))
  | next (s old p) (ht : s.pop t = .next old) (hp : old.ptr = some p) :
      Step t s (s.setPop t (.head old (s.queue.node p).next))
  | headOk (s old next) (ht : s.pop t = .head old next) (he : s.queue.head = old) :
      Step t s (({ s with popped := s.popped ++ [none] }.setHead next).setPop t (.data old s.popped.length))
  | headFail (s old next p) (ht : s.pop t = .head old next) (hp : old.ptr = some p) (he : s.queue.head ≠ old) :
      Step t s (s.setPop t (.releaseLoad p s.queue.head))
  | data (s old turn p) (ht : s.pop t = .data old turn) (hp : old.ptr = some p) :
      Step t s ({ s with
        queue := s.queue.setNode p { s.queue.node p with data := none }
        popped := s.popped.set turn (some (s.queue.node p).data) }.setPop t (.freeLoad old (s.queue.node p).data))
  | freeLoad (s old res p) (ht : s.pop t = .freeLoad old res) (hp : old.ptr = some p) :
      Step t s (s.setPop t (.freeCas old (s.queue.node p).count res))
  | freeCasOk (s old c res p) (ht : s.pop t = .freeCas old c res) (hp : old.ptr = some p)
      (he : (s.queue.node p).count = c) :
      Step t s ({ s with queue := s.queue.setCount p (c.free old) }.setPop t (.returned res))
  | freeCasFail (s old c res p) (ht : s.pop t = .freeCas old c res) (hp : old.ptr = some p)
      (he : (s.queue.node p).count ≠ c) : Step t s (s.setPop t (.freeCas old (s.queue.node p).count res))
  | releaseLoad (s p old) (ht : s.pop t = .releaseLoad p old) :
      Step t s (s.setPop t (.releaseCas p old (s.queue.node p).count))
  | releaseCasOk (s p old c) (ht : s.pop t = .releaseCas p old c) (he : (s.queue.node p).count = c) :
      Step t s ({ s with queue := s.queue.setCount p c.release }.setPop t (.increase old))
  | releaseCasFail (s p old c) (ht : s.pop t = .releaseCas p old c) (he : (s.queue.node p).count ≠ c) :
      Step t s (s.setPop t (.releaseCas p old (s.queue.node p).count))
  | return_ (s res) (ht : s.pop t = .returned res) : Step t s (s.setPop t .idle)
  | returnEmpty (s drained) (ht : s.pop t = .empty drained) : Step t s (s.setPop t .idle)

/-- The pushes are careful with tail, an object goes only into the node where tail is, and no
address is allocated twice. -/
structure Steady (t : Tid) (s s' : State T Tid) : Prop where
  careful : Careful t s.queue s'.queue
  data : ∀ k n old p, s.queue.pc t = .data k n old → old.ptr = some p → (s.queue.node p).data = none →
    s.queue.tail.ptr = some p
  fresh : ∀ a, s'.queue.live a → s.queue.live a ∨ ¬ s.made a

def SteadyStep (s s' : State T Tid) : Prop := ∃ t, Step t s s' ∧ Steady t s s'

end Steps

end Wizard.LockFreeQueue.Shared
