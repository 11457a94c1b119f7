import Mathlib.Logic.Function.Basic
import Wizard.CountedNode
import Wizard.Runs

/-! The queue of `lock_free_queue.h`. A push that finds the data of the last node
taken helps the push that has taken it: either of them can link the next node, and
either can swing tail to it. -/

namespace Wizard.LockFreeQueue

/-- What follows `set_new_tail`: the push returns, or its loop goes on with the object
`new_data` and the node of `new_next`. -/
inductive After
  | done
  | again (newData node : Nat)

/-- The next access of a thread. -/
inductive Pc
  | idle
  | load (newData node : Nat)
  | increase (newData node : Nat) (oldTail : CountedNodePtr)
  | data (newData node : Nat) (oldTail : CountedNodePtr)
  | next (node : Nat) (oldTail : CountedNodePtr)
  | help (newData node : Nat) (oldTail : CountedNodePtr)
  | renew (newData : Nat) (oldTail : CountedNodePtr) (current : Nat) (oldNext : CountedNodePtr)
  | swing (oldTail : CountedNodePtr) (current : Nat) (newTail : CountedNodePtr) (k : After)
  | freeLoad (old : CountedNodePtr) (k : After)
  | freeCas (old : CountedNodePtr) (oldCounter : NodeCounter) (k : After)
  | releaseLoad (p : Nat) (oldTail : CountedNodePtr) (k : After)
  | releaseCas (p : Nat) (oldTail : CountedNodePtr) (oldCounter : NodeCounter) (k : After)

def After.pc (old : CountedNodePtr) : After → Pc
  | .done => .idle
  | .again k n => .increase k n old

variable {T Tid : Type*}

/-- The objects that the pushes make are numbered by their pushes, and the data of a
node is the number of one. `left a` counts how often tail was moved away from the node
`a`, and `freed a` how often its external counter for tail was given up. -/
structure State (T Tid : Type*) where
  node : Nat → CountedNode Nat
  head : CountedNodePtr
  tail : CountedNodePtr
  pc : Tid → Pc
  live : Nat → Prop
  values : List T
  left : Nat → Nat
  freed : Nat → Nat

/-- `LockFreeQueue()`, with its node at the address `dummy`. -/
def State.make (dummy : Nat) : State T Tid where
  node := fun _ => .make
  head := .first dummy
  tail := .first dummy
  pc := fun _ => .idle
  live := fun a => a = dummy
  values := []
  left := fun _ => 0
  freed := fun _ => 0

def Init (s : State T Tid) : Prop := ∃ dummy, s = .make dummy

section Steps

variable [DecidableEq Tid]

def State.setPc (s : State T Tid) (t : Tid) (pc : Pc) : State T Tid :=
  { s with pc := Function.update s.pc t pc }

def State.setNode (s : State T Tid) (a : Nat) (x : CountedNode Nat) : State T Tid :=
  { s with node := Function.update s.node a x }

/-- A compare-exchange of `count` has succeeded. -/
def State.setCount (s : State T Tid) (a : Nat) (c : NodeCounter) : State T Tid :=
  { s.setNode a { s.node a with count := c } with
    live := if c.isZero then fun b => b ≠ a ∧ s.live b else s.live }

/-- The compare-exchange in `set_new_tail` has succeeded. -/
def State.setTail (s : State T Tid) (newTail : CountedNodePtr) : State T Tid :=
  { s with
    tail := newTail
    left := fun a => if s.tail.ptr = some a ∧ newTail.ptr ≠ some a then s.left a + 1 else s.left a }

/-- The steps of thread `t`. The address of a deleted node can come back, and a weak
compare-exchange can fail for no reason. -/
inductive Step (t : Tid) : State T Tid → State T Tid → Prop
  | push (s v n) (ht : s.pc t = .idle) (hn : ¬ s.live n) :
      Step t s ({ s.setNode n .make with
        live := fun a => a = n ∨ s.live a
        values := s.values ++ [v] }.setPc t (.load s.values.length n))
  | load (s k n) (ht : s.pc t = .load k n) : Step t s (s.setPc t (.increase k n s.tail))
  | increaseOk (s k n old) (ht : s.pc t = .increase k n old) (he : s.tail = old) :
      Step t s ({ s with tail := old.increase }.setPc t (.data k n old.increase))
  | increaseFail (s k n old) (ht : s.pc t = .increase k n old) (he : s.tail ≠ old) :
      Step t s (s.setPc t (.increase k n s.tail))
  | dataOk (s k n old p) (ht : s.pc t = .data k n old) (hp : old.ptr = some p) (he : (s.node p).data = none) :
      Step t s ((s.setNode p { s.node p with data := some k }).setPc t (.next n old))
  | dataFail (s k n old p) (ht : s.pc t = .data k n old) (hp : old.ptr = some p) (he : (s.node p).data ≠ none) :
      Step t s (s.setPc t (.help k n old))
  | nextOk (s n old p) (ht : s.pc t = .next n old) (hp : old.ptr = some p) (he : (s.node p).next = ⟨0, none⟩) :
      Step t s ((s.setNode p { s.node p with next := .first n }).setPc t (.swing old p (.first n) .done))
  | nextFail (s n old p) (ht : s.pc t = .next n old) (hp : old.ptr = some p) (he : (s.node p).next ≠ ⟨0, none⟩) :
      Step t s ({ s with live := fun a => a ≠ n ∧ s.live a }.setPc t (.swing old p (s.node p).next .done))
  | helpOk (s k n old p) (ht : s.pc t = .help k n old) (hp : old.ptr = some p) (he : (s.node p).next = ⟨0, none⟩) :
      Step t s ((s.setNode p { s.node p with next := .first n }).setPc t (.renew k old p (.first n)))
  | helpFail (s k n old p) (ht : s.pc t = .help k n old) (hp : old.ptr = some p)
      (he : (s.node p).next ≠ ⟨0, none⟩) :
      Step t s (s.setPc t (.swing old p (s.node p).next (.again k n)))
  | renew (s k old p new n) (ht : s.pc t = .renew k old p new) (hn : ¬ s.live n) :
      Step t s ({ s.setNode n .make with
        live := fun a => a = n ∨ s.live a }.setPc t (.swing old p new (.again k n)))
  | swingOk (s old p new k) (ht : s.pc t = .swing old p new k) (he : s.tail = old) :
      Step t s ((s.setTail new).setPc t (if old.ptr = some p then .freeLoad old k else .releaseLoad p old k))
  | swingFail (s old p new k) (ht : s.pc t = .swing old p new k) :
      Step t s (s.setPc t (if s.tail.ptr = some p then .freeLoad s.tail k else .swing s.tail p new k))
  | freeLoad (s old k p) (ht : s.pc t = .freeLoad old k) (hp : old.ptr = some p) :
      Step t s (s.setPc t (.freeCas old (s.node p).count k))
  | freeCasOk (s old c k p) (ht : s.pc t = .freeCas old c k) (hp : old.ptr = some p) (he : (s.node p).count = c) :
      Step t s ({ s.setCount p (c.free old) with
        freed := Function.update s.freed p (s.freed p + 1) }.setPc t (k.pc old))
  | freeCasFail (s old c k p) (ht : s.pc t = .freeCas old c k) (hp : old.ptr = some p)
      (he : (s.node p).count ≠ c) : Step t s (s.setPc t (.freeCas old (s.node p).count k))
  | releaseLoad (s p old k) (ht : s.pc t = .releaseLoad p old k) :
      Step t s (s.setPc t (.releaseCas p old (s.node p).count k))
  | releaseCasOk (s p old c k) (ht : s.pc t = .releaseCas p old c k) (he : (s.node p).count = c) :
      Step t s ((s.setCount p c.release).setPc t (k.pc old))
  | releaseCasFail (s p old c k) (ht : s.pc t = .releaseCas p old c k) (he : (s.node p).count ≠ c) :
      Step t s (s.setPc t (.releaseCas p old (s.node p).count k))

def Next (s s' : State T Tid) : Prop := ∃ t, Step t s s'

/-- A compare-exchange in `set_new_tail` succeeds when tail is at `current_tail_ptr`,
and when tail is elsewhere it fails or finds tail at the new node. -/
structure Careful (t : Tid) (s s' : State T Tid) : Prop where
  first : ∀ old p new k, s.pc t = .swing old p new k → s.tail.ptr = some p → s'.tail = new
  again : ∀ old p new k, s.pc t = .swing old p new k → s.tail.ptr ≠ some p →
    s'.tail = s.tail ∨ s.tail.ptr = new.ptr

def CarefulStep (s s' : State T Tid) : Prop := ∃ t, Step t s s' ∧ Careful t s s'

end Steps

end Wizard.LockFreeQueue
