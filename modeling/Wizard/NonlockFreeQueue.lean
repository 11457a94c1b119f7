import Wizard.Runs
import Wizard.Tally
import Wizard.CountedNode

/-! The queue with counted references. A step is one atomic access of one
thread, or the write of `next`; deletion comes with the access that finds the
counts at zero. Strings for the log are left out. -/

namespace Wizard.NonlockFreeQueue

/-- What follows a call of `release_ref` or `free_external_counter`. A pop that
returns empty remembers whether, when it read tail, every push whose exchange
was done had been popped. -/
inductive After (T : Type)
  | pushAgain (newValue : T) (node : Nat) (oldTail : CountedNodePtr)
  | popAgain (oldHead : CountedNodePtr)
  | done
  | empty (drained : Bool)
deriving Repr

/-- The next access of a thread. -/
inductive Pc (T : Type)
  | idle
  | pushLoad (newValue : T) (node : Nat)
  | pushIncrease (newValue : T) (node : Nat) (oldTail : CountedNodePtr)
  | pushData (newValue : T) (node : Nat) (oldTail : CountedNodePtr)
  | pushNext (node : Nat) (oldTail : CountedNodePtr)
  | pushExchange (node : Nat) (oldTail : CountedNodePtr)
  | popLoad
  | popIncrease (oldHead : CountedNodePtr)
  | popTail (oldHead : CountedNodePtr)
  | popHead (oldHead : CountedNodePtr)
  | popData (oldHead : CountedNodePtr) (turn : Nat)
  | freeLoad (old : CountedNodePtr) (k : After T)
  | freeCas (old : CountedNodePtr) (oldCounter : NodeCounter) (k : After T)
  | releaseLoad (p : Nat) (k : After T)
  | releaseCas (p : Nat) (oldCounter : NodeCounter) (k : After T)
deriving Repr

variable {T Tid : Type}

def After.pc : After T → Pc T
  | .pushAgain v n old => .pushIncrease v n old
  | .popAgain old => .popIncrease old
  | .done => .idle
  | .empty _ => .idle

/-- The heap, head and tail, and a history: the node of the constructor, how
often each address was allocated and deleted, how often tail and head have left
it, the nodes that tail has left and head has not, the values in the order of
their data CAS, the number of exchanges, and in the order of their head CAS what
the pops have taken out. -/
structure State (T Tid : Type) where
  node : Nat → CountedNode T
  head : CountedNodePtr
  tail : CountedNodePtr
  pc : Tid → Pc T
  dummy : Nat
  made : Nat → Nat
  gone : Nat → Nat
  tailLeft : Nat → Nat
  headLeft : Nat → Nat
  front : List Nat
  pushed : List T
  exchanged : Nat
  popped : List (Option (Option T))

/-- The node made by a push that has not linked it yet. -/
def After.newNode : After T → Option Nat
  | .pushAgain _ n _ => some n
  | _ => none

def Pc.newNode : Pc T → Option Nat
  | .pushLoad _ n => some n
  | .pushIncrease _ n _ => some n
  | .pushData _ n _ => some n
  | .pushNext n _ => some n
  | .pushExchange n _ => some n
  | .freeLoad _ k => k.newNode
  | .freeCas _ _ k => k.newNode
  | .releaseLoad _ k => k.newNode
  | .releaseCas _ _ k => k.newNode
  | _ => none

/-- The node that a thread holds a counted reference to: it has increased
`external_count`, and not executed `release_ref` or `free_external_counter`. -/
def Pc.held : Pc T → Option Nat
  | .pushData _ _ old => old.ptr
  | .pushNext _ old => old.ptr
  | .pushExchange _ old => old.ptr
  | .popTail old => old.ptr
  | .popHead old => old.ptr
  | .popData old _ => old.ptr
  | .freeLoad old _ => old.ptr
  | .freeCas old _ _ => old.ptr
  | .releaseLoad p _ => some p
  | .releaseCas p _ _ => some p
  | _ => none

/-- One more for the node that `p` points to. -/
def bump (f : Nat → Nat) (p : Option Nat) (a : Nat) : Nat := f a + hit p a

/-- `LockFreeQueue()`, with its node at the address `dummy`. -/
def State.make (dummy : Nat) : State T Tid :=
  ⟨fun _ => .make, ⟨0, some dummy⟩, ⟨0, some dummy⟩, fun _ => .idle, dummy, bump (fun _ => 0) (some dummy),
    fun _ => 0, fun _ => 0, fun _ => 0, [], [], 0, []⟩

namespace State

def drained (s : State T Tid) : Bool := s.exchanged = s.popped.length

variable [DecidableEq Tid]

def go (s : State T Tid) (i : Tid) (p : Pc T) : State T Tid := { s with pc := Function.update s.pc i p }

/-- The compare-and-swap on `count` has succeeded. -/
def setCount (s : State T Tid) (p : Nat) (c : NodeCounter) : State T Tid :=
  { s with
    node := Function.update s.node p { s.node p with count := c }
    gone := if c.isZero then bump s.gone (some p) else s.gone }

/-- The two ways to start a call; `new` returns the address `node`. -/
def push (s : State T Tid) (i : Tid) (newValue : T) (node : Nat) : Option (State T Tid) :=
  match s.pc i with
  | .idle => some { s with
      node := Function.update s.node node .make
      made := bump s.made (some node)
      pc := Function.update s.pc i (.pushLoad newValue node) }
  | _ => none

def pop (s : State T Tid) (i : Tid) : Option (State T Tid) :=
  match s.pc i with
  | .idle => some (s.go i .popLoad)
  | _ => none

/-- One access of thread `i`. There is none where a null pointer is dereferenced. -/
def next (s : State T Tid) (i : Tid) : Option (State T Tid) :=
  match s.pc i with
  | .idle => none
  | .pushLoad v n => some (s.go i (.pushIncrease v n s.tail))
  | .pushIncrease v n old =>
    if s.tail = old then some ({ s with tail := old.increase }.go i (.pushData v n old.increase))
    else some (s.go i (.pushIncrease v n s.tail))
  | .pushData v n old => old.ptr.map fun p =>
    if (s.node p).data.isNone then
      { s with
        node := Function.update s.node p { s.node p with data := some v }
        pushed := s.pushed ++ [v] }.go i (.pushNext n old)
    else s.go i (.releaseLoad p (.pushAgain v n old))
  | .pushNext n old => old.ptr.map fun p =>
    { s with node := Function.update s.node p { s.node p with next := .first n } }.go i (.pushExchange n old)
  | .pushExchange n _ =>
    some ({ s with
      tail := .first n
      tailLeft := bump s.tailLeft s.tail.ptr
      front := s.front ++ s.tail.ptr.toList
      exchanged := s.exchanged + 1 }.go i (.freeLoad s.tail .done))
  | .popLoad => some (s.go i (.popIncrease s.head))
  | .popIncrease old =>
    if s.head = old then some ({ s with head := old.increase }.go i (.popTail old.increase))
    else some (s.go i (.popIncrease s.head))
  | .popTail old =>
    if old.ptr = s.tail.ptr then old.ptr.map fun p => s.go i (.releaseLoad p (.empty s.drained))
    else some (s.go i (.popHead old))
  | .popHead old => old.ptr.map fun p =>
    if s.head = old then
      { s with
        head := (s.node p).next
        headLeft := bump s.headLeft s.head.ptr
        front := s.front.tail
        popped := s.popped ++ [none] }.go i (.popData old s.popped.length)
    else s.go i (.releaseLoad p (.popAgain s.head))
  | .popData old turn => old.ptr.map fun p =>
    { s with
      node := Function.update s.node p { s.node p with data := none }
      popped := s.popped.set turn (some (s.node p).data) }.go i (.freeLoad old .done)
  | .freeLoad old k => old.ptr.map fun p => s.go i (.freeCas old (s.node p).count k)
  | .freeCas old c k => old.ptr.map fun p =>
    if (s.node p).count = c then (s.setCount p (c.free old)).go i k.pc
    else s.go i (.freeCas old (s.node p).count k)
  | .releaseLoad p k => some (s.go i (.releaseCas p (s.node p).count k))
  | .releaseCas p c k =>
    if (s.node p).count = c then some ((s.setCount p c.release).go i k.pc)
    else some (s.go i (.releaseCas p (s.node p).count k))

end State

inductive Action (T : Type)
  | push (newValue : T) (node : Nat)
  | pop
  | next
deriving Repr

/-- The address that `new` returns. -/
def Action.node : Action T → Option Nat
  | .push _ n => some n
  | _ => none

namespace State

variable [DecidableEq Tid]

def act (s : State T Tid) (i : Tid) : Action T → Option (State T Tid)
  | .push v n => s.push i v n
  | .pop => s.pop i
  | .next => s.next i

/-- A data CAS of thread `i` is about to succeed on a node that tail has left. -/
def stale (s : State T Tid) (i : Tid) : Bool :=
  match s.pc i with
  | .pushData _ _ old => old.ptr.any fun p => (s.node p).data.isNone && s.tail.ptr ≠ some p
  | _ => false

/-- A step whose allocation is allowed by `free`, and whose thread by `ok`. -/
def Step (free : State T Tid → Nat → Prop) (ok : State T Tid → Tid → Prop) (s t : State T Tid) : Prop :=
  ∃ i x, s.act i x = some t ∧ (∀ n, x.node = some n → free s n) ∧ ok s i

def Init (s : State T Tid) : Prop := ∃ dummy, s = make dummy

section Schedules

variable (free : State T Tid → Nat → Prop) (ok : State T Tid → Tid → Prop) [∀ s n, Decidable (free s n)]
  [∀ s i, Decidable (ok s i)]

/-- The steps of a schedule. -/
def exec (s : State T Tid) : List (Tid × Action T) → Option (State T Tid)
  | [] => some s
  | (i, x) :: l =>
    if x.node.all (fun n => free s n) ∧ ok s i then (s.act i x).bind (fun t => exec t l) else none

variable {free ok}

theorem exec_reachable {s t : State T Tid} {l : List (Tid × Action T)} (hs : Reachable Init (Step free ok) s)
    (h : exec free ok s l = some t) : Reachable Init (Step free ok) t := by
  induction l generalizing s with
  | nil =>
    cases h
    exact hs
  | cons a l ih =>
    obtain ⟨i, x⟩ := a
    rw [exec] at h
    split at h
    case isTrue hx =>
      obtain ⟨u, hu, h⟩ := Option.bind_eq_some_iff.1 h
      refine ih (hs.tail ⟨i, x, hu, fun n hn => ?_, hx.2⟩) h
      have hfree := hx.1
      rw [hn] at hfree
      simpa using hfree
    case isFalse => cases h

/-- What a schedule of a new queue shows. -/
theorem exec_make {α : Type} {dummy : Nat} {l : List (Tid × Action T)} {f : State T Tid → α} {y : α}
    (h : (exec free ok (make dummy) l).map f = some y) : ∃ s, Reachable Init (Step free ok) s ∧ f s = y := by
  obtain ⟨s, hs, hy⟩ := Option.map_eq_some_iff.1 h
  exact ⟨s, exec_reachable (.of_init ⟨dummy, rfl⟩) hs, hy⟩

end Schedules

end State

end Wizard.NonlockFreeQueue
