import Wizard.QueueIndex
import Wizard.SlotFutex

/-! The bounded queue as a transition system. A call draws a ticket from one of
the two indices, waits for its slot to reach the version of the ticket, runs its
callback on the slot and advances the version. The record of drawn, started and
completed tickets is kept beside the queue and no step reads it. -/

namespace Wizard.BoundedQueue

open SlotFutex

inductive Op
  | push
  | pop
deriving Repr, DecidableEq

/-- Where a call stands in `process`. -/
inductive Phase
  | wait (pc : WaitPc)
  | ready
  | callback
  | advance (pc : AdvancePc)
deriving Repr, DecidableEq

structure Call where
  op : Op
  index : BitVec 64
  phase : Phase
deriving Repr, DecidableEq

/-- What has happened to the tickets so far: how many were drawn, whose callback
was started, who advanced the version of its slot, the value a push left in its
slot and the value a pop was started on. -/
structure Record (T : Type*) where
  drawn : Op → Nat
  started : Op → Nat → Bool
  completed : Op → Nat → Bool
  left : Nat → Option T
  got : Nat → Option T

structure State (T Tid : Type*) where
  nextIndex : Op → BitVec 64
  word : BitVec 32 → BitVec 32
  value : BitVec 32 → T
  call : Tid → Option Call
  record : Record T

variable {T Tid : Type*}

def expectedVersion (g : Geometry) : Op → BitVec 64 → BitVec 16
  | .push, index => pushVersionForIndex g index
  | .pop, index => popVersionForIndex g index

def Phase.ofWait : Option WaitPc → Phase
  | some pc => .wait pc
  | none => .ready

def Phase.woken : Phase → Phase
  | .wait pc => .wait (wakeAll pc)
  | phase => phase

/-- `wake_all` on a slot reaches the calls that sleep on that slot. -/
def Call.woken (g : Geometry) (slot : BitVec 32) (c : Call) : Call :=
  if slotId g c.index = slot then { c with phase := c.phase.woken } else c

def Call.ofExchange (c : Call) : Option AdvancePc → Option Call
  | some pc => some { c with phase := .advance pc }
  | none => none

def setAt {α : Type*} (f : Op → Nat → α) (op : Op) (i : Nat) (a : α) : Op → Nat → α :=
  Function.update f op (Function.update (f op) i a)

def Record.draw (r : Record T) (op : Op) : Record T :=
  { r with drawn := Function.update r.drawn op (r.drawn op + 1) }

def Record.start (r : Record T) (op : Op) (i : Nat) (v : T) : Record T :=
  { r with
    started := setAt r.started op i true
    got := match op with
      | .push => r.got
      | .pop => Function.update r.got i (some v) }

def Record.leave (r : Record T) (op : Op) (i : Nat) (v : T) : Record T :=
  { r with
    left := match op with
      | .push => Function.update r.left i (some v)
      | .pop => r.left }

def Record.complete (r : Record T) (op : Op) (i : Nat) : Record T :=
  { r with completed := setAt r.completed op i true }

def Record.empty : Record T where
  drawn _ := 0
  started _ _ := false
  completed _ _ := false
  left _ := none
  got _ := none

def init (s : State T Tid) : Prop :=
  (∀ op, s.nextIndex op = 0) ∧ (∀ slot, s.word slot = 0) ∧ (∀ t, s.call t = none) ∧
    s.record = .empty

variable [DecidableEq Tid]

def State.setCall (s : State T Tid) (t : Tid) (c : Option Call) : State T Tid :=
  { s with call := Function.update s.call t c }

/-- Callbacks are arbitrary: while one runs it may write its slot any number of
times. -/
inductive Step (g : Geometry) : State T Tid → State T Tid → Prop
  | draw (s t op) (h : s.call t = none) :
      Step g s { s with
        nextIndex := Function.update s.nextIndex op (s.nextIndex op + 1)
        call := Function.update s.call t (some ⟨op, s.nextIndex op, .wait .load⟩)
        record := s.record.draw op }
  | wait (s t c pc word next) (h : s.call t = some c) (hp : c.phase = .wait pc)
      (hw : WaitStep (expectedVersion g c.op c.index) (s.word (slotId g c.index)) pc word next) :
      Step g s { s with
        word := Function.update s.word (slotId g c.index) word
        call := Function.update s.call t (some { c with phase := .ofWait next }) }
  | enter (s t c) (h : s.call t = some c) (hp : c.phase = .ready) :
      Step g s { s with
        call := Function.update s.call t (some { c with phase := .callback })
        record := s.record.start c.op c.index.toNat (s.value (slotId g c.index)) }
  | write (s t c v) (h : s.call t = some c) (hp : c.phase = .callback) :
      Step g s { s with value := Function.update s.value (slotId g c.index) v }
  | leave (s t c) (h : s.call t = some c) (hp : c.phase = .callback) :
      Step g s { s with
        call := Function.update s.call t (some { c with phase := .advance .exchange })
        record := s.record.leave c.op c.index.toNat (s.value (slotId g c.index)) }
  | exchange (s t c) (h : s.call t = some c) (hp : c.phase = .advance .exchange) :
      Step g s { s with
        word := Function.update s.word (slotId g c.index)
          ((expectedVersion g c.op c.index + 1).setWidth 32)
        call := Function.update s.call t
          (c.ofExchange (afterExchange (s.word (slotId g c.index))))
        record := s.record.complete c.op c.index.toNat }
  | wake (s t c) (h : s.call t = some c) (hp : c.phase = .advance .wake) :
      Step g s { s with
        call := Function.update
          (fun u => (s.call u).map (Call.woken g (slotId g c.index))) t none }

/-- The ticket of a call that has not yet advanced the version of its slot. -/
def Call.ticket (c : Call) : Option (Op × BitVec 64) :=
  if c.phase = .advance .wake then none else some (c.op, c.index)

def State.ticket (s : State T Tid) (t : Tid) : Option (Op × BitVec 64) :=
  (s.call t).bind Call.ticket

/-- Fewer than `2 ^ 64` tickets of each kind are drawn, and fewer than `2 ^ 15`
calls of each kind hold an uncompleted ticket for the same slot. -/
def Bounded (g : Geometry) (s : State T Tid) : Prop :=
  (∀ op, s.record.drawn op < 2 ^ 64) ∧
    ∀ op slot, {t | ∃ index, s.ticket t = some (op, index) ∧ slotId g index = slot}.encard < 2 ^ 15

end Wizard.BoundedQueue
