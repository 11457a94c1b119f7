import Mathlib.Data.BitVec

/-! Nodes with counted references, as both queues have them. Addresses are
numbers, and a null pointer is none. -/

namespace Wizard

structure CountedNodePtr where
  externalCount : BitVec 32
  ptr : Option Nat
deriving Repr, DecidableEq

structure NodeCounter where
  internalCount : BitVec 30
  externalCounters : BitVec 2
deriving Repr, DecidableEq

/-- `Node` of both queues; `data` points to a value of type `T`. -/
structure CountedNode (T : Type) where
  data : Option T
  count : NodeCounter
  next : CountedNodePtr
deriving Repr

def CountedNode.make {T : Type} : CountedNode T := ⟨none, ⟨0, 2⟩, ⟨0, none⟩⟩

/-- `new_next` of a push. -/
def CountedNodePtr.first (n : Nat) : CountedNodePtr := ⟨1, some n⟩

/-- The new value in `increase_external_count`. -/
def CountedNodePtr.increase (c : CountedNodePtr) : CountedNodePtr :=
  { c with externalCount := c.externalCount + 1 }

namespace NodeCounter

/-- The new value in `release_ref`. -/
def release (c : NodeCounter) : NodeCounter := { c with internalCount := c.internalCount - 1 }

def countIncrease (c : CountedNodePtr) : BitVec 32 := c.externalCount - 2

/-- The new value in `free_external_counter`. -/
def free (c : NodeCounter) (old : CountedNodePtr) : NodeCounter :=
  ⟨c.internalCount + (countIncrease old).setWidth 30, c.externalCounters - 1⟩

def isZero (c : NodeCounter) : Bool := c.internalCount = 0 && c.externalCounters = 0

end NodeCounter

end Wizard
