import Mathlib.Data.Int.ModEq
import Mathlib.Data.List.Basic
import Mathlib.Logic.Function.Basic

/-! The ring buffer. Positions are `int`s and the capacity is a `size_t`, so an
index is converted on every step. An operation has no result when it divides by
zero, when an `int` overflows, when it leaves the array, when it reads or
destroys a slot without an object, or when a `DCHECK` fails. -/

namespace Wizard

/-- `elements i` is the object in slot `i`, if there is one. -/
structure RingBuffer (T : Type) where
  elements : Nat → Option T
  tail : Int
  head : Int
  size : Nat
  capacity : Nat

namespace RingBuffer

variable {T : Type}

/-- `Overwrite`, and whether `T` is trivially destructible. -/
structure Kind where
  overwrite : Bool
  trivial : Bool

/-- An `int` in an expression of `size_t`s. -/
def toSize (i : Int) : Nat := (i % 2 ^ 64).toNat

/-- A `size_t` stored in an `int`. -/
def toInt (n : Nat) : Int := (n : Int).bmod (2 ^ 32)

theorem toSize_natCast {n : Nat} (hn : n < 2 ^ 64) : toSize (n : Int) = n := by
  have hmod : (n : Int) % 2 ^ 64 = n := Int.emod_eq_of_lt (Int.natCast_nonneg n) (by exact_mod_cast hn)
  rw [toSize, hmod, Int.toNat_natCast]

theorem toInt_of_lt {n : Nat} (hn : n < 2 ^ 31) : toInt n = n :=
  Int.bmod_eq_of_le (by omega) (by omega)

theorem le_toInt (n : Nat) : -2 ^ 31 ≤ toInt n := by
  have h : (-2 ^ 31 : Int) = -(((2 ^ 32 : Nat) : Int) / 2) := by omega
  rw [h]
  exact Int.le_bmod (Nat.two_pow_pos _)

theorem toInt_lt (n : Nat) : toInt n < 2 ^ 31 := by
  have h : (2 ^ 31 : Int) = (((2 ^ 32 : Nat) : Int) + 1) / 2 := by omega
  rw [h]
  exact Int.bmod_lt (Nat.two_pow_pos _)

/-- The conversion takes away a multiple of `2 ^ 32`. -/
theorem lt_of_le_toInt_sub {n : Nat} (h : -2 ^ 31 ≤ toInt n - n) : n < 2 ^ 31 := by
  have hlt := toInt_lt n
  obtain ⟨k, hk⟩ : ((2 ^ 32 : Nat) : Int) ∣ toInt n - n := Int.dvd_bmod_sub_self
  omega

def incr (i : Int) : Option Int := if i + 1 < 2 ^ 31 then some (i + 1) else none

def rem (n c : Nat) : Option Nat := if c = 0 then none else some (n % c)

/-- `(i + 1) % capacity`. -/
def nextIndex (i : Int) (c : Nat) : Option Int := do
  let r ← rem (toSize (← incr i)) c
  return toInt r

def make (capacity : Nat) : RingBuffer T := ⟨fun _ => none, -1, 0, 0, capacity⟩

/-- `elements_[index]`. -/
def slot (b : RingBuffer T) (index : Nat) : Option T :=
  if index < b.capacity then b.elements index else none

def empty (b : RingBuffer T) : Bool := b.size = 0

def full (b : RingBuffer T) : Bool := b.size = b.capacity

/-- `_destroy`, which does nothing for a trivially destructible type. -/
def destroy (k : Kind) (b : RingBuffer T) (index : Nat) : Option (RingBuffer T) :=
  if k.trivial then some b else do
    let _ ← b.slot index
    return { b with elements := Function.update b.elements index none }

def popFront (k : Kind) (b : RingBuffer T) : Option (RingBuffer T) :=
  if b.empty then some b else do
    let b ← b.destroy k (toSize b.head)
    return { b with size := b.size - 1, head := ← nextIndex b.head b.capacity }

def emplaceBackImpl (b : RingBuffer T) (x : T) : Option (RingBuffer T) := do
  let tail ← nextIndex b.tail b.capacity
  if 0 ≤ tail ∧ tail < b.capacity then
    some { b with elements := Function.update b.elements tail.toNat (some x), tail := tail, size := b.size + 1 }
  else none

def emplaceBack (k : Kind) (b : RingBuffer T) (x : T) : Option (RingBuffer T) :=
  if b.full then
    if k.overwrite then do (← b.popFront k).emplaceBackImpl x else some b
  else b.emplaceBackImpl x

/-- The loop of `_destroy_all` for a type with a destructor. -/
def destroyAll (k : Kind) : Nat → RingBuffer T → Option (RingBuffer T)
  | 0, _ => none
  | fuel + 1, b =>
    if b.empty then some b else do
      let b ← b.destroy k (toSize b.head)
      destroyAll k fuel { b with head := ← nextIndex b.head b.capacity, size := b.size - 1 }

def clear (k : Kind) (b : RingBuffer T) : Option (RingBuffer T) :=
  if k.trivial then some { b with head := 0, tail := -1, size := 0 } else b.destroyAll k (b.size + 1)

def back (b : RingBuffer T) : Option T :=
  if 0 < b.size then b.slot (toSize b.tail) else none

/-- The `const` version calls this one. -/
def front (b : RingBuffer T) : Option T :=
  if 0 < b.size then b.slot (toSize b.head) else none

/-- Both versions. -/
def at? (b : RingBuffer T) (index : Nat) : Option T :=
  if index < b.size then do b.slot (← rem ((index + toSize b.head) % 2 ^ 64) b.capacity) else none

/-- `C` is for the `const` iterators, `R` for the reverse ones. -/
structure RingBufferIterator (C R : Bool) where
  index : Int
  plusCount : Nat

namespace RingBufferIterator

variable {C R : Bool}

def deref (it : RingBufferIterator C R) (b : RingBuffer T) : Option T := b.slot (toSize it.index)

def next (it : RingBufferIterator C R) (b : RingBuffer T) : Option (RingBufferIterator C R) := do
  let index ← if R then (rem ((toSize it.index + b.capacity + (2 ^ 64 - 1)) % 2 ^ 64) b.capacity).map toInt
    else nextIndex it.index b.capacity
  return ⟨index, it.plusCount + 1⟩

/-- The elements from `it` up to `last`. -/
def upTo (b : RingBuffer T) (last : RingBufferIterator C R) :
    Nat → RingBufferIterator C R → Option (List T)
  | 0, _ => none
  | fuel + 1, it =>
    if it.plusCount = last.plusCount then some [] else do
      let x ← it.deref b
      let l ← upTo b last fuel (← it.next b)
      return x :: l

end RingBufferIterator

section Iterators

variable (b : RingBuffer T)

def begin : RingBufferIterator false false := ⟨b.head, 0⟩

def end' : RingBufferIterator false false := ⟨b.tail, b.size⟩

def rbegin : RingBufferIterator false true := ⟨b.tail, 0⟩

def rend : RingBufferIterator false true := ⟨b.head, b.size⟩

def cbegin : RingBufferIterator true false := ⟨b.head, 0⟩

def cend : RingBufferIterator true false := ⟨b.tail, b.size⟩

def crbegin : RingBufferIterator true true := ⟨b.tail, 0⟩

def crend : RingBufferIterator true true := ⟨b.head, b.size⟩

def traverse {C R : Bool} (first last : RingBufferIterator C R) : Option (List T) :=
  RingBufferIterator.upTo b last (b.size + 1) first

end Iterators

end RingBuffer

end Wizard
