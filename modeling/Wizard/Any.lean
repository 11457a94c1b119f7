import Mathlib.Data.BitVec
import Mathlib.Logic.Function.Basic

/-! The type-erased `Any` of `any.h`. An `Any` has its value in a `Holder` of its own, refers to
an object elsewhere, or keeps a primitive in `_primitive_value`. -/

namespace Wizard.Any

/-- The primitive values of `Any::Type`. -/
inductive Primitive
  | int64
  | int32
  | uint64
  | uint32
  | boolean
  | int16
  | uint16
  | double
  | float
  deriving DecidableEq

def Primitive.width : Primitive → Nat
  | .int64 | .uint64 | .double => 64
  | .int32 | .uint32 | .float => 32
  | .int16 | .uint16 => 16
  | .boolean => 8

/-- Whose `TYPE_NAME` it is. A holder may have an instance of any of these types, of a primitive
type too: `Any a = 5` takes the constructor for instances. -/
inductive TypeId (T : Type*)
  | nullptr
  | primitive (p : Primitive)
  | other (t : T)
  deriving DecidableEq

/-- A pointer to an object or to the `_primitive_value` of an `Any`. -/
inductive Ptr
  | nullptr
  | object (o : Nat)
  | primitiveValue (a : Nat)
  deriving DecidableEq

/-- The fields of an `Any`. Its `type` is `none` for `INSTANCE`. -/
structure Fields (T : Type*) where
  empty : Bool
  type : Option Primitive
  instanseType : TypeId T
  holder : Option Nat
  pointer : Ptr
  primitiveValue : BitVec 64
  constRef : Bool

/-- The lowest bits, which are the bytes of a field of the union. -/
def low (width : Nat) (v : BitVec 64) : BitVec 64 := v &&& BitVec.ofNat 64 (2 ^ width - 1)

/-- A field of the union is set, and its other bytes stay. -/
def setLow (width : Nat) (old v : BitVec 64) : BitVec 64 :=
  (old &&& ~~~BitVec.ofNat 64 (2 ^ width - 1)) ||| low width v

namespace Fields

variable {T : Type*}

def default : Fields T := ⟨true, none, .nullptr, none, .nullptr, 0, true⟩

def ofValue (o : Nat) (t : TypeId T) : Fields T := ⟨false, none, t, some o, .object o, 0, false⟩

def ofPrimitive (a : Nat) (p : Primitive) (v : BitVec 64) : Fields T :=
  ⟨false, some p, .primitive p, none, .primitiveValue a, setLow p.width 0 v, false⟩

/-- `ref` of a primitive. The holder stays as it is. -/
def refPrimitive (f : Fields T) (a : Nat) (p : Primitive) (v : BitVec 64) : Fields T :=
  { f with
    empty := false
    type := some p
    instanseType := .primitive p
    pointer := .primitiveValue a
    constRef := false
    primitiveValue := setLow p.width f.primitiveValue v }

/-- `ref` of an instance. -/
def ref (f : Fields T) (t : TypeId T) (o : Nat) : Fields T :=
  { f with
    empty := false
    type := none
    instanseType := t
    holder := none
    pointer := .object o
    primitiveValue := 0
    constRef := false }

/-- The copy at `a`, with the clone of the holder. -/
def copy (f : Fields T) (a : Nat) (holder : Option Nat) : Fields T :=
  { f with
    holder := holder
    pointer :=
      match holder, f.type with
      | some o, _ => .object o
      | none, none => f.pointer
      | none, some _ => .primitiveValue a }

/-- What is moved to `a`. -/
def move (f : Fields T) (a : Nat) : Fields T :=
  { f with
    pointer :=
      match f.type with
      | none => f.pointer
      | some _ => .primitiveValue a }

def movedFrom (f : Fields T) : Fields T := { f with holder := none }

def setPointer (f : Fields T) (a : Nat) : Fields T :=
  match f.holder, f.type with
  | some o, _ => { f with pointer := .object o }
  | none, some _ => { f with pointer := .primitiveValue a }
  | none, none => f

/-- The primitive is written through a pointer to it. -/
def setPrimitive (f : Fields T) (p : Primitive) (v : BitVec 64) : Fields T :=
  { f with primitiveValue := setLow p.width f.primitiveValue v }

def clear (f : Fields T) : Fields T := { f with empty := true, type := none, instanseType := .nullptr, holder := none }

section Get

variable [DecidableEq T]

/-- `get<T>()` of an `Any` that is not `const`. -/
def get (f : Fields T) (t : TypeId T) : Ptr := if !f.constRef && f.instanseType = t then f.pointer else .nullptr

/-- `get<T>() const`. -/
def getConst (f : Fields T) (t : TypeId T) : Ptr := if f.instanseType = t then f.pointer else .nullptr

end Get

/-- `to<uint64_t>`, `none` where it returns -1. -/
def toUInt64 (f : Fields T) : Option (BitVec 64) :=
  match f.type with
  | some .int32 =>
    let v := f.primitiveValue.setWidth 32
    if 0 ≤ v.toInt then some (v.signExtend 64) else none
  | some .int64 => if 0 ≤ f.primitiveValue.toInt then some f.primitiveValue else none
  | some .uint32 => some ((f.primitiveValue.setWidth 32).setWidth 64)
  | some .uint64 => some f.primitiveValue
  | _ => none

end Fields

/-- `object` are the instances in holders and, where `outside` says so, objects of others. Names
of objects are not used again. -/
structure State (T V : Type*) where
  any : Nat → Option (Fields T)
  object : Nat → Option (TypeId T × V)
  outside : Nat → Bool
  fresh : Nat

/-- What a program does with `Any`s and with the objects that they refer to. The `tmp` of an
assignment is the name of its local `Any`. `write` and `writePrimitive` write what `get` points
to, for the type that the `Any` has. -/
inductive Op (T V : Type*)
  | make (a : Nat)
  | makeValue (a : Nat) (t : TypeId T) (v : V)
  | makePrimitive (a : Nat) (p : Primitive) (v : BitVec 64)
  | copy (a other : Nat)
  | move (a other : Nat)
  | destroy (a : Nat)
  | swap (a rhs : Nat)
  | assign (a other tmp : Nat)
  | assignMove (a other tmp : Nat)
  | assignValue (a : Nat) (t : TypeId T) (v : V) (tmp : Nat)
  | assignPrimitive (a : Nat) (p : Primitive) (v : BitVec 64) (tmp : Nat)
  | ref (a : Nat) (t : TypeId T) (o : Nat)
  | refPrimitive (a : Nat) (p : Primitive) (v : BitVec 64)
  | clear (a : Nat)
  | write (a : Nat) (v : V)
  | writePrimitive (a : Nat) (v : BitVec 64)
  | newObject (t : TypeId T) (v : V)
  | writeObject (o : Nat) (v : V)
  | deleteObject (o : Nat)

namespace State

variable {T V : Type*} (s : State T V)

def set (a : Nat) (f : Option (Fields T)) : State T V := { s with any := Function.update s.any a f }

def alloc (x : TypeId T × V) (outside : Bool) : State T V :=
  { s with
    object := Function.update s.object s.fresh (some x)
    outside := Function.update s.outside s.fresh outside
    fresh := s.fresh + 1 }

/-- No `shared_ptr` to a holder is ever copied, so the holder goes with it. -/
def free : Option Nat → State T V
  | none => s
  | some o => { s with object := Function.update s.object o none }

def construct (a : Nat) (f : Fields T) : Option (State T V) :=
  if (s.any a).isSome then none else some (s.set a (some f))

def makeValue (a : Nat) (t : TypeId T) (v : V) : Option (State T V) :=
  (s.alloc (t, v) false).construct a (.ofValue s.fresh t)

def makePrimitive (a : Nat) (p : Primitive) (v : BitVec 64) : Option (State T V) := s.construct a (.ofPrimitive a p v)

def copy (a other : Nat) : Option (State T V) :=
  (s.any other).bind fun f =>
    match f.holder with
    | none => s.construct a (f.copy a none)
    | some o => (s.object o).bind fun x => (s.alloc x false).construct a (f.copy a (some s.fresh))

def move (a other : Nat) : Option (State T V) :=
  (s.any other).bind fun f => (s.construct a (f.move a)).map fun s => s.set other (some f.movedFrom)

def destroy (a : Nat) : Option (State T V) := (s.any a).map fun f => (s.set a none).free f.holder

def swap (a rhs : Nat) : Option (State T V) :=
  (s.any a).bind fun f => (s.any rhs).map fun g =>
    (s.set a (some (g.setPointer a))).set rhs (some (f.setPointer rhs))

/-- Each `operator=`, which makes its `tmp` first. -/
def assign (a tmp : Nat) (made : Option (State T V)) : Option (State T V) :=
  if (s.any a).isSome then made.bind fun s => (s.swap a tmp).bind fun s => s.destroy tmp else none

def write (o : Nat) (v : V) : Option (State T V) :=
  (s.object o).map fun x => { s with object := Function.update s.object o (some (x.1, v)) }

/-- A step of the program, `none` where an `Any` or object does not exist or exists already. -/
def step [DecidableEq T] (s : State T V) : Op T V → Option (State T V)
  | .make a => s.construct a .default
  | .makeValue a t v => s.makeValue a t v
  | .makePrimitive a p v => s.makePrimitive a p v
  | .copy a other => s.copy a other
  | .move a other => s.move a other
  | .destroy a => s.destroy a
  | .swap a rhs => s.swap a rhs
  | .assign a other tmp => s.assign a tmp (s.copy tmp other)
  | .assignMove a other tmp => s.assign a tmp (s.move tmp other)
  | .assignValue a t v tmp => s.assign a tmp (s.makeValue tmp t v)
  | .assignPrimitive a p v tmp => s.assign a tmp (s.makePrimitive tmp p v)
  | .ref a t o => (s.any a).bind fun f => (s.object o).bind fun x =>
      if x.1 = t then some ((s.set a (some (f.ref t o))).free f.holder) else none
  | .refPrimitive a p v => (s.any a).map fun f => s.set a (some (f.refPrimitive a p v))
  | .clear a => (s.any a).map fun f => (s.set a (some f.clear)).free f.holder
  | .write a v => (s.any a).bind fun f =>
      match f.get f.instanseType with
      | .object o => if f.instanseType = .nullptr then none else s.write o v
      | _ => none
  | .writePrimitive a v => (s.any a).bind fun f => f.type.bind fun p =>
      if f.get (.primitive p) = .primitiveValue a then some (s.set a (some (f.setPrimitive p v))) else none
  | .newObject t v => some (s.alloc (t, v) true)
  | .writeObject o v => if s.outside o then s.write o v else none
  | .deleteObject o => if s.outside o then (s.object o).map fun _ => s.free (some o) else none

end State

end Wizard.Any
