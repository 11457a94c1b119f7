import Mathlib.Tactic
import Wizard.Places
import Wizard.Runs
import Wizard.Segment

/-! The list of retired objects of the concurrent vector. The head carries the time unit
of the newest push in its upper 16 bits, and a collection drops the whole list when that
tag is away from the present unit. -/

namespace Wizard.RetireList

abbrev Ptr := BitVec 64

abbrev TaggedPtr := BitVec 64

/-- The null pointer is `none`. -/
def getPtr (x : TaggedPtr) : Option Ptr :=
  if x &&& 0x0000FFFFFFFFFFFF#64 = 0 then none else some (x &&& 0x0000FFFFFFFFFFFF#64)

def getTag (x : TaggedPtr) : BitVec 16 := (x >>> 48).setWidth 16

def makeTaggedPtr (p : Ptr) (tag : BitVec 16) : TaggedPtr := p ||| (tag.setWidth 64 <<< 48)

def expire (head : TaggedPtr) (now : BitVec 16) : Bool := 1 < (getTag head - now).toNat

/-- Where a thread stands in `try_gc` or `push`. Within `retire`, `after` is the node to
push; `now` is the time unit that the thread has read, of which the code keeps 16 bits. -/
inductive Pc
  | idle
  | gcLoad (now : Nat) (after : Option Ptr)
  | gcCas (now : Nat) (after : Option Ptr) (oldHead : TaggedPtr)
  | deleting (now : Nat) (after : Option Ptr) (n : Ptr)
  | pushLoad (now : Nat) (n : Ptr)
  | pushLink (now : Nat) (n : Ptr) (oldHead : TaggedPtr)
  | pushCas (now : Nat) (n : Ptr) (oldHead : TaggedPtr)

/-- An object handed to the deleter, the unit of its push and that of the `try_gc`. -/
structure Freed (Obj : Type*) where
  data : Option Obj
  ts : Nat
  now : Nat

structure State (Tid Obj : Type*) where
  head : TaggedPtr
  next : Ptr → Option Ptr
  data : Ptr → Option Obj
  live : Ptr → Prop
  stamp : Ptr → Nat
  clock : Nat
  pc : Tid → Pc
  freed : List (Freed Obj)

variable {Tid Obj : Type*}

structure Init (start : Nat) (s : State Tid Obj) : Prop where
  head : s.head = 0
  live : ∀ p, ¬ s.live p
  clock : s.clock = start
  pc : ∀ t, s.pc t = .idle
  freed : s.freed = []

variable [DecidableEq Tid]

def State.setPc (s : State Tid Obj) (t : Tid) (pc : Pc) : State Tid Obj :=
  { s with pc := Function.update s.pc t pc }

/-- The end of `try_gc`. -/
def State.finishGc (s : State Tid Obj) (t : Tid) (now : Nat) : Option Ptr → State Tid Obj
  | none => s.setPc t .idle
  | some n => s.setPc t (.pushLoad now n)

/-- The turn of `delete_list` at a pointer. -/
def State.deleteAt (s : State Tid Obj) (t : Tid) (now : Nat) (after : Option Ptr) : Option Ptr → State Tid Obj
  | none => s.finishGc t now after
  | some n => s.setPc t (.deleting now after n)

/-- The steps of thread `t`; the clock spans fewer than `2 ^ 16` units from `start`. A
pointer to a new node fits in 48 bits. -/
inductive Step (start : Nat) (t : Tid) : State Tid Obj → State Tid Obj → Prop
  | tick (s c) (hc : s.clock ≤ c) (hspan : c < start + 2 ^ 16) : Step start t s { s with clock := c }
  | retire (s p d) (ht : s.pc t = .idle) (hp : ¬ s.live p) (h0 : p ≠ 0) (h48 : p.toNat < 2 ^ 48) :
      Step start t s ({ s with
        live := fun q => q = p ∨ s.live q
        next := Function.update s.next p none
        data := Function.update s.data p (some d)
        stamp := Function.update s.stamp p s.clock }.setPc t (.gcLoad s.clock (some p)))
  | tryGc (s) (ht : s.pc t = .idle) : Step start t s (s.setPc t (.gcLoad s.clock none))
  | gcLoad (s now after) (ht : s.pc t = .gcLoad now after) :
      Step start t s (if expire s.head (BitVec.ofNat 16 now) then s.setPc t (.gcCas now after s.head)
        else s.finishGc t now after)
  | gcCasOk (s now after oldHead) (ht : s.pc t = .gcCas now after oldHead) (he : s.head = oldHead) :
      Step start t s ({ s with head := 0 }.deleteAt t now after (getPtr oldHead))
  | gcCasFail (s now after oldHead) (ht : s.pc t = .gcCas now after oldHead) :
      Step start t s (s.finishGc t now after)
  | delete (s now after n) (ht : s.pc t = .deleting now after n) :
      Step start t s ({ s with
        live := fun q => q ≠ n ∧ s.live q
        freed := ⟨s.data n, s.stamp n, now⟩ :: s.freed }.deleteAt t now after (s.next n))
  | pushLoad (s now n) (ht : s.pc t = .pushLoad now n) : Step start t s (s.setPc t (.pushLink now n s.head))
  | pushLink (s now n oldHead) (ht : s.pc t = .pushLink now n oldHead) :
      Step start t s ({ s with next := Function.update s.next n (getPtr oldHead) }.setPc t (.pushCas now n oldHead))
  | pushCasOk (s now n oldHead) (ht : s.pc t = .pushCas now n oldHead) (he : s.head = oldHead) :
      Step start t s ({ s with head := makeTaggedPtr n (BitVec.ofNat 16 now) }.setPc t .idle)
  | pushCasFail (s now n oldHead) (ht : s.pc t = .pushCas now n oldHead) :
      Step start t s (s.setPc t (.pushLink now n s.head))

def Next (start : Nat) (s s' : State Tid Obj) : Prop := ∃ t, Step start t s s'

/-- A `try_gc` does not take a list whose newest node is of the unit just before its own
or of a unit more than one ahead of it, and a push does not put its node on a newer one. -/
structure Careful (t : Tid) (s s' : State Tid Obj) : Prop where
  drop : ∀ now after oldHead p, s.pc t = .gcCas now after oldHead → s'.head ≠ s.head → getPtr s.head = some p →
    s.stamp p = now ∨ s.stamp p = now + 1 ∨ s.stamp p + 2 ≤ now
  push : ∀ now n oldHead p, s.pc t = .pushCas now n oldHead → s'.head ≠ s.head → getPtr s.head = some p →
    s.stamp p ≤ now

def CarefulStep (start : Nat) (s s' : State Tid Obj) : Prop := ∃ t, Step start t s s' ∧ Careful t s s'

section Tags

theorem makeTaggedPtr_toNat {p : Ptr} (hp : p.toNat < 2 ^ 48) (tag : BitVec 16) :
    (makeTaggedPtr p tag).toNat = tag.toNat * 2 ^ 48 + p.toNat := by
  have htag := tag.isLt
  have hshift : (tag.setWidth 64 <<< 48).toNat = tag.toNat <<< 48 := by
    rw [BitVec.toNat_shiftLeft, BitVec.toNat_setWidth, Nat.mod_eq_of_lt (by omega), Nat.shiftLeft_eq]
    omega
  rw [makeTaggedPtr, BitVec.toNat_or, hshift, Nat.or_comm, ← Nat.shiftLeft_add_eq_or_of_lt hp, Nat.shiftLeft_eq]

theorem getTag_makeTaggedPtr {p : Ptr} (hp : p.toNat < 2 ^ 48) (tag : BitVec 16) :
    getTag (makeTaggedPtr p tag) = tag := by
  have htag := tag.isLt
  apply BitVec.eq_of_toNat_eq
  rw [getTag, BitVec.toNat_setWidth, BitVec.toNat_ushiftRight, makeTaggedPtr_toNat hp, Nat.shiftRight_eq_div_pow]
  omega

theorem getPtr_makeTaggedPtr {p : Ptr} (h0 : p ≠ 0) (hp : p.toNat < 2 ^ 48) (tag : BitVec 16) :
    getPtr (makeTaggedPtr p tag) = some p := by
  have hmask : makeTaggedPtr p tag &&& 0x0000FFFFFFFFFFFF#64 = p := by
    apply BitVec.eq_of_toNat_eq
    rw [BitVec.toNat_and, makeTaggedPtr_toNat hp]
    change (tag.toNat * 2 ^ 48 + p.toNat) &&& (2 ^ 48 - 1) = p.toNat
    rw [Nat.and_two_pow_sub_one_eq_mod]
    omega
  rw [getPtr, hmask, if_neg h0]

/-- A collection that finds a unit other than these two starts. -/
theorem not_expire {head : TaggedPtr} {ts now : Nat} (ht : getTag head = BitVec.ofNat 16 ts)
    (h : ts = now ∨ ts = now + 1) :
    expire head (BitVec.ofNat 16 now) = false := by
  have hle : (BitVec.ofNat 16 ts - BitVec.ofNat 16 now).toNat ≤ 1 := by
    rw [BitVec.toNat_sub, BitVec.toNat_ofNat, BitVec.toNat_ofNat]
    omega
  rw [expire, ht]
  exact decide_eq_false (by omega)

end Tags

end Wizard.RetireList
