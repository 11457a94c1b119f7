import Wizard.PowTwo

/-! Splitting a ticket of the bounded queue into a slot number and a round. The
capacity is a power of two, so the split is a mask and a shift; the version a
ticket waits for is its round, doubled and cut to 16 bits. -/

namespace Wizard.BoundedQueue

/-- `__builtin_popcount`, which takes an `unsigned int`. -/
def builtinPopcount (x : BitVec 32) : Nat :=
  (List.range 32).countP (fun i => x.getLsbD i)

structure Geometry where
  capacity : BitVec 64
  roundBits : Nat
deriving Repr, DecidableEq

/-- The capacity and the shift that `reserve_and_clear` sets. -/
def Geometry.reserve (minCapacity : BitVec 64) : Geometry where
  capacity := nextPowTwo minCapacity
  roundBits := builtinPopcount ((nextPowTwo minCapacity - 1).setWidth 32)

def pushVersionForIndex (g : Geometry) (index : BitVec 64) : BitVec 16 :=
  ((index >>> g.roundBits) <<< 1).setWidth 16

def popVersionForIndex (g : Geometry) (index : BitVec 64) : BitVec 16 :=
  pushVersionForIndex g index + 1

def slotId (g : Geometry) (index : BitVec 64) : BitVec 32 :=
  (index &&& (g.capacity - 1)).setWidth 32

theorem reserve_twoPow {b : Nat} (hb : b ≤ 32) :
    Geometry.reserve (BitVec.ofNat 64 (2 ^ b)) = ⟨BitVec.ofNat 64 (2 ^ b), b⟩ := by
  revert b
  decide

section TwoPow

variable {b : Nat} (hb : b ≤ 32)
include hb

theorem capacity_toNat : (Geometry.reserve (BitVec.ofNat 64 (2 ^ b))).capacity.toNat = 2 ^ b := by
  rw [reserve_twoPow hb, twoPow_toNat (by omega)]

theorem slotId_toNat (index : BitVec 64) :
    (slotId (.reserve (BitVec.ofNat 64 (2 ^ b))) index).toNat = index.toNat % 2 ^ b := by
  have hp : 2 ^ b ≤ 2 ^ 32 := Nat.pow_le_pow_right (by omega) hb
  have hlt : index.toNat % 2 ^ b < 2 ^ 32 := (Nat.mod_lt _ (Nat.two_pow_pos b)).trans_le hp
  simp only [slotId, reserve_twoPow hb, BitVec.toNat_setWidth, BitVec.toNat_and, mask_toNat (show b ≤ 63 by omega),
    Nat.and_two_pow_sub_one_eq_mod]
  exact Nat.mod_eq_of_lt hlt

theorem pushVersionForIndex_eq (index : BitVec 64) :
    pushVersionForIndex (.reserve (BitVec.ofNat 64 (2 ^ b))) index =
      BitVec.ofNat 16 (2 * (index.toNat / 2 ^ b)) := by
  apply BitVec.eq_of_toNat_eq
  simp only [pushVersionForIndex, reserve_twoPow hb, BitVec.toNat_setWidth, BitVec.toNat_shiftLeft,
    BitVec.toNat_ushiftRight, Nat.shiftRight_eq_div_pow, Nat.shiftLeft_eq, BitVec.toNat_ofNat]
  omega

theorem popVersionForIndex_eq (index : BitVec 64) :
    popVersionForIndex (.reserve (BitVec.ofNat 64 (2 ^ b))) index =
      BitVec.ofNat 16 (2 * (index.toNat / 2 ^ b) + 1) := by
  rw [popVersionForIndex, pushVersionForIndex_eq hb, BitVec.ofNat_add]
  rfl

end TwoPow

end Wizard.BoundedQueue
