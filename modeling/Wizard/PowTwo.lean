import Mathlib.Tactic

/-! Rounding a 64-bit word up to a power of two, as `findLastSet` and
`nextPowTwo` do it from the count of leading zeros. -/

namespace Wizard

/-- `__builtin_clzl` on a nonzero word. -/
def builtinClzl (x : BitVec 64) : Nat := 63 - x.toNat.log2

def findLastSet (x : BitVec 64) : Nat :=
  if x = 0 then 0 else (63 ^^^ builtinClzl x) + 1

def nextPowTwo (v : BitVec 64) : BitVec 64 :=
  if v = 0 then 1 else 1#64 <<< findLastSet (v - 1)

theorem findLastSet_eq {x : BitVec 64} (hx : x ≠ 0) : findLastSet x = x.toNat.log2 + 1 := by
  have hl : x.toNat.log2 < 64 := by
    rw [Nat.log2_lt (by simpa [← BitVec.toNat_inj] using hx)]
    exact x.isLt
  have hxor : ∀ a < 64, 63 ^^^ (63 - a) = a := by decide
  rw [findLastSet, if_neg hx, builtinClzl, hxor _ hl]

theorem findLastSet_le {x : BitVec 64} (hx : x.toNat < 2 ^ 63) : findLastSet x ≤ 63 := by
  by_cases h0 : x = 0
  · simp [findLastSet, h0]
  · have hn : x.toNat ≠ 0 := by simpa [← BitVec.toNat_inj] using h0
    have hl := (Nat.log2_lt hn).2 hx
    rw [findLastSet_eq h0]
    omega

theorem shiftLeft_one_toNat {j : Nat} (hj : j ≤ 63) : (1#64 <<< j).toNat = 2 ^ j := by
  have hp : 2 ^ j < 2 ^ 64 := Nat.pow_lt_pow_right (by omega) (by omega)
  rw [BitVec.toNat_shiftLeft, Nat.shiftLeft_eq]
  rw [BitVec.toNat_ofNat, Nat.one_mod, Nat.one_mul, Nat.mod_eq_of_lt hp]

theorem twoPow_toNat {b : Nat} (hb : b ≤ 63) : (BitVec.ofNat 64 (2 ^ b)).toNat = 2 ^ b := by
  have hp : 2 ^ b < 2 ^ 64 := Nat.pow_lt_pow_right (by omega) (by omega)
  rw [BitVec.toNat_ofNat, Nat.mod_eq_of_lt hp]

theorem mask_toNat {b : Nat} (hb : b ≤ 63) : (BitVec.ofNat 64 (2 ^ b) - 1).toNat = 2 ^ b - 1 := by
  have h1 := twoPow_toNat hb
  have hpos : 0 < 2 ^ b := Nat.two_pow_pos b
  rw [BitVec.toNat_sub_of_le (by bv_omega), h1]
  rfl

theorem nextPowTwo_toNat {v : BitVec 64} (hv : v.toNat ≤ 2 ^ 63) :
    ∃ j ≤ 63, (nextPowTwo v).toNat = 2 ^ j := by
  by_cases h0 : v = 0
  · exact ⟨0, by omega, by simp [nextPowTwo, h0]⟩
  · have hn : v.toNat ≠ 0 := by simpa [← BitVec.toNat_inj] using h0
    have hlt : (v - 1).toNat < 2 ^ 63 := by
      rw [BitVec.toNat_sub_of_le (by bv_omega)]
      have h1 : (1 : BitVec 64).toNat = 1 := rfl
      omega
    have hj := findLastSet_le hlt
    exact ⟨_, hj, by rw [nextPowTwo, if_neg h0, shiftLeft_one_toNat hj]⟩

/-- It is the least power of two that is not below `v` and not 0. -/
theorem nextPowTwo_isLeast {v : BitVec 64} (hv : v.toNat ≤ 2 ^ 63) :
    IsLeast {c | (∃ j, c = 2 ^ j) ∧ max v.toNat 1 ≤ c} (nextPowTwo v).toNat := by
  have hone : (1 : BitVec 64).toNat = 1 := rfl
  obtain ⟨hlow, hlarge⟩ : (∀ i, max v.toNat 1 ≤ 2 ^ i → (nextPowTwo v).toNat ≤ 2 ^ i) ∧
      max v.toNat 1 ≤ (nextPowTwo v).toNat := by
    by_cases h0 : v = 0
    · subst h0
      exact ⟨fun i _ => Nat.one_le_two_pow, by decide⟩
    · have hn : v.toNat ≠ 0 := by simpa [← BitVec.toNat_inj] using h0
      have hsub : (v - 1).toNat = v.toNat - 1 := by
        rw [BitVec.toNat_sub_of_le (by bv_omega), hone]
      have hlast := findLastSet_le (x := v - 1) (by omega)
      rw [nextPowTwo, if_neg h0, shiftLeft_one_toNat hlast]
      by_cases h1 : v - 1 = 0
      · have hv1 : v.toNat - 1 = 0 := by rw [← hsub, h1]; rfl
        rw [show findLastSet (v - 1) = 0 by rw [findLastSet, if_pos h1]]
        exact ⟨fun i _ => Nat.one_le_two_pow, by omega⟩
      · have hne : (v - 1).toNat ≠ 0 := by simpa [← BitVec.toNat_inj] using h1
        rw [findLastSet_eq h1]
        constructor
        · intro i hi
          apply Nat.pow_le_pow_right (by omega)
          by_contra hlt
          have hle := (Nat.le_log2 hne).1 (show i ≤ (v - 1).toNat.log2 by omega)
          omega
        · have hlt := Nat.lt_log2_self (n := (v - 1).toNat)
          omega
  obtain ⟨j, -, hj⟩ := nextPowTwo_toNat hv
  refine ⟨⟨⟨j, hj⟩, hlarge⟩, ?_⟩
  rintro c ⟨⟨i, rfl⟩, hi⟩
  exact hlow i hi

end Wizard
