import Wizard.BoundedQueueAlone
import Wizard.VectorSnapshot

/-! The splitting of an index by a capacity, in the bounded queue and in the vector. The bits of
the capacity are counted in an `unsigned int`, and the slot number of the queue is a `uint32_t`. -/

namespace Wizard.IndexSplit

open BoundedQueue Wizard.Vector

/-- `push_version_for_index` makes the version out of it. -/
def round (g : Geometry) (index : BitVec 64) : BitVec 64 := index >>> g.roundBits

theorem pushVersionForIndex_eq_round (g : Geometry) (index : BitVec 64) :
    pushVersionForIndex g index = (round g index <<< 1).setWidth 16 := rfl

/-- What `reserve_and_clear` does to the geometry. -/
def reserveAndClear (g : Geometry) (minCapacity : BitVec 64) : Geometry :=
  if nextPowTwo minCapacity ≠ g.capacity then .reserve minCapacity else g

/-- A queue after its constructor and further calls of `reserve_and_clear`. -/
def after (sizes : List (BitVec 64)) : Geometry := sizes.foldl reserveAndClear ⟨0, 0⟩

/-- The two parts of an index are its remainder and its quotient by `c`. -/
structure Splits (c bits : Nat) (low high : BitVec 64 → Nat) : Prop where
  bits : bits = c.log2
  remainder : ∀ index, low index = index.toNat % c
  quotient : ∀ index, high index = index.toNat / c
  determined : ∀ i j, high i = high j → low i = low j → i = j

def QueueSplits (v : BitVec 64) : Prop :=
  ∀ sizes, (∀ w ∈ sizes, w.toNat ≤ 2 ^ 63) → (after (sizes ++ [v])).capacity = nextPowTwo v ∧
    Splits (nextPowTwo v).toNat (after (sizes ++ [v])).roundBits (fun i => (slotId (after (sizes ++ [v])) i).toNat)
      fun i => (round (after (sizes ++ [v])) i).toNat

def VectorSplits (v : BitVec 64) : Prop :=
  (Meta.make v).numPerShard = nextPowTwo v ∧
    Splits (nextPowTwo v).toNat (Meta.make v).shardBit (getShardOffset (.make v)) (getShardId (.make v))

structure Right (v : BitVec 64) : Prop where
  least : IsLeast {c | (∃ j, c = 2 ^ j) ∧ max v.toNat 1 ≤ c} (nextPowTwo v).toNat
  queue : QueueSplits v
  vector : VectorSplits v

section Reserve

variable {T : Type*} {v : BitVec 64} {sizes : List (BitVec 64)} {b : Nat}

theorem geometry_clear {q q' : Alone.Queue T} (h : q.clear = some q') : q'.geometry = q.geometry := by
  rw [Alone.Queue.clear] at h
  generalize q.size.toNat = fuel at h
  induction fuel generalizing q with
  | zero =>
    rw [Alone.Queue.clearLoop] at h
    split at h
    · cases h
    · rw [← Option.some.inj h]
  | succ fuel ih =>
    rw [Alone.Queue.clearLoop] at h
    split at h
    · obtain ⟨⟨x, q₁⟩, hd, hq⟩ := Option.bind_eq_some_iff.1 h
      rw [ih hq]
      simp only [Alone.Queue.draw, Alone.Queue.process] at hd
      split at hd
      · cases hd
        rfl
      · cases hd
    · rw [← Option.some.inj h]

theorem geometry_reserveAndClear [Inhabited T] {q q' : Alone.Queue T} (h : q.reserveAndClear v = some q') :
    q'.geometry = reserveAndClear q.geometry v := by
  rw [Alone.Queue.reserveAndClear] at h
  rw [reserveAndClear]
  split at h
  · next hne =>
    exact Option.some.inj h ▸ (if_pos hne).symm
  · next heq =>
    exact (geometry_clear h).trans (if_neg heq).symm

theorem after_eq (sizes : List (BitVec 64)) : after sizes = ⟨0, 0⟩ ∨ ∃ w, after sizes = .reserve w := by
  induction sizes using List.reverseRecOn with
  | nil => exact .inl rfl
  | append_singleton sizes w ih =>
    rw [after, List.foldl_concat, reserveAndClear]
    split
    · exact .inr ⟨w, rfl⟩
    · exact ih

/-- A call that finds the capacity it wants leaves the bits, which are those of the capacity. -/
theorem after_concat (sizes : List (BitVec 64)) (hv : v.toNat ≤ 2 ^ 63) : after (sizes ++ [v]) = .reserve v := by
  rw [after, List.foldl_concat, reserveAndClear]
  split
  · rfl
  · next hsame =>
    have hsame := not_not.1 hsame
    rcases after_eq sizes with h | ⟨w, h⟩
    · rw [after] at h
      obtain ⟨j, -, hj⟩ := nextPowTwo_toNat hv
      rw [hsame, h] at hj
      exact absurd hj (Nat.two_pow_pos j).ne
    · rw [after] at h
      rw [h] at hsame ⊢
      have hw : nextPowTwo v = nextPowTwo w := hsame
      rw [Geometry.reserve, Geometry.reserve, hw]

end Reserve

section Parts

variable {v : BitVec 64} {b c : Nat} {low high : BitVec 64 → Nat}

theorem splits_twoPow (hlow : ∀ index, low index = index.toNat % 2 ^ b)
    (hhigh : ∀ index, high index = index.toNat / 2 ^ b) : Splits (2 ^ b) b low high := by
  refine ⟨Nat.log2_two_pow.symm, hlow, hhigh, fun i j hq hr => BitVec.eq_of_toNat_eq ?_⟩
  rw [hhigh, hhigh] at hq
  rw [hlow, hlow] at hr
  rw [← Nat.div_add_mod i.toNat (2 ^ b), hq, hr, Nat.div_add_mod]

theorem nextPowTwo_eq (hv : v.toNat ≤ 2 ^ 63) : ∃ b ≤ 63, nextPowTwo v = BitVec.ofNat 64 (2 ^ b) ∧
    (v.toNat ≤ 2 ^ 32 ↔ b ≤ 32) := by
  obtain ⟨b, hb, hp⟩ := nextPowTwo_toNat hv
  refine ⟨b, hb, BitVec.eq_of_toNat_eq (hp.trans (twoPow_toNat hb).symm), ?_⟩
  have hleast := nextPowTwo_isLeast hv
  rw [hp] at hleast
  constructor
  · intro hle
    exact (Nat.pow_le_pow_iff_right (by omega)).1 (hleast.2 ⟨⟨32, rfl⟩, by omega⟩)
  · intro hle
    have := Nat.pow_le_pow_right (n := 2) (by omega) hle
    have := hleast.1.2
    omega

/-- The shift of a larger capacity is 32. -/
theorem make_eq (hb : b ≤ 63) (hv : nextPowTwo v = BitVec.ofNat 64 (2 ^ b)) :
    Meta.make v = ⟨BitVec.ofNat 64 (2 ^ b), min b 32⟩ := by
  have hsame : nextPowTwo (BitVec.ofNat 64 (2 ^ b)) = BitVec.ofNat 64 (2 ^ b) :=
    congrArg Meta.numPerShard (make_twoPow hb)
  rw [← make_twoPow hb, Meta.make, Meta.make, hsame, hv]

theorem reserve_eq (hb : b ≤ 63) (hv : nextPowTwo v = BitVec.ofNat 64 (2 ^ b)) :
    Geometry.reserve v = ⟨BitVec.ofNat 64 (2 ^ b), min b 32⟩ := by
  have h := make_eq hb hv
  have hc : nextPowTwo v = _ := congrArg Meta.numPerShard h
  have hbits : builtinPopcount ((nextPowTwo v - 1).setWidth 32) = _ := congrArg Meta.shardBit h
  rw [Geometry.reserve, hbits, hc]

theorem slotId_eq (hb : b ≤ 63) (hv : nextPowTwo v = BitVec.ofNat 64 (2 ^ b)) (index : BitVec 64) :
    (slotId (.reserve v) index).toNat = index.toNat % 2 ^ min b 32 := by
  rw [reserve_eq hb hv, slotId, BitVec.toNat_setWidth, BitVec.toNat_and, mask_toNat hb, Nat.and_two_pow_sub_one_eq_mod]
  rcases le_total b 32 with h | h
  · rw [min_eq_left h]
    have hlt := Nat.mod_lt index.toNat (Nat.two_pow_pos b)
    exact Nat.mod_eq_of_lt (hlt.trans_le (Nat.pow_le_pow_right (by omega) h))
  · rw [min_eq_right h, Nat.mod_mod_of_dvd _ (Nat.pow_dvd_pow 2 h)]

theorem round_eq (hb : b ≤ 63) (hv : nextPowTwo v = BitVec.ofNat 64 (2 ^ b)) (index : BitVec 64) :
    (round (.reserve v) index).toNat = index.toNat / 2 ^ min b 32 := by
  rw [reserve_eq hb hv, round, BitVec.toNat_ushiftRight, Nat.shiftRight_eq_div_pow]

theorem getShardOffset_eq (hb : b ≤ 63) (hv : nextPowTwo v = BitVec.ofNat 64 (2 ^ b)) (index : BitVec 64) :
    getShardOffset (.make v) index = index.toNat % 2 ^ b := by
  rw [make_eq hb hv, ← make_twoPow hb, getShardOffset_make hb]

theorem getShardId_eq (hb : b ≤ 63) (hv : nextPowTwo v = BitVec.ofNat 64 (2 ^ b)) (index : BitVec 64) :
    getShardId (.make v) index = index.toNat / 2 ^ min b 32 := by
  rw [make_eq hb hv, ← make_twoPow hb, getShardId_make hb]

/-- Even where the parts are others, they determine the index. -/
theorem determined (hv : v.toNat ≤ 2 ^ 63) (i j : BitVec 64) :
    (round (.reserve v) i = round (.reserve v) j → slotId (.reserve v) i = slotId (.reserve v) j → i = j) ∧
      (getShardId (.make v) i = getShardId (.make v) j →
        getShardOffset (.make v) i = getShardOffset (.make v) j → i = j) := by
  obtain ⟨b, hb, hc, -⟩ := nextPowTwo_eq hv
  have h : Splits (2 ^ min b 32) (min b 32) (fun i => i.toNat % 2 ^ min b 32) fun i => i.toNat / 2 ^ min b 32 :=
    splits_twoPow (fun _ => rfl) fun _ => rfl
  constructor
  · intro hr hs
    refine h.determined i j ?_ ?_
    · simp only [← round_eq hb hc, hr]
    · simp only [← slotId_eq hb hc, hs]
  · intro hid hoff
    rw [getShardId_eq hb hc, getShardId_eq hb hc] at hid
    rw [getShardOffset_eq hb hc, getShardOffset_eq hb hc] at hoff
    have hdvd : 2 ^ min b 32 ∣ 2 ^ b := Nat.pow_dvd_pow 2 (min_le_left b 32)
    have hmod := congrArg (· % 2 ^ min b 32) hoff
    simp only [Nat.mod_mod_of_dvd _ hdvd] at hmod
    exact h.determined i j hid hmod

theorem queue_iff (hv : v.toNat ≤ 2 ^ 63) : QueueSplits v ↔ v.toNat ≤ 2 ^ 32 := by
  obtain ⟨b, hb, hc, hle⟩ := nextPowTwo_eq hv
  have hcap : (nextPowTwo v).toNat = 2 ^ b := by rw [hc, twoPow_toNat hb]
  have hbits : (Geometry.reserve v).roundBits = min b 32 := by rw [reserve_eq hb hc]
  constructor
  · intro h
    have hlog := (h [] (by simp)).2.bits
    rw [after_concat [] hv, hbits, hcap, Nat.log2_two_pow] at hlog
    exact hle.2 (min_eq_left_iff.1 hlog)
  · intro h sizes _
    have hmin : min b 32 = b := min_eq_left (hle.1 h)
    rw [after_concat sizes hv, hbits, hcap, hmin]
    exact ⟨rfl, splits_twoPow (fun i => by rw [slotId_eq hb hc, hmin]) fun i => by rw [round_eq hb hc, hmin]⟩

theorem vector_iff (hv : v.toNat ≤ 2 ^ 63) : VectorSplits v ↔ v.toNat ≤ 2 ^ 32 := by
  obtain ⟨b, hb, hc, hle⟩ := nextPowTwo_eq hv
  have hcap : (nextPowTwo v).toNat = 2 ^ b := by rw [hc, twoPow_toNat hb]
  have hbits : (Meta.make v).shardBit = min b 32 := by rw [make_eq hb hc]
  constructor
  · intro h
    have hlog := h.2.bits
    rw [hbits, hcap, Nat.log2_two_pow] at hlog
    exact hle.2 (min_eq_left_iff.1 hlog)
  · intro h
    have hmin : min b 32 = b := min_eq_left (hle.1 h)
    rw [VectorSplits, hbits, hcap, hmin]
    exact ⟨rfl, splits_twoPow (getShardOffset_eq hb hc) fun i => by rw [getShardId_eq hb hc, hmin]⟩

/-- Indices are split by remainder and quotient exactly for sizes that do not exceed `2 ^ 32`,
in the queue and in the vector. -/
theorem splits_iff_small (v : BitVec 64) (hv : v.toNat ≤ 2 ^ 63) : Right v ↔ v.toNat ≤ 2 ^ 32 :=
  ⟨fun h => (queue_iff hv).1 h.queue,
    fun h => ⟨nextPowTwo_isLeast hv, (queue_iff hv).2 h, (vector_iff hv).2 h⟩⟩

theorem splits_iff_small_hundred : (100 : BitVec 64).toNat ≤ 2 ^ 63 ∧ Right 100 :=
  ⟨by decide, (splits_iff_small 100 (by decide)).2 (by decide)⟩

/-- `2 ^ 33 - 1` has 33 bits, of which an `unsigned int` has 32. -/
theorem not_splits_of_large : (BitVec.ofNat 64 (2 ^ 33)).toNat ≤ 2 ^ 63 ∧ ¬ QueueSplits (BitVec.ofNat 64 (2 ^ 33)) ∧
    ¬ VectorSplits (BitVec.ofNat 64 (2 ^ 33)) := by
  have hv : (BitVec.ofNat 64 (2 ^ 33)).toNat = 2 ^ 33 := twoPow_toNat (by omega)
  have hle : (BitVec.ofNat 64 (2 ^ 33)).toNat ≤ 2 ^ 63 := by omega
  rw [queue_iff hle, vector_iff hle]
  omega

end Parts

end Wizard.IndexSplit
