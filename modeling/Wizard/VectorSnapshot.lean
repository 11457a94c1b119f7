import Wizard.QueueIndex
import Wizard.VectorTable

/-! Visiting a range of a snapshot. `for_each` cuts it into a part of the first shard, full
shards and a part of the last shard. The first part always goes to the end of its shard. -/

namespace Wizard.Vector

/-- The constructor of the vector. -/
def Meta.make (numPerShard : BitVec 64) : Meta where
  numPerShard := nextPowTwo numPerShard
  shardBit := BoundedQueue.builtinPopcount ((nextPowTwo numPerShard - 1).setWidth 32)

/-- `shards[id]`. -/
def Table.shard (t : Table) (id : Nat) : Option Nat := if id < t.shardNum then t.shards id else none

/-- `operator[]`: a shard and an offset in it. -/
def Table.cell (m : Meta) (t : Table) (index : BitVec 64) : Option (Nat × Nat) :=
  (t.shard (getShardId m index)).map (·, getShardOffset m index)

/-- The two pointers that are passed to a callback. -/
structure Range where
  shard : Nat
  first : Nat
  last : Nat
deriving Repr, DecidableEq

def Range.cells (r : Range) : List (Nat × Nat) := (List.range' r.first (r.last - r.first)).map (r.shard, ·)

theorem Table.shard_eq {t : Table} {id shard : Nat} (h : t.shard id = some shard) :
    t.shard id = some ((t.shards id).getD 0) := by
  rw [h]
  rw [Table.shard] at h
  split at h
  · rw [h]
    rfl
  · cases h

section ForEach

variable {σ : Type} (m : Meta) (t : Table) (callback : σ → Range → Option σ)

/-- The loop over the full shards. It stops at one shard id only, and it has no result when
it leaves the table. -/
def fullShards (endShardId : Nat) : Nat → Nat → σ → Option σ
  | 0, _, _ => none
  | fuel + 1, shardId, s =>
    if shardId = endShardId then some s else do
      let s ← callback s ⟨← t.shard shardId, 0, m.numPerShard.toNat⟩
      fullShards endShardId fuel (shardId + 1) s

def forEach (startIndex endIndex : BitVec 64) (s : σ) : Option σ := do
  let startShardId := getShardId m startIndex
  let endShardId := getShardId m endIndex
  let s ← callback s ⟨← t.shard startShardId, getShardOffset m startIndex, m.numPerShard.toNat⟩
  let s ← fullShards m t callback endShardId (t.shardNum + 1) (startShardId + 1) s
  if startShardId < endShardId ∧ 0 < getShardOffset m endIndex then
    callback s ⟨← t.shard endShardId, 0, getShardOffset m endIndex⟩
  else some s

end ForEach

/-- The cells of the indices from `startIndex` up to `endIndex`, in order, are what the
callback is given. -/
def Table.Visits (m : Meta) (t : Table) (startIndex endIndex : BitVec 64) : Prop :=
  ∃ l, forEach m t (fun l r => some (l ++ r.cells)) startIndex endIndex [] = some l ∧
    l.map some = (List.range' startIndex.toNat (endIndex.toNat - startIndex.toNat)).map
      fun i => t.cell m (BitVec.ofNat 64 i)

section Parts

variable {σ : Type} {m : Meta} {t : Table} {callback : σ → Range → Option σ} {shards : Nat → Nat}
  {first n fuel endShardId shardId : Nat} {s : σ} {startIndex endIndex : BitVec 64}

theorem fullShards_eq (hsh : ∀ id, first ≤ id → id < first + n → t.shard id = some (shards id)) (hf : n < fuel) :
    fullShards m t callback (first + n) fuel first s =
      ((List.range' first n).map fun id => ⟨shards id, 0, m.numPerShard.toNat⟩).foldlM callback s := by
  induction n generalizing first fuel s with
  | zero =>
    obtain ⟨fuel, rfl⟩ : ∃ k, fuel = k + 1 := ⟨fuel - 1, by omega⟩
    rw [fullShards, if_pos (Nat.add_zero first).symm]
    rfl
  | succ n ih =>
    obtain ⟨fuel, rfl⟩ : ∃ k, fuel = k + 1 := ⟨fuel - 1, by omega⟩
    rw [fullShards, if_neg (by omega), hsh first le_rfl (by omega), List.range'_succ, List.map_cons, List.foldlM_cons]
    simp only [Option.bind_eq_bind, Option.bind_some]
    congr 1
    funext s'
    rw [show first + (n + 1) = first + 1 + n by omega]
    exact ih (fun id hge hlt => hsh id (by omega) (by omega)) (by omega)

/-- Past the last shard the loop runs until it leaves the table. -/
theorem fullShards_past (h : endShardId < shardId) : fullShards m t callback endShardId fuel shardId s = none := by
  induction fuel generalizing shardId s with
  | zero => rfl
  | succ fuel ih =>
    rw [fullShards, if_neg (by omega)]
    cases t.shard shardId with
    | none => rfl
    | some shard =>
      simp only [Option.bind_eq_bind, Option.bind_some]
      cases callback s ⟨shard, 0, m.numPerShard.toNat⟩ with
      | none => rfl
      | some s' => exact ih (by omega)

/-- The ranges `for_each` passes on when it ends. -/
def ranges (m : Meta) (shards : Nat → Nat) (startIndex endIndex : BitVec 64) : List Range :=
  ⟨shards (getShardId m startIndex), getShardOffset m startIndex, m.numPerShard.toNat⟩ ::
    ((List.range' (getShardId m startIndex + 1) (getShardId m endIndex - getShardId m startIndex - 1)).map
      (fun id => ⟨shards id, 0, m.numPerShard.toNat⟩) ++
    if 0 < getShardOffset m endIndex then [⟨shards (getShardId m endIndex), 0, getShardOffset m endIndex⟩] else [])

theorem forEach_eq (hlt : getShardId m startIndex < getShardId m endIndex)
    (hsh : ∀ id, getShardId m startIndex ≤ id → id < getShardId m endIndex → t.shard id = some (shards id))
    (hlast : 0 < getShardOffset m endIndex → t.shard (getShardId m endIndex) = some (shards (getShardId m endIndex)))
    (s : σ) :
    forEach m t callback startIndex endIndex s = (ranges m shards startIndex endIndex).foldlM callback s := by
  have hnum : getShardId m endIndex - 1 < t.shardNum := by
    have h := hsh (getShardId m endIndex - 1) (by omega) (by omega)
    by_contra hge
    rw [Table.shard, if_neg hge] at h
    cases h
  rw [forEach, ranges, List.foldlM_cons, hsh _ le_rfl hlt]
  simp only [Option.bind_eq_bind, Option.bind_some]
  congr 1
  funext s₁
  have hend : getShardId m startIndex + 1 + (getShardId m endIndex - getShardId m startIndex - 1) =
    getShardId m endIndex := by omega
  have hfull : fullShards m t callback
      (getShardId m startIndex + 1 + (getShardId m endIndex - getShardId m startIndex - 1)) (t.shardNum + 1)
      (getShardId m startIndex + 1) s₁ = _ :=
    fullShards_eq (fun id hge hlt => hsh id (by omega) (by omega)) (by omega)
  rw [hend] at hfull
  rw [hfull, List.foldlM_append]
  congr 1
  funext s₂
  by_cases hoff : 0 < getShardOffset m endIndex
  · rw [if_pos ⟨hlt, hoff⟩, if_pos hoff, hlast hoff]
    simp
  · rw [if_neg (fun h => hoff h.2), if_neg hoff]
    rfl

theorem shard_of_forEach {s' : σ} (h : forEach m t callback startIndex endIndex s = some s')
    (hlt : getShardId m startIndex < getShardId m endIndex) (hoff : 0 < getShardOffset m endIndex) :
    ∃ shard, t.shard (getShardId m endIndex) = some shard := by
  rw [forEach] at h
  obtain ⟨shard, -, h⟩ := Option.bind_eq_some_iff.1 h
  obtain ⟨s₁, -, h⟩ := Option.bind_eq_some_iff.1 h
  obtain ⟨s₂, -, h⟩ := Option.bind_eq_some_iff.1 h
  rw [if_pos ⟨hlt, hoff⟩] at h
  obtain ⟨shard, hshard, -⟩ := Option.bind_eq_some_iff.1 h
  exact ⟨shard, hshard⟩

/-- In one shard the loop has no last shard to stop at. -/
theorem forEach_none (hle : getShardId m endIndex ≤ getShardId m startIndex) (s : σ) :
    forEach m t callback startIndex endIndex s = none := by
  rw [forEach]
  cases t.shard (getShardId m startIndex) with
  | none => rfl
  | some shard =>
    simp only [Option.bind_eq_bind, Option.bind_some]
    cases callback s ⟨shard, getShardOffset m startIndex, m.numPerShard.toNat⟩ with
    | none => rfl
    | some s' =>
      simp only [Option.bind_some, fullShards_past (Nat.lt_succ_of_le hle)]
      rfl

end Parts

section TwoPow

variable {b : Nat} {m : Meta} {t : Table} {shards : Nat → Nat} {startIndex endIndex : BitVec 64}

/-- The bits are counted in an `unsigned int`. -/
theorem make_twoPow (hb : b ≤ 63) : Meta.make (BitVec.ofNat 64 (2 ^ b)) = ⟨BitVec.ofNat 64 (2 ^ b), min b 32⟩ := by
  revert b
  decide

theorem getShardId_make (hb : b ≤ 63) (index : BitVec 64) :
    getShardId (.make (BitVec.ofNat 64 (2 ^ b))) index = index.toNat / 2 ^ min b 32 := by
  rw [make_twoPow hb, getShardId, BitVec.toNat_ushiftRight, Nat.shiftRight_eq_div_pow]

theorem getShardOffset_make (hb : b ≤ 63) (index : BitVec 64) :
    getShardOffset (.make (BitVec.ofNat 64 (2 ^ b))) index = index.toNat % 2 ^ b := by
  rw [make_twoPow hb, getShardOffset, BitVec.toNat_and, mask_toNat hb, Nat.and_two_pow_sub_one_eq_mod]

/-- The cells of `n` indices that follow each other in one shard. -/
theorem cells_of_one_shard {i lo n id w : Nat} (hid : ∀ j < n, (i + j) / 2 ^ w = id)
    (hoff : ∀ j < n, (i + j) % 2 ^ b = lo + j) :
    (List.range' i n).map (fun i => (shards (i / 2 ^ w), i % 2 ^ b)) = Range.cells ⟨shards id, lo, lo + n⟩ := by
  rw [Range.cells, Nat.add_sub_cancel_left, List.range'_eq_map_range, List.range'_eq_map_range, List.map_map,
    List.map_map]
  apply List.map_congr_left
  intro j hj
  have hj' := List.mem_range.1 hj
  simp only [Function.comp, hid j hj', hoff j hj']

theorem cells_of_full_shards (first n : Nat) :
    (List.range' (first * 2 ^ b) (n * 2 ^ b)).map (fun i => (shards (i / 2 ^ b), i % 2 ^ b)) =
      (List.range' first n).flatMap fun id => Range.cells ⟨shards id, 0, 2 ^ b⟩ := by
  have hpos : 0 < 2 ^ b := Nat.two_pow_pos b
  induction n generalizing first with
  | zero => simp
  | succ n ih =>
    have hone : (List.range' (first * 2 ^ b) (2 ^ b)).map (fun i => (shards (i / 2 ^ b), i % 2 ^ b)) =
        Range.cells ⟨shards first, 0, 0 + 2 ^ b⟩ := by
      apply cells_of_one_shard
      · intro j hj
        rw [Nat.mul_comm, Nat.mul_add_div hpos, Nat.div_eq_of_lt hj, Nat.add_zero]
      · intro j hj
        rw [Nat.mul_comm, Nat.mul_add_mod, Nat.mod_eq_of_lt hj, Nat.zero_add]
    have hsplit : List.range' (first * 2 ^ b) ((n + 1) * 2 ^ b) =
        List.range' (first * 2 ^ b) (2 ^ b) ++ List.range' ((first + 1) * 2 ^ b) (n * 2 ^ b) := by
      rw [Nat.succ_mul, Nat.succ_mul, Nat.add_comm (n * 2 ^ b), ← List.range'_append_1]
    rw [hsplit, List.map_append, hone, ih, List.range'_succ, List.flatMap_cons, Nat.zero_add]

theorem foldlM_cells (rs : List Range) (l : List (Nat × Nat)) :
    rs.foldlM (fun l r => some (l ++ r.cells)) l = some (l ++ rs.flatMap Range.cells) := by
  induction rs generalizing l with
  | nil => simp
  | cons r rs ih =>
    rw [List.foldlM_cons, Option.bind_eq_bind, Option.bind_some, ih, List.flatMap_cons, List.append_assoc]

/-- The first part goes to the end of its shard and the last part begins at the start of its
shard, when the parts are cut at the shard ids. -/
theorem cuts {n k s e : Nat} (hn : 0 < n) (hk : 0 < k) (hcut : k = 1 ∨ e / n = s / n + 1 ∧ k ∣ e / n) :
    s + (n * k - s % (n * k)) = (s / n + 1) * n ∧ e = e / n * n + e % (n * k) := by
  have hpos : 0 < n * k := Nat.mul_pos hn hk
  have hs := Nat.div_add_mod s (n * k)
  have he := Nat.div_add_mod e (n * k)
  have hsmod := Nat.mod_lt s hpos
  rcases hcut with rfl | ⟨hnext, q, hq⟩
  · rw [Nat.mul_one] at *
    rw [Nat.succ_mul, Nat.mul_comm (s / n), Nat.mul_comm (e / n)]
    omega
  · rw [← Nat.div_div_eq_div_mul] at hs he
    -- the last shard is the first one of its group, and the first shard the last one
    obtain ⟨r, rfl⟩ : ∃ r, q = r + 1 := ⟨q - 1, by
      have hq0 : q ≠ 0 := by
        rintro rfl
        rw [hq, Nat.mul_zero] at hnext
        cases hnext
      omega⟩
    have hs' : s / n / k = r := by
      apply Nat.div_eq_of_lt_le
      · rw [Nat.mul_comm]
        have : k * (r + 1) = k * r + k := by rw [Nat.mul_add, Nat.mul_one]
        omega
      · rw [Nat.mul_comm]
        omega
    have he' : e / n / k = r + 1 := by rw [hq, Nat.mul_div_cancel_left _ hk]
    have hprod : n * k * (r + 1) = n * k * r + n * k := by rw [Nat.mul_add, Nat.mul_one]
    have hend : e / n * n = n * k * (r + 1) := by rw [hq, Nat.mul_comm, Nat.mul_assoc]
    rw [hs'] at hs
    rw [he'] at he
    rw [← hnext, hend]
    omega

theorem pow_split : 2 ^ min b 32 * 2 ^ (b - 32) = 2 ^ b := by
  rw [← Nat.pow_add]
  congr 1
  omega

theorem cuts_twoPow {s e : Nat} (hcut : b ≤ 32 ∨ e / 2 ^ 32 = s / 2 ^ 32 + 1 ∧ 2 ^ (b - 32) ∣ e / 2 ^ 32) :
    s + (2 ^ b - s % 2 ^ b) = (s / 2 ^ min b 32 + 1) * 2 ^ min b 32 ∧
      e = e / 2 ^ min b 32 * 2 ^ min b 32 + e % 2 ^ b := by
  rw [← pow_split]
  apply cuts (Nat.two_pow_pos _) (Nat.two_pow_pos _)
  by_cases hle : b ≤ 32
  · exact .inl (by rw [Nat.sub_eq_zero_of_le hle, Nat.pow_zero])
  · rw [min_eq_right (by omega)]
    exact .inr (hcut.resolve_left hle)

/-- The ranges are the cells of the indices, when a shard id is the quotient of the index by
the size of a shard, and also in one case when it is not. -/
theorem ranges_cells (hb : b ≤ 63)
    (hlt : startIndex.toNat / 2 ^ min b 32 < endIndex.toNat / 2 ^ min b 32)
    (hcut : b ≤ 32 ∨ endIndex.toNat / 2 ^ 32 = startIndex.toNat / 2 ^ 32 + 1 ∧
      2 ^ (b - 32) ∣ endIndex.toNat / 2 ^ 32) :
    (ranges (.make (BitVec.ofNat 64 (2 ^ b))) shards startIndex endIndex).flatMap Range.cells =
      (List.range' startIndex.toNat (endIndex.toNat - startIndex.toNat)).map
        fun i => (shards (i / 2 ^ min b 32), i % 2 ^ b) := by
  have hnum : (Meta.make (BitVec.ofNat 64 (2 ^ b))).numPerShard.toNat = 2 ^ b := by
    rw [make_twoPow hb]
    exact twoPow_toNat hb
  simp only [ranges, getShardId_make hb, getShardOffset_make hb, hnum]
  generalize startIndex.toNat = s at *
  generalize endIndex.toNat = e at *
  have hw : 0 < 2 ^ min b 32 := Nat.two_pow_pos _
  obtain ⟨hfirst, hlast⟩ := cuts_twoPow hcut
  have hnext : min b 32 = b ∨ e / 2 ^ min b 32 = s / 2 ^ min b 32 + 1 := by
    by_cases hle : b ≤ 32
    · exact .inl (min_eq_left hle)
    · rw [min_eq_right (by omega)]
      exact .inr (hcut.resolve_left hle).1
  have hbpos : 0 < 2 ^ b := Nat.two_pow_pos b
  have hsmod := Nat.mod_lt s hbpos
  have hsdiv := Nat.div_mul_le_self s (2 ^ min b 32)
  have hediv := Nat.lt_div_mul_add (a := e) hw
  have hsum := Nat.div_add_mod s (2 ^ b)
  have hesum := Nat.div_add_mod e (2 ^ b)
  have hhead : (List.range' s (2 ^ b - s % 2 ^ b)).map (fun i => (shards (i / 2 ^ min b 32), i % 2 ^ b)) =
      Range.cells ⟨shards (s / 2 ^ min b 32), s % 2 ^ b, s % 2 ^ b + (2 ^ b - s % 2 ^ b)⟩ := by
    apply cells_of_one_shard
    · intro j hj
      apply Nat.div_eq_of_lt_le
      · omega
      · omega
    · intro j hj
      rw [← hsum, Nat.add_assoc, Nat.mul_add_mod, hsum, Nat.mod_eq_of_lt (by omega)]
  have hmiddle : (List.range' ((s / 2 ^ min b 32 + 1) * 2 ^ min b 32)
      ((e / 2 ^ min b 32 - s / 2 ^ min b 32 - 1) * 2 ^ b)).map (fun i => (shards (i / 2 ^ min b 32), i % 2 ^ b)) =
      (List.range' (s / 2 ^ min b 32 + 1) (e / 2 ^ min b 32 - s / 2 ^ min b 32 - 1)).flatMap
        fun id => Range.cells ⟨shards id, 0, 2 ^ b⟩ := by
    rcases hnext with hmin | hnext
    · rw [hmin]
      exact cells_of_full_shards _ _
    · have hz : e / 2 ^ min b 32 - s / 2 ^ min b 32 - 1 = 0 := by omega
      rw [hz, Nat.zero_mul]
      rfl
  have htail : (List.range' (e / 2 ^ min b 32 * 2 ^ min b 32) (e % 2 ^ b)).map
      (fun i => (shards (i / 2 ^ min b 32), i % 2 ^ b)) =
      (if 0 < e % 2 ^ b then [(⟨shards (e / 2 ^ min b 32), 0, e % 2 ^ b⟩ : Range)] else []).flatMap Range.cells := by
    split
    · rename_i hpos
      have hone : (List.range' (e / 2 ^ min b 32 * 2 ^ min b 32) (e % 2 ^ b)).map
          (fun i => (shards (i / 2 ^ min b 32), i % 2 ^ b)) =
          Range.cells ⟨shards (e / 2 ^ min b 32), 0, 0 + e % 2 ^ b⟩ := by
        apply cells_of_one_shard
        · intro j hj
          apply Nat.div_eq_of_lt_le
          · omega
          · rw [Nat.succ_mul]
            omega
        · intro j hj
          have hmul : e / 2 ^ min b 32 * 2 ^ min b 32 = 2 ^ b * (e / 2 ^ b) := by omega
          rw [hmul, Nat.mul_add_mod, Nat.mod_eq_of_lt (by omega), Nat.zero_add]
      rw [hone, Nat.zero_add]
      simp
    · rename_i hz
      rw [Nat.eq_zero_of_not_pos hz]
      rfl
  have hmid : (s / 2 ^ min b 32 + 1) * 2 ^ min b 32 + (e / 2 ^ min b 32 - s / 2 ^ min b 32 - 1) * 2 ^ b =
      e / 2 ^ min b 32 * 2 ^ min b 32 := by
    rcases hnext with hmin | hnext
    · rw [hmin, ← Nat.add_mul]
      congr 1
      rw [hmin] at hlt
      omega
    · rw [← hnext, Nat.sub_sub, ← hnext, Nat.sub_self, Nat.zero_mul, Nat.add_zero]
  have hlen : e - s = (2 ^ b - s % 2 ^ b) +
      ((e / 2 ^ min b 32 - s / 2 ^ min b 32 - 1) * 2 ^ b + e % 2 ^ b) := by omega
  rw [hlen, ← List.range'_append_1, hfirst, ← List.range'_append_1, hmid, List.map_append, List.map_append, hhead,
    hmiddle, htail, Nat.add_sub_cancel' hsmod.le, List.flatMap_cons, List.flatMap_append, List.flatMap_map]

/-- Ranges that are not too long are cut at the shard ids. -/
theorem cut_of_length {n k s e : Nat} (hn : 0 < n) (hk : 2 ≤ k) (hlt : s / n < e / n)
    (hlen : (n * k - s % (n * k)) + (e / n - s / n - 1) * (n * k) + e % (n * k) ≤ e - s) :
    e / n = s / n + 1 ∧ k ∣ e / n := by
  have hle : s ≤ e := by
    by_contra hgt
    exact absurd (Nat.div_le_div_right (c := n) (not_le.1 hgt).le) (not_le.2 hlt)
  have hpos : 0 < n * k := Nat.mul_pos hn (by omega)
  have hs := Nat.div_add_mod s (n * k)
  have he := Nat.div_add_mod e (n * k)
  have hsmod := Nat.mod_lt s hpos
  rw [← Nat.div_div_eq_div_mul] at hs he
  generalize hp : s / n = p at *
  generalize hq : e / n = q at *
  obtain ⟨d, rfl⟩ : ∃ d, q = p + 1 + d := ⟨q - p - 1, by omega⟩
  -- the full shards of the ranges are not more than those of the indices
  have hcount : n * k * (d + 1) + n * k * (p / k) ≤ n * k * ((p + 1 + d) / k) := by
    have hd : p + 1 + d - p - 1 = d := by omega
    rw [hd, Nat.mul_comm d] at hlen
    rw [Nat.mul_add, Nat.mul_one]
    omega
  rw [← Nat.mul_add] at hcount
  have hquot := Nat.mul_le_mul_left k (Nat.le_of_mul_le_mul_left hcount hpos)
  have hp' := Nat.div_add_mod p k
  have hq' := Nat.div_add_mod (p + 1 + d) k
  have hpk := Nat.mod_lt p (show 0 < k by omega)
  rw [Nat.mul_add, Nat.mul_add, Nat.mul_one] at hquot
  have hd0 : d = 0 := by
    have h2 : 2 * d ≤ k * d := Nat.mul_le_mul_right d hk
    omega
  subst hd0
  refine ⟨rfl, Nat.dvd_of_mod_eq_zero ?_⟩
  rw [Nat.mul_zero] at hquot
  have hqk := Nat.mod_lt (p + 1 + 0) (show 0 < k by omega)
  omega

theorem ranges_length (hb : b ≤ 63) :
    ((ranges (.make (BitVec.ofNat 64 (2 ^ b))) shards startIndex endIndex).flatMap Range.cells).length =
      (2 ^ b - startIndex.toNat % 2 ^ b) +
        (endIndex.toNat / 2 ^ min b 32 - startIndex.toNat / 2 ^ min b 32 - 1) * 2 ^ b + endIndex.toNat % 2 ^ b := by
  have hnum : (Meta.make (BitVec.ofNat 64 (2 ^ b))).numPerShard.toNat = 2 ^ b := by
    rw [make_twoPow hb]
    exact twoPow_toNat hb
  have hcells : ∀ r : Range, r.cells.length = r.last - r.first := fun r => by simp [Range.cells]
  have hfull : ∀ ids : List Nat, ((ids.map fun id => (⟨shards id, 0, 2 ^ b⟩ : Range)).flatMap Range.cells).length =
      ids.length * 2 ^ b := by
    intro ids
    induction ids with
    | nil => simp
    | cons id ids ih =>
      rw [List.map_cons, List.flatMap_cons, List.length_append, ih, hcells, List.length_cons, Nat.succ_mul]
      exact Nat.add_comm _ _
  simp only [ranges, getShardId_make hb, getShardOffset_make hb, hnum, List.flatMap_cons, List.flatMap_append,
    List.length_append, hfull, List.length_range', hcells]
  rw [Nat.add_assoc]
  congr 2
  split
  · simp [hcells]
  · simp
    omega

/-- `for_each` passes on the cells of its indices just when the range crosses a shard
boundary, unless the bits of a shard id were cut to 32. -/
theorem visits_iff (hb : b ≤ 63) (hle : startIndex ≤ endIndex)
    (halloc : ∀ i < endIndex, (t.cell (.make (BitVec.ofNat 64 (2 ^ b))) i).isSome) :
    t.Visits (.make (BitVec.ofNat 64 (2 ^ b))) startIndex endIndex ↔
      getShardId (.make (BitVec.ofNat 64 (2 ^ b))) startIndex < getShardId (.make (BitVec.ofNat 64 (2 ^ b))) endIndex ∧
        (b ≤ 32 ∨ endIndex.toNat / 2 ^ 32 = startIndex.toNat / 2 ^ 32 + 1 ∧
          2 ^ (b - 32) ∣ endIndex.toNat / 2 ^ 32) := by
  have hw : 0 < 2 ^ min b 32 := Nat.two_pow_pos _
  by_cases hlt : startIndex.toNat / 2 ^ min b 32 < endIndex.toNat / 2 ^ min b 32
  · -- the shards of the indices
    have hindex : ∀ i < endIndex.toNat,
        t.shard (i / 2 ^ min b 32) = some ((t.shards (i / 2 ^ min b 32)).getD 0) := by
      intro i hi
      have hi64 : (BitVec.ofNat 64 i).toNat = i := Nat.mod_eq_of_lt (hi.trans endIndex.isLt)
      have hcell := halloc (BitVec.ofNat 64 i) (by rw [BitVec.lt_def, hi64]; exact hi)
      rw [Table.cell, Option.isSome_map, getShardId_make hb, hi64] at hcell
      obtain ⟨shard, hshard⟩ := Option.isSome_iff_exists.1 hcell
      exact Table.shard_eq hshard
    have hsh : ∀ id, startIndex.toNat / 2 ^ min b 32 ≤ id → id < endIndex.toNat / 2 ^ min b 32 →
        t.shard id = some ((t.shards id).getD 0) := by
      intro id _ hid
      have hmul : (id + 1) * 2 ^ min b 32 ≤ endIndex.toNat := (Nat.le_div_iff_mul_le hw).1 hid
      have h := hindex (id * 2 ^ min b 32) (by rw [Nat.succ_mul] at hmul; omega)
      rwa [Nat.mul_div_cancel _ hw] at h
    have hfor : (0 < endIndex.toNat % 2 ^ b → t.shard (endIndex.toNat / 2 ^ min b 32) =
        some ((t.shards (endIndex.toNat / 2 ^ min b 32)).getD 0)) →
        forEach (.make (BitVec.ofNat 64 (2 ^ b))) t (fun l r => some (l ++ r.cells)) startIndex endIndex [] =
          some ((ranges (.make (BitVec.ofNat 64 (2 ^ b))) (fun id => (t.shards id).getD 0) startIndex
            endIndex).flatMap Range.cells) := by
      intro hlast
      refine (forEach_eq ?_ ?_ ?_ []).trans ((foldlM_cells _ []).trans (by rw [List.nil_append]))
      · rw [getShardId_make hb, getShardId_make hb]
        exact hlt
      · rw [getShardId_make hb, getShardId_make hb]
        exact hsh
      · rw [getShardId_make hb, getShardOffset_make hb]
        exact hlast
    rw [getShardId_make hb, getShardId_make hb]
    constructor
    · rintro ⟨l, hl, hcells⟩
      refine ⟨hlt, ?_⟩
      by_cases hle : b ≤ 32
      · exact .inl hle
      · have hlast : 0 < endIndex.toNat % 2 ^ b → t.shard (endIndex.toNat / 2 ^ min b 32) =
            some ((t.shards (endIndex.toNat / 2 ^ min b 32)).getD 0) := by
          intro hoff
          obtain ⟨shard, hshard⟩ := shard_of_forEach hl
            (by rw [getShardId_make hb, getShardId_make hb]; exact hlt) (by rw [getShardOffset_make hb]; exact hoff)
          rw [getShardId_make hb] at hshard
          exact Table.shard_eq hshard
        rw [hfor hlast] at hl
        cases hl
        have hlen := congrArg List.length hcells
        rw [List.length_map, List.length_map, List.length_range', ranges_length hb] at hlen
        have hmin : min b 32 = 32 := min_eq_right (by omega)
        have hpow : 2 ^ 32 * 2 ^ (b - 32) = 2 ^ b := by
          rw [← Nat.pow_add]
          congr 1
          omega
        rw [hmin] at hlen hlt
        rw [← hpow] at hlen
        exact .inr (cut_of_length (Nat.two_pow_pos _) (Nat.le_self_pow (by omega) 2) hlt hlen.le)
    · rintro ⟨-, hcut⟩
      obtain ⟨-, hend⟩ := cuts_twoPow hcut
      refine ⟨_, hfor fun hoff => ?_, ?_⟩
      · have h := hindex (endIndex.toNat / 2 ^ min b 32 * 2 ^ min b 32) (by omega)
        rwa [Nat.mul_div_cancel _ hw] at h
      · rw [ranges_cells hb hlt hcut, List.map_map]
        apply List.map_congr_left
        intro i hi
        have hi' := (List.mem_range'_1.1 hi).2
        have hse : startIndex.toNat ≤ endIndex.toNat := hle
        have hlt' : i < endIndex.toNat := by omega
        have hi64 : (BitVec.ofNat 64 i).toNat = i := Nat.mod_eq_of_lt (hlt'.trans endIndex.isLt)
        rw [Table.cell, getShardId_make hb, getShardOffset_make hb, hi64, hindex i hlt']
        rfl
  · have hnone : forEach (.make (BitVec.ofNat 64 (2 ^ b))) t (fun l r => some (l ++ r.cells)) startIndex endIndex [] =
        none := by
      apply forEach_none
      rw [getShardId_make hb, getShardId_make hb]
      exact not_lt.1 hlt
    rw [getShardId_make hb, getShardId_make hb]
    constructor
    · rintro ⟨l, hl, -⟩
      rw [hnone] at hl
      cases hl
    · intro h
      exact absurd h.1 hlt

end TwoPow

/-- The unit test's range from 2 up to 6 in shards of four. -/
theorem visits_iff_four : (Table.mk 2 some).Visits (.make (BitVec.ofNat 64 (2 ^ 2))) 2 6 ↔
    getShardId (.make (BitVec.ofNat 64 (2 ^ 2))) 2 < getShardId (.make (BitVec.ofNat 64 (2 ^ 2))) 6 ∧
      (2 ≤ 32 ∨ (6 : BitVec 64).toNat / 2 ^ 32 = (2 : BitVec 64).toNat / 2 ^ 32 + 1 ∧
        2 ^ (2 - 32) ∣ (6 : BitVec 64).toNat / 2 ^ 32) := by
  refine visits_iff (by decide) (by decide) fun i hi => ?_
  have hi' : i.toNat < 6 := hi
  have hid : i.toNat / 2 ^ min 2 32 < 2 := Nat.div_lt_of_lt_mul (hi'.trans (by decide))
  rw [Table.cell, Option.isSome_map, getShardId_make (by decide), Table.shard, if_pos hid]
  rfl

/-- The indices 1 and 2 of a shard of four. -/
theorem one_shard_not_visited :
    (∀ i < (3 : BitVec 64), ((Table.mk 1 some).cell (.make (BitVec.ofNat 64 (2 ^ 2))) i).isSome) ∧
      ¬ (Table.mk 1 some).Visits (.make (BitVec.ofNat 64 (2 ^ 2))) 1 3 := by
  refine ⟨fun i hi => ?_, ?_⟩
  · have hi' : i.toNat < 3 := hi
    have hid : i.toNat / 2 ^ min 2 32 < 1 := Nat.div_lt_of_lt_mul (hi'.trans (by decide))
    rw [Table.cell, Option.isSome_map, getShardId_make (by decide), Table.shard, if_pos hid]
    rfl
  · rintro ⟨l, hl, -⟩
    rw [forEach_none (by decide)] at hl
    cases hl

end Wizard.Vector
