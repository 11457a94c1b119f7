import Wizard.VectorSequential

/-! `fill_n` and `copy_n`. Both come to what `for_each` passes on, cell by cell. A range that
crosses a shard boundary is covered for every size of a shard, but the source of `copy_n` is
read once for every cell, also for those that no index refers to. -/

namespace Wizard.Vector.Vec

variable {T : Type}

/-- The cells of the range hold `f`, those outside are as they were, and new ones hold the
default value. -/
structure Writes [Inhabited T] (m : Meta) (v v' : Vec T) (startIndex length : BitVec 64) (f : Nat → Option T) :
    Prop where
  inside : ∀ j < length.toNat, v'.get m (startIndex + BitVec.ofNat 64 j) = f j
  outside : ∀ i, ¬ (startIndex ≤ i ∧ i < startIndex + length) → (v.get m i).isSome → v'.get m i = v.get m i
  fresh : ∀ i, ¬ (startIndex ≤ i ∧ i < startIndex + length) → v.get m i = none → (v'.get m i).isSome →
    v'.get m i = some default

section Cells

variable {v : Vec T} {l : List (Nat × Nat)} {x : T} {rs : List Range}

theorem set_cells (v : Vec T) (c : Nat × Nat) (x : T) (s o : Nat) :
    (v.set c x).cells s o = if (s, o) = c then x else v.cells s o := by
  obtain ⟨s', o'⟩ := c
  by_cases hs : s = s'
  · subst hs
    by_cases ho : o = o'
    · subst ho
      simp [set]
    · simp [set, ho]
  · simp [set, hs]

theorem foldl_set (v : Vec T) (l : List (Nat × Nat)) (x : T) : (l.foldl (fun v c => v.set c x) v).table = v.table ∧
    ∀ s o, (l.foldl (fun v c => v.set c x) v).cells s o = if (s, o) ∈ l then x else v.cells s o := by
  induction l generalizing v with
  | nil => exact ⟨rfl, fun s o => by simp⟩
  | cons c l ih =>
    obtain ⟨htable, hcells⟩ := ih (v.set c x)
    refine ⟨htable, fun s o => ?_⟩
    rw [List.foldl_cons, hcells, set_cells]
    by_cases hl : (s, o) ∈ l
    · simp [hl]
    · by_cases hc : (s, o) = c <;> simp [hl, hc]

theorem foldlM_fill (v : Vec T) (rs : List Range) (x : T) :
    rs.foldlM (fill x) v = some ((rs.flatMap Range.cells).foldl (fun v c => v.set c x) v) := by
  induction rs generalizing v with
  | nil => rfl
  | cons r rs ih =>
    rw [List.foldlM_cons, fill, Option.bind_eq_bind, Option.bind_some, ih, List.flatMap_cons, List.foldl_append]

theorem foldlM_copy (s : Vec T × List T) (rs : List Range) :
    rs.foldlM (fun s r => r.cells.foldlM copyCell s) s = (rs.flatMap Range.cells).foldlM copyCell s := by
  induction rs generalizing s with
  | nil => rfl
  | cons r rs ih =>
    rw [List.foldlM_cons, List.flatMap_cons, List.foldlM_append]
    congr 1
    funext s'
    exact ih s'

/-- The source is read once for every cell. -/
theorem length_le_of_copy {s s' : Vec T × List T} (h : l.foldlM copyCell s = some s') : l.length ≤ s.2.length := by
  induction l generalizing s with
  | nil => exact Nat.zero_le _
  | cons c l ih =>
    rw [List.foldlM_cons] at h
    obtain ⟨s₁, hs₁, h⟩ := Option.bind_eq_some_iff.1 h
    obtain ⟨v, iter⟩ := s
    cases iter with
    | nil => cases hs₁
    | cons x iter =>
      cases hs₁
      exact Nat.succ_le_succ (ih h)

theorem foldlM_copyCell (hl : l.Nodup) (v : Vec T) {iter : List T} (hlen : l.length = iter.length) :
    ∃ v', l.foldlM copyCell (v, iter) = some (v', []) ∧ v'.table = v.table ∧
      (∀ s o, (s, o) ∉ l → v'.cells s o = v.cells s o) ∧
        ∀ k s o : Nat, l[k]? = some (s, o) → some (v'.cells s o) = iter[k]? := by
  induction l generalizing v iter with
  | nil =>
    rw [List.length_nil, eq_comm, List.length_eq_zero_iff] at hlen
    subst hlen
    exact ⟨v, rfl, rfl, fun _ _ _ => rfl, fun k s o h => by simp at h⟩
  | cons c l ih =>
    cases iter with
    | nil => cases hlen
    | cons x iter =>
      obtain ⟨hc, hl⟩ := List.nodup_cons.1 hl
      obtain ⟨v', hv', htable, hout, hin⟩ := ih hl (v.set c x) (Nat.succ.inj hlen)
      refine ⟨v', hv', htable, fun s o ho => ?_, fun k s o hk => ?_⟩
      · rw [List.mem_cons, not_or] at ho
        rw [hout s o ho.2, set_cells, if_neg ho.1]
      · cases k with
        | zero =>
          obtain rfl : c = (s, o) := Option.some.inj hk
          rw [hout s o hc, set_cells, if_pos rfl]
          rfl
        | succ k => exact hin k s o hk

theorem mem_cells {r : Range} {s o : Nat} : (s, o) ∈ r.cells ↔ s = r.shard ∧ r.first ≤ o ∧ o < r.last := by
  rw [Range.cells, List.mem_map]
  constructor
  · rintro ⟨o', ho', he⟩
    rw [List.mem_range'_1] at ho'
    cases he
    exact ⟨rfl, ho'.1, by omega⟩
  · rintro ⟨rfl, hge, hlt⟩
    exact ⟨o, List.mem_range'_1.2 ⟨hge, by omega⟩, rfl⟩

end Cells

section Ranges

variable {b : Nat} {shards : Nat → Nat} {startIndex endIndex : BitVec 64}

theorem mod_le_iff {a c : Nat} (h : a / 2 ^ min b 32 = c / 2 ^ min b 32) : a % 2 ^ b ≤ c % 2 ^ b ↔ a ≤ c := by
  have hq : a / 2 ^ b = c / 2 ^ b := by
    rw [← pow_split, ← Nat.div_div_eq_div_mul, ← Nat.div_div_eq_div_mul, h]
  have ha := Nat.div_add_mod a (2 ^ b)
  have hc := Nat.div_add_mod c (2 ^ b)
  rw [hq] at ha
  omega

/-- What `for_each` passes on is the range, among the cells that an index refers to. -/
theorem mem_ranges (hb : b ≤ 63) (hlt : startIndex.toNat / 2 ^ min b 32 < endIndex.toNat / 2 ^ min b 32) {i : Nat}
    (hinj : ∀ id, id < endIndex.toNat / 2 ^ min b 32 ∨
        id = endIndex.toNat / 2 ^ min b 32 ∧ 0 < endIndex.toNat % 2 ^ b →
      shards (i / 2 ^ min b 32) = shards id → i / 2 ^ min b 32 = id) :
    (shards (i / 2 ^ min b 32), i % 2 ^ b) ∈
      (ranges (.make (BitVec.ofNat 64 (2 ^ b))) shards startIndex endIndex).flatMap Range.cells ↔
        startIndex.toNat ≤ i ∧ i < endIndex.toNat := by
  have hnum : (Meta.make (BitVec.ofNat 64 (2 ^ b))).numPerShard.toNat = 2 ^ b := by
    rw [make_twoPow hb]
    exact twoPow_toNat hb
  have hmod : i % 2 ^ b < 2 ^ b := Nat.mod_lt i (Nat.two_pow_pos b)
  simp only [ranges, getShardId_make hb, getShardOffset_make hb, hnum, List.flatMap_cons, List.flatMap_append,
    List.flatMap_map, List.mem_append, List.mem_flatMap, mem_cells, List.mem_range'_1]
  generalize startIndex.toNat = s at *
  generalize endIndex.toNat = e at *
  have hmono : ∀ {a c : Nat}, a ≤ c → a / 2 ^ min b 32 ≤ c / 2 ^ min b 32 := fun h => Nat.div_le_div_right h
  constructor
  · rintro (⟨hs, hge, -⟩ | ⟨id, ⟨hge, hid⟩, hs, -⟩ | ⟨r, hr, htail⟩)
    · -- in the first shard
      have hid := hinj _ (.inl hlt) hs
      refine ⟨(mod_le_iff hid.symm).1 hge, not_le.1 fun hle => ?_⟩
      have := hmono hle
      omega
    · have hi := hinj id (.inl (by omega)) hs
      refine ⟨not_lt.1 fun hgt => ?_, not_le.1 fun hle => ?_⟩
      · have := hmono hgt.le
        omega
      · have := hmono hle
        omega
    · -- in the last shard
      split at hr
      · rename_i hoff
        rw [List.mem_singleton.1 hr] at htail
        have hi := hinj _ (.inr ⟨rfl, hoff⟩) htail.1
        refine ⟨not_lt.1 fun hgt => ?_, not_le.1 fun hle => ?_⟩
        · have := hmono hgt.le
          omega
        · exact absurd ((mod_le_iff hi.symm).2 hle) (not_le.2 htail.2.2)
      · cases hr
  · rintro ⟨hge, hi⟩
    have hfirst := hmono hge
    have hlast := hmono hi.le
    by_cases hs : i / 2 ^ min b 32 = s / 2 ^ min b 32
    · exact .inl ⟨by rw [hs], (mod_le_iff hs.symm).2 hge, hmod⟩
    · by_cases he : i / 2 ^ min b 32 = e / 2 ^ min b 32
      · have hoff : i % 2 ^ b < e % 2 ^ b := not_le.1 fun hle => absurd ((mod_le_iff he.symm).1 hle) (not_le.2 hi)
        refine .inr (.inr ⟨⟨shards (e / 2 ^ min b 32), 0, e % 2 ^ b⟩, ?_, ?_⟩)
        · rw [if_pos (Nat.zero_lt_of_lt hoff)]
          exact List.mem_singleton_self _
        · exact ⟨by rw [he], Nat.zero_le _, hoff⟩
      · exact .inr (.inl ⟨_, ⟨by omega, by omega⟩, rfl, Nat.zero_le _, hmod⟩)

end Ranges

section Cells

variable {b : Nat} {v : Vec T}

/-- The shards of a table, by their ids. -/
def shardOf (v : Vec T) (id : Nat) : Nat := (v.table.shards id).getD 0

theorem Ok.shard_eq (hv : Ok v) {id : Nat} (hid : id < v.table.shardNum) : v.table.shard id = some (v.shardOf id) := by
  obtain ⟨s, -, hs⟩ := hv.shard hid
  exact Table.shard_eq hs

theorem Ok.shardOf_inj (hv : Ok v) {i j : Nat} (hi : i < v.table.shardNum) (hj : j < v.table.shardNum)
    (h : v.shardOf i = v.shardOf j) : i = j := by
  obtain ⟨s, -, hs⟩ := hv.complete i hi
  obtain ⟨s', -, hs'⟩ := hv.complete j hj
  rw [shardOf, shardOf, hs, hs'] at h
  exact hv.distinct i hi j hj (by rw [hs, hs']; exact congrArg some h)

theorem Ok.get_eq (hv : Ok v) (hb : b ≤ 63) {i : BitVec 64} (hi : i.toNat / 2 ^ min b 32 < v.table.shardNum) :
    v.get (.make (BitVec.ofNat 64 (2 ^ b))) i =
      some (v.cells (v.shardOf (i.toNat / 2 ^ min b 32)) (i.toNat % 2 ^ b)) := by
  rw [get, Table.cell, getShardId_make hb, getShardOffset_make hb, hv.shard_eq hi]
  rfl

theorem get_none (hb : b ≤ 63) {i : BitVec 64} (hi : v.table.shardNum ≤ i.toNat / 2 ^ min b 32) :
    v.get (.make (BitVec.ofNat 64 (2 ^ b))) i = none := by
  rw [get, Table.cell, getShardId_make hb, Table.shard, if_neg (not_lt.2 hi)]
  rfl

/-- Whether there are as many shards as the range has indices below its end, or they can be
created. -/
def Grows (trivial : Bool) (b : Nat) (v : Vec T) (endIndex : BitVec 64) : Prop :=
  endIndex.toNat ≤ v.table.shardNum ∨ endIndex.toNat < 2 ^ 31 ∧ (trivial ∨ b ≤ 30)

theorem room_iff {trivial : Bool} (hb : b ≤ 63) (endIndex : BitVec 64) :
    v.Room trivial (.make (BitVec.ofNat 64 (2 ^ b))) endIndex.toNat ↔ v.Grows trivial b endIndex := by
  rw [Room, Grows, creates_iff hb]

end Cells

section Crossing

variable [Inhabited T] {b : Nat} {v v₁ v' : Vec T} {startIndex length : BitVec 64} {f : Nat → Option T}

theorem add_toNat_of_cross (hlt : startIndex.toNat / 2 ^ min b 32 < (startIndex + length).toNat / 2 ^ min b 32) :
    (startIndex + length).toNat = startIndex.toNat + length.toNat := by
  have hadd := BitVec.toNat_add startIndex length
  have hs : ¬ (startIndex + length).toNat ≤ startIndex.toNat := by
    intro hle
    exact absurd (Nat.div_le_div_right (c := 2 ^ min b 32) hle) (not_le.2 hlt)
  have hstart := startIndex.isLt
  have hlength := length.isLt
  omega

/-- The shards that `for_each` looks at are there. -/
theorem Ensured.lt_shardNum {m : Meta} {e : Nat} (h : Ensured m v v₁ e) {id : Nat}
    (hid : id < e / 2 ^ min b 32 ∨ id = e / 2 ^ min b 32 ∧ 0 < e % 2 ^ b) : id < v₁.table.shardNum := by
  have hle : e / 2 ^ min b 32 ≤ e := Nat.div_le_self _ _
  rw [h.shardNum]
  rcases hid with hid | ⟨rfl, hoff⟩
  · omega
  · have hb0 : b ≠ 0 := by
      rintro rfl
      rw [Nat.pow_zero, Nat.mod_one] at hoff
      exact absurd hoff (lt_irrefl 0)
    have hpos : 0 < e := by
      rcases Nat.eq_zero_or_pos e with rfl | hpos
      · rw [Nat.zero_mod] at hoff
        exact absurd hoff (lt_irrefl 0)
      · exact hpos
    have hlt : e / 2 ^ min b 32 < e := Nat.div_lt_self hpos (Nat.one_lt_two_pow (by omega))
    omega

theorem forEach_ensured {σ : Type} {callback : σ → Range → Option σ} (hb : b ≤ 63)
    (h : Ensured (.make (BitVec.ofNat 64 (2 ^ b))) v v₁ (startIndex + length).toNat)
    (hlt : startIndex.toNat / 2 ^ min b 32 < (startIndex + length).toNat / 2 ^ min b 32) (s : σ) :
    forEach (.make (BitVec.ofNat 64 (2 ^ b))) v₁.table callback startIndex (startIndex + length) s =
      (ranges (.make (BitVec.ofNat 64 (2 ^ b))) v₁.shardOf startIndex (startIndex + length)).foldlM callback s := by
  apply forEach_eq
  · rw [getShardId_make hb, getShardId_make hb]
    exact hlt
  · intro id _ hid
    rw [getShardId_make hb] at hid
    exact h.ok.shard_eq (h.lt_shardNum (.inl hid))
  · intro hoff
    rw [getShardOffset_make hb] at hoff
    rw [getShardId_make hb]
    exact h.ok.shard_eq (h.lt_shardNum (.inr ⟨rfl, hoff⟩))

/-- The table is the one that was ensured, and among the cells of indices those of the range
hold `f` and the others are untouched. -/
theorem Writes.of_cells (hb : b ≤ 63) (hv : Ok v)
    (h : Ensured (.make (BitVec.ofNat 64 (2 ^ b))) v v₁ (startIndex + length).toNat)
    (hadd : (startIndex + length).toNat = startIndex.toNat + length.toNat) (htable : v'.table = v₁.table)
    (hin : ∀ i, startIndex.toNat ≤ i → i < (startIndex + length).toNat →
      some (v'.cells (v₁.shardOf (i / 2 ^ min b 32)) (i % 2 ^ b)) = f (i - startIndex.toNat))
    (hout : ∀ i, i / 2 ^ min b 32 < v₁.table.shardNum → ¬ (startIndex.toNat ≤ i ∧ i < (startIndex + length).toNat) →
      v'.cells (v₁.shardOf (i / 2 ^ min b 32)) (i % 2 ^ b) = v₁.cells (v₁.shardOf (i / 2 ^ min b 32)) (i % 2 ^ b)) :
    Writes (.make (BitVec.ofNat 64 (2 ^ b))) v v' startIndex length f := by
  have hget : ∀ i : BitVec 64, i.toNat / 2 ^ min b 32 < v₁.table.shardNum →
      v'.get (.make (BitVec.ofNat 64 (2 ^ b))) i =
        some (v'.cells (v₁.shardOf (i.toNat / 2 ^ min b 32)) (i.toNat % 2 ^ b)) := by
    intro i hi
    rw [get, Table.cell, getShardId_make hb, getShardOffset_make hb, htable, h.ok.shard_eq hi]
    rfl
  have hmax := h.shardNum
  constructor
  · intro j hj
    have hj64 : (startIndex + BitVec.ofNat 64 j).toNat = startIndex.toNat + j := by
      have hlength := length.isLt
      have hend := (startIndex + length).isLt
      rw [BitVec.toNat_add, BitVec.toNat_ofNat, Nat.mod_eq_of_lt (show j < 2 ^ 64 by omega),
          Nat.mod_eq_of_lt (by omega)]
    have hle : (startIndex.toNat + j) / 2 ^ min b 32 ≤ startIndex.toNat + j := Nat.div_le_self _ _
    rw [hget _ (by rw [hj64]; omega), hj64, hin _ (by omega) (by omega), Nat.add_sub_cancel_left]
  · intro i hi hsome
    have hi' : ¬ (startIndex.toNat ≤ i.toNat ∧ i.toNat < (startIndex + length).toNat) := hi
    by_cases hid : i.toNat / 2 ^ min b 32 < v.table.shardNum
    · have hid₁ : i.toNat / 2 ^ min b 32 < v₁.table.shardNum := by omega
      obtain ⟨s, hs, hes⟩ := hv.complete _ hid
      have hsame : v₁.shardOf (i.toNat / 2 ^ min b 32) = v.shardOf (i.toNat / 2 ^ min b 32) := by
        rw [shardOf, shardOf, h.old _ hid]
      have hold : v.shardOf (i.toNat / 2 ^ min b 32) < v.nextShard := by
        rw [shardOf, hes]
        exact hs
      rw [hget i hid₁, hv.get_eq hb hid, hout _ hid₁ hi', hsame, h.cells _ hold]
    · rw [get_none hb (not_lt.1 hid)] at hsome
      cases hsome
  · intro i hi hnone hsome
    have hi' : ¬ (startIndex.toNat ≤ i.toNat ∧ i.toNat < (startIndex + length).toNat) := hi
    have hid : v.table.shardNum ≤ i.toNat / 2 ^ min b 32 := by
      by_contra hlt
      rw [hv.get_eq hb (not_le.1 hlt)] at hnone
      cases hnone
    have hid₁ : i.toNat / 2 ^ min b 32 < v₁.table.shardNum := by
      by_contra hge
      rw [get_none hb (by rw [htable]; exact not_lt.1 hge)] at hsome
      cases hsome
    have hoff : i.toNat % 2 ^ b < (Meta.make (BitVec.ofNat 64 (2 ^ b))).numPerShard.toNat := by
      rw [make_twoPow hb]
      exact (Nat.mod_lt _ (Nat.two_pow_pos b)).trans_eq (twoPow_toNat hb).symm
    rw [hget i hid₁, hout _ hid₁ hi', h.new _ _ hid (h.ok.shard_eq hid₁) _ hoff]

theorem Ensured.nodup_cells {m : Meta} (h : Ensured m v v₁ (startIndex + length).toNat) (s : Nat) :
    ((List.range' s ((startIndex + length).toNat - s)).map fun i =>
      (v₁.shardOf (i / 2 ^ min b 32), i % 2 ^ b)).Nodup := by
  apply List.Nodup.map_on ?_ List.nodup_range'
  intro i hi j hj he
  rw [Prod.mk.injEq] at he
  have hmax := h.shardNum
  have hid : ∀ i ∈ List.range' s ((startIndex + length).toNat - s), i / 2 ^ min b 32 < v₁.table.shardNum := by
    intro i hi
    have hlt := (List.mem_range'_1.1 hi).2
    have hge := (List.mem_range'_1.1 hi).1
    have hle : i / 2 ^ min b 32 ≤ i := Nat.div_le_self _ _
    omega
  have hq := h.ok.shardOf_inj (hid i hi) (hid j hj) he.1
  exact le_antisymm ((mod_le_iff hq).1 he.2.le) ((mod_le_iff hq.symm).1 he.2.ge)

variable {trivial : Bool}

theorem fills_iff (hb : b ≤ 63) (hv : Ok v) (value : T)
    (hlt : startIndex.toNat / 2 ^ min b 32 < (startIndex + length).toNat / 2 ^ min b 32) :
    (∃ v', v.fillN trivial (.make (BitVec.ofNat 64 (2 ^ b))) startIndex length value = some v' ∧
      Writes (.make (BitVec.ofNat 64 (2 ^ b))) v v' startIndex length fun _ => some value) ↔
        v.Grows trivial b (startIndex + length) := by
  rw [← room_iff hb]
  constructor
  · rintro ⟨v', hv', -⟩
    by_contra hroom
    rw [fillN, reservedSnapshot, ensureTable_none hroom] at hv'
    cases hv'
  · intro hroom
    obtain ⟨v₁, hv₁, hens⟩ := ensureTable_ensured hv hroom
    obtain ⟨htable, hcells⟩ := foldl_set v₁ ((ranges (.make (BitVec.ofNat 64 (2 ^ b))) v₁.shardOf startIndex
      (startIndex + length)).flatMap Range.cells) value
    have hmem : ∀ i, i / 2 ^ min b 32 < v₁.table.shardNum →
        ((v₁.shardOf (i / 2 ^ min b 32), i % 2 ^ b) ∈ (ranges (.make (BitVec.ofNat 64 (2 ^ b))) v₁.shardOf startIndex
          (startIndex + length)).flatMap Range.cells ↔
            startIndex.toNat ≤ i ∧ i < (startIndex + length).toNat) := fun i hi =>
      mem_ranges hb hlt fun id hid he => hens.ok.shardOf_inj hi (hens.lt_shardNum hid) he
    refine ⟨_, ?_, Writes.of_cells hb hv hens (add_toNat_of_cross hlt) htable (fun i hge hi => ?_) fun i hid hno => ?_⟩
    · rw [fillN, reservedSnapshot, hv₁]
      exact (forEach_ensured hb hens hlt v₁).trans (foldlM_fill v₁ _ value)
    · have hle : i / 2 ^ min b 32 ≤ i := Nat.div_le_self _ _
      have hmax := hens.shardNum
      rw [hcells, if_pos ((hmem i (by omega)).2 ⟨hge, hi⟩)]
    · rw [hcells, if_neg (fun hin => hno ((hmem i hid).1 hin))]

theorem copies_iff (hb : b ≤ 63) (hv : Ok v) {iter : List T} (hlen : iter.length = length.toNat)
    (hlt : startIndex.toNat / 2 ^ min b 32 < (startIndex + length).toNat / 2 ^ min b 32) :
    (∃ v', v.copyN trivial (.make (BitVec.ofNat 64 (2 ^ b))) iter length startIndex = some v' ∧
      Writes (.make (BitVec.ofNat 64 (2 ^ b))) v v' startIndex length fun j => iter[j]?) ↔
        v.Grows trivial b (startIndex + length) ∧
          (b ≤ 32 ∨ (startIndex + length).toNat / 2 ^ 32 = startIndex.toNat / 2 ^ 32 + 1 ∧
            2 ^ (b - 32) ∣ (startIndex + length).toNat / 2 ^ 32) := by
  have hadd := add_toNat_of_cross hlt
  rw [← room_iff hb]
  constructor
  · rintro ⟨v', hv', -⟩
    by_cases hroom : v.Room trivial (.make (BitVec.ofNat 64 (2 ^ b))) (startIndex + length).toNat
    · refine ⟨hroom, ?_⟩
      obtain ⟨v₁, hv₁, hens⟩ := ensureTable_ensured hv hroom
      by_cases hle : b ≤ 32
      · exact .inl hle
      · rw [copyN, reservedSnapshot, hv₁, Option.bind_eq_bind, Option.bind_some] at hv'
        obtain ⟨s, hs, -⟩ := Option.bind_eq_some_iff.1 hv'
        -- the source is not longer than the range
        rw [forEach_ensured hb hens hlt, foldlM_copy] at hs
        have hcopied := length_le_of_copy hs
        rw [ranges_length hb, hlen] at hcopied
        have hmin : min b 32 = 32 := min_eq_right (by omega)
        rw [hmin] at hcopied hlt
        have hpow : 2 ^ 32 * 2 ^ (b - 32) = 2 ^ b := by
          have h := pow_split (b := b)
          rwa [hmin] at h
        rw [← hpow] at hcopied
        exact .inr (cut_of_length (Nat.two_pow_pos _) (Nat.le_self_pow (by omega) 2) hlt (by omega))
    · rw [copyN, reservedSnapshot, ensureTable_none hroom] at hv'
      cases hv'
  · rintro ⟨hroom, hcut⟩
    obtain ⟨v₁, hv₁, hens⟩ := ensureTable_ensured hv hroom
    have hlen' : ((List.range' startIndex.toNat ((startIndex + length).toNat - startIndex.toNat)).map
        fun i => (v₁.shardOf (i / 2 ^ min b 32), i % 2 ^ b)).length = iter.length := by
      rw [List.length_map, List.length_range', hlen]
      omega
    obtain ⟨v', hv', htable, hout, hin⟩ := foldlM_copyCell (hens.nodup_cells _) v₁ hlen'
    refine ⟨v', ?_, Writes.of_cells hb hv hens hadd htable (fun i hge hi => ?_) fun i hid hno => ?_⟩
    · rw [copyN, reservedSnapshot, hv₁]
      simp only [Option.bind_eq_bind, Option.bind_some]
      rw [forEach_ensured hb hens hlt, foldlM_copy, ranges_cells hb hlt hcut, hv']
      rfl
    · apply hin
      rw [List.getElem?_map, List.getElem?_range' (by omega)]
      simp [Nat.add_sub_cancel' hge]
    · apply hout
      intro hmem
      rw [← ranges_cells hb hlt hcut] at hmem
      exact hno ((mem_ranges hb hlt fun id hid' he => hens.ok.shardOf_inj hid (hens.lt_shardNum hid') he).1 hmem)

/-- `fill_n` and `copy_n` on a range that crosses a shard boundary. The end of the range is taken
for the number of shards, and the loops that create them count with an `int`. -/
theorem fill_copy_iff (hb : b ≤ 63) (hv : Ok v) {iter : List T} (hlen : iter.length = length.toNat)
    (hlt : getShardId (.make (BitVec.ofNat 64 (2 ^ b))) startIndex <
      getShardId (.make (BitVec.ofNat 64 (2 ^ b))) (startIndex + length)) (trivial : Bool) (value : T) :
    ((∃ v', v.fillN trivial (.make (BitVec.ofNat 64 (2 ^ b))) startIndex length value = some v' ∧
        Writes (.make (BitVec.ofNat 64 (2 ^ b))) v v' startIndex length fun _ => some value) ∧
      ∃ v', v.copyN trivial (.make (BitVec.ofNat 64 (2 ^ b))) iter length startIndex = some v' ∧
        Writes (.make (BitVec.ofNat 64 (2 ^ b))) v v' startIndex length fun j => iter[j]?) ↔
      v.Grows trivial b (startIndex + length) ∧
        (b ≤ 32 ∨ (startIndex + length).toNat / 2 ^ 32 = startIndex.toNat / 2 ^ 32 + 1 ∧
          2 ^ (b - 32) ∣ (startIndex + length).toNat / 2 ^ 32) := by
  rw [getShardId_make hb, getShardId_make hb] at hlt
  rw [fills_iff hb hv value hlt, copies_iff hb hv hlen hlt]
  constructor
  · rintro ⟨-, h⟩
    exact h
  · intro h
    exact ⟨h.1, h⟩

end Crossing

/-- Eight elements from 2 on in shards of four. -/
theorem fill_copy_iff_eight :
    (∃ v', fillN true (.make (BitVec.ofNat 64 (2 ^ 2))) (make : Vec Nat) 2 8 666 = some v' ∧
      Writes (.make (BitVec.ofNat 64 (2 ^ 2))) make v' 2 8 fun _ => some 666) ∧
    ∃ v', copyN true (.make (BitVec.ofNat 64 (2 ^ 2))) (make : Vec Nat) [2, 3, 4, 5, 6, 7, 8, 9] 8 2 = some v' ∧
      Writes (.make (BitVec.ofNat 64 (2 ^ 2))) make v' 2 8 fun j => [2, 3, 4, 5, 6, 7, 8, 9][j]? :=
  (fill_copy_iff (by decide) ok_make rfl (by decide) true 666).2 ⟨.inr ⟨by decide, .inl rfl⟩, .inl (by decide)⟩

/-- `2 ^ 31` elements need `2 ^ 29` shards of four. -/
theorem fill_overflows : (getShardId (.make (BitVec.ofNat 64 (2 ^ 2))) 0 <
      getShardId (.make (BitVec.ofNat 64 (2 ^ 2))) (0 + BitVec.ofNat 64 (2 ^ 31))) ∧
    fillN true (.make (BitVec.ofNat 64 (2 ^ 2))) (make : Vec Nat) 0 (BitVec.ofNat 64 (2 ^ 31)) 666 = none := by
  refine ⟨by decide, ?_⟩
  rw [fillN, reservedSnapshot, ensureTable_none]
  · rfl
  · rintro (hle | ⟨hlt, -⟩)
    · exact absurd hle (by decide)
    · exact absurd hlt (by decide)

end Wizard.Vector.Vec
