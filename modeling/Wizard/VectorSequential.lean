import Wizard.VectorSnapshot

/-! A vector in the hands of one thread. The loops of `ensure_table` and `create_shard` count
with an `int`, and an operation has no result when it overflows. Memory is there for every
allocation. -/

namespace Wizard.Vector

/-- `for (int i = first; i < bound; ++i)`. -/
def forInt {σ : Type} (body : Nat → σ → Option σ) (first bound : Nat) (s : σ) : Option σ :=
  (List.range' first (bound - first)).foldlM (fun s i => do
    let s ← body i s
    if i + 1 < 2 ^ 31 then some s else none) s

structure Vec (T : Type) where
  table : Table
  nextShard : Nat
  cells : Nat → Nat → T

namespace Vec

variable {T : Type}

/-- A new vector. -/
def make [Inhabited T] : Vec T := ⟨emptyTable, 0, fun _ _ => default⟩

def set (v : Vec T) (c : Nat × Nat) (x : T) : Vec T :=
  { v with cells := Function.update v.cells c.1 (Function.update (v.cells c.1) c.2 x) }

/-- `operator[]`. -/
def get (m : Meta) (v : Vec T) (index : BitVec 64) : Option T :=
  (v.table.cell m index).map fun c => v.cells c.1 c.2

section Grow

variable [Inhabited T] (trivial : Bool) (m : Meta) (v : Vec T)

/-- A trivial type is set to zeros, and other types are constructed one by one. -/
def createShard : Option (Nat × Vec T) := do
  let shard := v.nextShard
  let v := { v with nextShard := v.nextShard + 1 }
  let v ← if trivial then some { v with cells := Function.update v.cells shard fun _ => default }
    else forInt (fun k v => some (v.set (shard, k) default)) 0 m.numPerShard.toNat v
  return (shard, v)

/-- The compare-and-swap succeeds, and the old table is retired. -/
def ensureTable (shardNum : Nat) : Option (Vec T) :=
  if shardNum ≤ v.table.shardNum then some v else do
    let t ← forInt (fun i t => some (t.setShard i (v.table.shards i))) 0 v.table.shardNum ⟨shardNum, fun _ => none⟩
    let (t, v) ← forInt (fun i (t, v) => do
      let (shard, v) ← createShard trivial m v
      return (t.setShard i (some shard), v)) v.table.shardNum shardNum (t, v)
    return { v with table := t }

def reserve (size : BitVec 64) : Option (Vec T) := v.ensureTable trivial m (requireShardNum m size)

/-- The snapshot is the table. -/
def reservedSnapshot (size : BitVec 64) : Option (Vec T) := v.ensureTable trivial m size.toNat

/-- `std::fill`. -/
def fill (value : T) (v : Vec T) (r : Range) : Option (Vec T) :=
  some (r.cells.foldl (fun v c => v.set c value) v)

def fillN (startIndex length : BitVec 64) (value : T) : Option (Vec T) := do
  let v ← v.reservedSnapshot trivial m (startIndex + length)
  forEach m v.table (fill value) startIndex (startIndex + length) v

/-- One turn of `std::copy_n`: `iter` is what the source still has. -/
def copyCell (s : Vec T × List T) (c : Nat × Nat) : Option (Vec T × List T) :=
  match s.2 with
  | [] => none
  | x :: iter => some (s.1.set c x, iter)

def copyN (iter : List T) (length startIndex : BitVec 64) : Option (Vec T) := do
  let v ← v.reservedSnapshot trivial m (startIndex + length)
  let (v, _) ← forEach m v.table (fun s r => r.cells.foldlM copyCell s) startIndex (startIndex + length) (v, iter)
  return v

end Grow

/-- Every entry of the table is a shard of its own. -/
structure Ok (v : Vec T) : Prop where
  complete : ∀ id < v.table.shardNum, ∃ shard < v.nextShard, v.table.shards id = some shard
  distinct : ∀ i < v.table.shardNum, ∀ j < v.table.shardNum, v.table.shards i = v.table.shards j → i = j

theorem Ok.shard {v : Vec T} (hv : Ok v) {id : Nat} (hid : id < v.table.shardNum) :
    ∃ s < v.nextShard, v.table.shard id = some s := by
  obtain ⟨s, hs, he⟩ := hv.complete id hid
  exact ⟨s, hs, by rw [Table.shard, if_pos hid, he]⟩

theorem ok_make [Inhabited T] : Ok (make : Vec T) :=
  ⟨fun _ h => absurd h (Nat.not_lt_zero _), fun _ h => absurd h (Nat.not_lt_zero _)⟩

section ForInt

variable {σ : Type} {first bound : Nat} {s : σ}

/-- What holds at the start and is kept by the body holds at the end. -/
theorem forInt_rule (body : Nat → σ → Option σ) {P : Nat → σ → Prop} (hle : first ≤ bound) (hb : bound < 2 ^ 31)
    (hs : P first s)
    (hstep : ∀ i s, first ≤ i → i < bound → P i s → ∃ s', body i s = some s' ∧ P (i + 1) s') :
    ∃ s', forInt body first bound s = some s' ∧ P bound s' := by
  obtain ⟨n, rfl⟩ : ∃ n, bound = first + n := ⟨bound - first, by omega⟩
  rw [forInt, Nat.add_sub_cancel_left]
  induction n generalizing first s with
  | zero => exact ⟨s, rfl, hs⟩
  | succ n ih =>
    obtain ⟨s₁, hs₁, hP⟩ := hstep first s le_rfl (by omega) hs
    obtain ⟨s₂, hs₂, hP₂⟩ := ih hP (by omega) (by omega)
      (fun i s hge hlt hi => hstep i s (by omega) (by omega) hi)
    refine ⟨s₂, ?_, by rwa [show first + (n + 1) = first + 1 + n by omega]⟩
    rw [List.range'_succ, List.foldlM_cons, hs₁]
    simp only [Option.bind_eq_bind, Option.bind_some, if_pos (show first + 1 < 2 ^ 31 by omega)]
    exact hs₂

theorem forInt_overflow {body : Nat → σ → Option σ} (hlt : first < bound) (hb : 2 ^ 31 ≤ bound) :
    forInt body first bound s = none := by
  obtain ⟨n, rfl⟩ : ∃ n, bound = first + n + 1 := ⟨bound - first - 1, by omega⟩
  rw [forInt, show first + n + 1 - first = n + 1 by omega, List.range'_1_concat, List.foldlM_append]
  cases (List.range' first n).foldlM (fun s i => do
    let s ← body i s
    if i + 1 < 2 ^ 31 then some s else none) s with
  | none => rfl
  | some s' =>
    simp only [Option.bind_eq_bind, Option.bind_some, List.foldlM_cons, List.foldlM_nil]
    cases body (first + n) s' with
    | none => rfl
    | some s'' => simp only [Option.bind_some, if_neg (not_lt.2 hb), Option.bind_none]

theorem forInt_fails {body : Nat → σ → Option σ} (hlt : first < bound) (hs : body first s = none) :
    forInt body first bound s = none := by
  obtain ⟨n, rfl⟩ : ∃ n, bound = first + (n + 1) := ⟨bound - first - 1, by omega⟩
  rw [forInt, Nat.add_sub_cancel_left, List.range'_succ, List.foldlM_cons, hs]
  rfl

/-- A loop is a run of steps if each of its turns is a step. -/
theorem forInt_run {τ : Type*} {step : τ → τ → Prop} {R : Nat → σ → τ → Prop} {body : Nat → σ → Option σ} {s' : σ}
    {x : τ} (hle : first ≤ bound) (h : forInt body first bound s = some s') (hR : R first s x)
    (hstep : ∀ i s s' x, i < bound → i + 1 < 2 ^ 31 → body i s = some s' → R i s x →
      ∃ x', step x x' ∧ R (i + 1) s' x') :
    ∃ x', Relation.ReflTransGen step x x' ∧ R bound s' x' := by
  obtain ⟨n, hn⟩ : ∃ n, bound = first + n := ⟨bound - first, by omega⟩
  rw [forInt, show bound - first = n by omega] at h
  induction n generalizing first s x with
  | zero =>
    cases h
    exact ⟨x, .refl, hn ▸ hR⟩
  | succ n ih =>
    rw [List.range'_succ, List.foldlM_cons] at h
    obtain ⟨s₁, hs₁, h⟩ := Option.bind_eq_some_iff.1 h
    obtain ⟨s₂, hbody, hs₁⟩ := Option.bind_eq_some_iff.1 hs₁
    split at hs₁
    · rename_i hmax
      obtain rfl := Option.some.inj hs₁
      obtain ⟨x₁, hx₁, hR₁⟩ := hstep first s s₂ x (by omega) hmax hbody hR
      obtain ⟨x₂, hx₂, hR₂⟩ := ih (by omega) hR₁ h (by omega)
      exact ⟨x₂, .head hx₁ hx₂, hR₂⟩
    · cases hs₁

end ForInt

section Growth

variable [Inhabited T] {trivial : Bool} {m : Meta} {v v' : Vec T} {n : Nat}

/-- A shard can be created. -/
def Creates (trivial : Bool) (m : Meta) : Prop := trivial = true ∨ m.numPerShard.toNat < 2 ^ 31

theorem createShard_eq (hc : Creates trivial m) (v : Vec T) : ∃ v', v.createShard trivial m = some (v.nextShard, v') ∧
    v'.table = v.table ∧ v'.nextShard = v.nextShard + 1 ∧ (∀ s, s ≠ v.nextShard → v'.cells s = v.cells s) ∧
      ∀ o < m.numPerShard.toNat, v'.cells v.nextShard o = default := by
  cases ht : trivial with
  | true =>
    refine ⟨_, rfl, rfl, rfl, fun s hs => ?_, fun o _ => ?_⟩
    · exact Function.update_of_ne hs _ _
    · simp
  | false =>
    rw [ht] at hc
    obtain ⟨v', hv', htable, hnext, hold, hnew⟩ := forInt_rule
      (fun k v' => some (v'.set (v.nextShard, k) default)) (s := { v with nextShard := v.nextShard + 1 })
      (P := fun i v' => v'.table = v.table ∧ v'.nextShard = v.nextShard + 1 ∧
        (∀ s, s ≠ v.nextShard → v'.cells s = v.cells s) ∧ ∀ o < i, v'.cells v.nextShard o = default)
      (Nat.zero_le m.numPerShard.toNat) (hc.resolve_left (by decide)) ⟨rfl, rfl, fun _ _ => rfl, fun _ h => by omega⟩
      (by
        rintro i v' - - ⟨htable, hnext, hold, hnew⟩
        refine ⟨_, rfl, htable, hnext, fun s hs => ?_, fun o ho => ?_⟩
        · rw [set, ← hold s hs]
          exact Function.update_of_ne hs _ _
        · by_cases hoi : o = i
          · subst hoi
            simp [set]
          · simp [set, Function.update_of_ne hoi, hnew o (by omega)])
    refine ⟨v', ?_, htable, hnext, hold, hnew⟩
    simp only [createShard, Bool.false_eq_true, if_false, hv', Option.bind_eq_bind, Option.bind_some]
    rfl

theorem createShard_none (hc : ¬ Creates trivial m) (v : Vec T) : v.createShard trivial m = none := by
  rw [Creates, not_or] at hc
  have hbig : 2 ^ 31 ≤ m.numPerShard.toNat := not_lt.1 hc.2
  simp only [createShard, if_neg hc.1, forInt_overflow (by omega : 0 < m.numPerShard.toNat) hbig]
  rfl

/-- A table that has grown to `n` shards. -/
structure Grown (m : Meta) (v v' : Vec T) (n : Nat) : Prop where
  shardNum : v'.table.shardNum = n
  old : ∀ id < v.table.shardNum, v'.table.shards id = v.table.shards id
  fresh : ∀ id, v.table.shardNum ≤ id → id < n →
    v'.table.shards id = some (v.nextShard + (id - v.table.shardNum))
  nextShard : v'.nextShard = v.nextShard + (n - v.table.shardNum)
  cells : ∀ s < v.nextShard, v'.cells s = v.cells s
  new : ∀ s, v.nextShard ≤ s → s < v'.nextShard → ∀ o < m.numPerShard.toNat, v'.cells s o = default

/-- The table after the creation loop has come to `i`. -/
structure Growing (m : Meta) (v : Vec T) (n i : Nat) (s : Table × Vec T) : Prop where
  shardNum : s.1.shardNum = n
  old : ∀ id < v.table.shardNum, s.1.shards id = v.table.shards id
  fresh : ∀ id, v.table.shardNum ≤ id → id < i → s.1.shards id = some (v.nextShard + (id - v.table.shardNum))
  nextShard : s.2.nextShard = v.nextShard + (i - v.table.shardNum)
  cells : ∀ s' < v.nextShard, s.2.cells s' = v.cells s'
  new : ∀ s', v.nextShard ≤ s' → s' < s.2.nextShard → ∀ o < m.numPerShard.toNat, s.2.cells s' o = default

theorem ensureTable_grown (hlt : v.table.shardNum < n) (hn : n < 2 ^ 31) (hc : Creates trivial m) :
    ∃ v', v.ensureTable trivial m n = some v' ∧ Grown m v v' n := by
  obtain ⟨t, ht, htn, hcopy⟩ := forInt_rule
    (fun i t => some (t.setShard i (v.table.shards i))) (s := (⟨n, fun _ => none⟩ : Table))
    (P := fun i t => t.shardNum = n ∧ ∀ id < i, t.shards id = v.table.shards id)
    (Nat.zero_le v.table.shardNum) (hlt.trans hn) ⟨rfl, fun _ h => by omega⟩
    (by
      rintro i t - - ⟨hn, hid⟩
      refine ⟨_, rfl, hn, fun id hlt => ?_⟩
      by_cases he : id = i
      · subst he
        simp [Table.setShard]
      · simp [Table.setShard, Function.update_of_ne he, hid id (by omega)])
  obtain ⟨s, hs, hgrow⟩ := forInt_rule
    (fun i (s : Table × Vec T) => do
      let (shard, v) ← createShard trivial m s.2
      return (s.1.setShard i (some shard), v)) (s := (t, v)) (P := Growing m v n)
    hlt.le hn ⟨htn, hcopy, fun _ _ _ => by omega, by simp, fun _ _ => rfl,
      fun _ hge hlt => absurd hge (not_le.2 hlt)⟩
    (by
      rintro i s hge hlt' h
      obtain ⟨v', hv', -, hnext, hcells, hnew⟩ := createShard_eq hc s.2
      have hsub : i + 1 - v.table.shardNum = i - v.table.shardNum + 1 := by omega
      refine ⟨(s.1.setShard i (some s.2.nextShard), v'), ?_, h.shardNum, fun id hid => ?_, fun id hge' hid => ?_, ?_,
        fun s' hs' => ?_, fun s' hge' hs' o ho => ?_⟩
      · simp only [hv', Option.bind_eq_bind, Option.bind_some]
        rfl
      · have hne : id ≠ i := by omega
        simp [Table.setShard, Function.update_of_ne hne, h.old id hid]
      · by_cases he : id = i
        · subst he
          simp [Table.setShard, h.nextShard]
        · simp [Table.setShard, Function.update_of_ne he, h.fresh id hge' (by omega)]
      · rw [hnext, h.nextShard, hsub]
        rfl
      · have hnext' := h.nextShard
        rw [hcells s' (by omega), h.cells s' hs']
      · by_cases he : s' = s.2.nextShard
        · subst he
          exact hnew o ho
        · rw [hcells s' he]
          exact h.new s' hge' (by rw [hnext] at hs'; omega) o ho)
  refine ⟨{ s.2 with table := s.1 }, ?_, hgrow.shardNum, hgrow.old, hgrow.fresh, hgrow.nextShard, hgrow.cells,
    hgrow.new⟩
  rw [ensureTable, if_neg (by omega), ht]
  simp only [Option.bind_eq_bind, Option.bind_some]
  simp only [Option.bind_eq_bind] at hs
  rw [hs]
  rfl

/-- There are `n` shards, or they can be created. -/
def Room (trivial : Bool) (m : Meta) (v : Vec T) (n : Nat) : Prop :=
  n ≤ v.table.shardNum ∨ n < 2 ^ 31 ∧ Creates trivial m

theorem ensureTable_none (h : ¬ v.Room trivial m n) : v.ensureTable trivial m n = none := by
  rw [Room, not_or, not_and_or] at h
  obtain ⟨hlt, hno⟩ := h
  rw [ensureTable, if_neg hlt]
  cases forInt (fun i t => some (t.setShard i (v.table.shards i))) 0 v.table.shardNum
    (⟨n, fun _ => none⟩ : Table) with
  | none => rfl
  | some t =>
    simp only [Option.bind_eq_bind, Option.bind_some]
    by_cases hn : n < 2 ^ 31
    · rw [forInt_fails (not_le.1 hlt)]
      · rfl
      · simp only [createShard_none (hno.resolve_left (not_not.2 hn))]
        rfl
    · rw [forInt_overflow (not_le.1 hlt) (not_lt.1 hn)]
      rfl

/-- What `ensure_table` leaves of the vector. -/
structure Ensured (m : Meta) (v v' : Vec T) (n : Nat) : Prop where
  ok : Ok v'
  shardNum : v'.table.shardNum = max v.table.shardNum n
  old : ∀ id < v.table.shardNum, v'.table.shards id = v.table.shards id
  cells : ∀ s < v.nextShard, v'.cells s = v.cells s
  new : ∀ id s, v.table.shardNum ≤ id → v'.table.shard id = some s → ∀ o < m.numPerShard.toNat, v'.cells s o = default

theorem Grown.ok (hv : Ok v) (hlt : v.table.shardNum < n) (h : Grown m v v' n) : Ok v' := by
  have hnext := h.nextShard
  constructor
  · intro id hid
    rw [h.shardNum] at hid
    by_cases hold : id < v.table.shardNum
    · obtain ⟨s, hs, he⟩ := hv.complete id hold
      exact ⟨s, by omega, by rw [h.old id hold, he]⟩
    · exact ⟨_, by omega, h.fresh id (not_lt.1 hold) hid⟩
  · intro i hi j hj he
    rw [h.shardNum] at hi hj
    by_cases hoi : i < v.table.shardNum
    · by_cases hoj : j < v.table.shardNum
      · rw [h.old i hoi, h.old j hoj] at he
        exact hv.distinct i hoi j hoj he
      · obtain ⟨s, hs, hsi⟩ := hv.complete i hoi
        rw [h.old i hoi, hsi, h.fresh j (not_lt.1 hoj) hj, Option.some.injEq] at he
        omega
    · by_cases hoj : j < v.table.shardNum
      · obtain ⟨s, hs, hsj⟩ := hv.complete j hoj
        rw [h.old j hoj, hsj, h.fresh i (not_lt.1 hoi) hi, Option.some.injEq] at he
        omega
      · rw [h.fresh i (not_lt.1 hoi) hi, h.fresh j (not_lt.1 hoj) hj, Option.some.injEq] at he
        omega

theorem ensureTable_ensured (hv : Ok v) (h : v.Room trivial m n) :
    ∃ v', v.ensureTable trivial m n = some v' ∧ Ensured m v v' n := by
  by_cases hle : n ≤ v.table.shardNum
  · refine ⟨v, if_pos hle, hv, (max_eq_left hle).symm, fun _ _ => rfl, fun _ _ => rfl, fun id s hge hs => ?_⟩
    rw [Table.shard, if_neg (not_lt.2 hge)] at hs
    cases hs
  · obtain ⟨hn, hc⟩ := h.resolve_left hle
    obtain ⟨v', hv', hgrown⟩ := ensureTable_grown (not_le.1 hle) hn hc
    refine ⟨v', hv', hgrown.ok hv (not_le.1 hle), ?_, hgrown.old, hgrown.cells, fun id s hge hs => ?_⟩
    · rw [hgrown.shardNum, max_eq_right (not_le.1 hle).le]
    · rw [Table.shard] at hs
      split at hs
      · rename_i hid
        rw [hgrown.shardNum] at hid
        rw [hgrown.fresh id hge hid, Option.some.injEq] at hs
        have hnext := hgrown.nextShard
        exact hgrown.new s (by omega) (by omega)
      · cases hs

end Growth

section Sizes

variable [Inhabited T] {trivial : Bool} {v : Vec T} {b : Nat} {size : BitVec 64}

theorem creates_iff (hb : b ≤ 63) : Creates trivial (.make (BitVec.ofNat 64 (2 ^ b))) ↔ trivial ∨ b ≤ 30 := by
  have hnum : (Meta.make (BitVec.ofNat 64 (2 ^ b))).numPerShard.toNat = 2 ^ b := by
    rw [make_twoPow hb]
    exact twoPow_toNat hb
  rw [Creates, hnum, Nat.pow_lt_pow_iff_right (by decide), Nat.lt_succ_iff]

end Sizes

end Vec

end Wizard.Vector
