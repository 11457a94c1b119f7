import Wizard.HashMapReclaim

/-! `reserve` passes `capacity >> ShardBits` to `rehash` as it is. -/

namespace Wizard.HashMap

open SegmentT

variable {Key Value : Type}

/-- `rehash` as `reserve` calls it. -/
def SegmentT.rehash (c : Config Key) (s : SegmentT Key Value) (count : BitVec 64) :
    Option (SegmentT Key Value) :=
  (rehashStores c s count).map s.applyAll

/-- One turn of the loop of `reserve`. -/
def Map.reserveOne (c : Config Key) (count : BitVec 64) (m : Map Key Value) (i : Nat) :
    Option (Map Key Value) :=
  match m.segments i with
  | none => some m
  | some s => (s.rehash c count).map (m.setSegment i)

def Map.reserve (c : Config Key) (m : Map Key Value) (capacity : BitVec 64) : Option (Map Key Value) :=
  (List.range (numShards c)).foldlM (reserveOne c (capacity >>> c.shardBits.val)) m

/-- The bucket that any key gets in any segment exists. -/
def Map.InRange (c : Config Key) (m : Map Key Value) : Prop :=
  ∀ i s, m.segments i = some s → ∀ k, bucketId c s.bucketCount k < s.bucketCount.toNat

section Rehash

variable {c : Config Key} {s s' : SegmentT Key Value} {count : BitVec 64} {f : Key → Option Value}

theorem rehash_isSome : (s.rehash c count).isSome ↔ count.toNat < 2 ^ 31 := by
  rw [SegmentT.rehash, Option.isSome_map, rehashStores, Option.isSome_map]
  exact make_isSome

theorem rehash_bucketCount (h : s.rehash c count = some s') : s'.bucketCount = count := by
  obtain ⟨grow, hg, rfl⟩ := Option.map_eq_some_iff.1 h
  obtain ⟨bl, rfl, -, rfl⟩ := rehashStores_eq hg
  rw [applyAll_append, fillStores, applyAll_append]
  have hb := bucketCount_applyAll (l := s.listCount)
    (s := s.applyAll [.setThreshold (c.threshold bl.bucketCount), .newList bl]) (Nat.lt_succ_self _)
    (copyStores c s.listCount (s.applyAll [.setThreshold (c.threshold bl.bucketCount), .newList bl]) s.sources)
  refine Eq.trans hb ?_
  simp [applyAll, SegmentT.apply]

variable [DecidableEq Key]

theorem Represents.rehash (h : Represents c s f) (hs : s.rehash c count = some s') (hpos : 0 < count.toNat) :
    Represents c s' f := by
  obtain ⟨grow, hg, rfl⟩ := Option.map_eq_some_iff.1 hs
  obtain ⟨V, W, hh⟩ := h.holds
  obtain ⟨V', W', -, hh', -⟩ := rehashStores_safe hh hg hpos
  obtain ⟨K, hK, hsize⟩ := h.sized
  refine ⟨⟨V', W', hh'⟩, K, hK, ?_⟩
  rw [← hsize]
  obtain ⟨bl, -, -, rfl⟩ := rehashStores_eq hg
  exact size_applyAll (by simp [fillStores, setSize_notMem_copyStores])

omit [DecidableEq Key] in
theorem Represents.bucketCount_pos (h : Represents c s f) : 0 < s.bucketCount.toNat := by
  obtain ⟨V, W, hh⟩ := h.holds
  obtain ⟨ch, hc⟩ := hh.chains
  exact hc.pos

end Rehash

section Reserve

variable [DecidableEq Key] {c : Config Key} {m m' : Map Key Value} {count : BitVec 64}
  {F : Finmap fun _ : Key => Value}

theorem Refines.reserveOne {i : Nat} (h : Refines c m F) (hm : m.reserveOne c count i = some m')
    (hpos : m.segments i ≠ none → 0 < count.toNat) : Refines c m' F := by
  rw [Map.reserveOne] at hm
  split at hm
  · cases hm
    exact h
  · rename_i s hs
    obtain ⟨s', hs', rfl⟩ := Option.map_eq_some_iff.1 hm
    exact h.setSegment ((h.share i s hs).rehash hs' (hpos (by simp [hs]))) (fun _ _ => rfl)

omit [DecidableEq Key] in
theorem reserveOne_segments {i : Nat} (hm : m.reserveOne c count i = some m') (j : Nat) :
    m'.segments j = m.segments j ∨ j = i ∧ ∃ s, m.segments i ≠ none ∧ m'.segments i = some s ∧
      s.bucketCount = count := by
  rw [Map.reserveOne] at hm
  split at hm
  · cases hm
    exact .inl rfl
  · rename_i s hs
    obtain ⟨s', hs', rfl⟩ := Option.map_eq_some_iff.1 hm
    by_cases hj : j = i
    · subst hj
      exact .inr ⟨rfl, s', by simp [hs], by simp [Map.setSegment], rehash_bucketCount hs'⟩
    · exact .inl (by simp [Map.setSegment, hj])

/-- The loop over the segments `is`. -/
theorem Refines.reserve_loop {is : List Nat} (h : Refines c m F)
    (hc : (∃ i ∈ is, m.segments i ≠ none) → 0 < count.toNat ∧ count.toNat < 2 ^ 31) :
    ∃ m', is.foldlM (Map.reserveOne c count) m = some m' ∧ Refines c m' F := by
  induction is generalizing m with
  | nil => exact ⟨m, rfl, h⟩
  | cons i is ih =>
    have hone : (m.reserveOne c count i).isSome := by
      rw [Map.reserveOne]
      split
      · rfl
      · rename_i s hs
        rw [Option.isSome_map, rehash_isSome]
        exact (hc ⟨i, List.mem_cons_self, by simp [hs]⟩).2
    obtain ⟨m₁, hm⟩ := Option.isSome_iff_exists.1 hone
    have h₁ := h.reserveOne hm (fun hs => (hc ⟨i, List.mem_cons_self, hs⟩).1)
    obtain ⟨m', hm', hr⟩ := ih h₁ (by
      rintro ⟨j, hj, hs⟩
      obtain he | ⟨rfl, s, hs', -⟩ := reserveOne_segments hm j
      · exact hc ⟨j, List.mem_cons_of_mem _ hj, he ▸ hs⟩
      · exact hc ⟨j, List.mem_cons_self, hs'⟩)
    refine ⟨m', ?_, hr⟩
    rw [List.foldlM_cons, hm]
    exact hm'

omit [DecidableEq Key] in
/-- A segment that has the new bucket count keeps it. -/
theorem reserve_loop_keeps {is : List Nat} {j : Nat} (hm : is.foldlM (Map.reserveOne c count) m = some m')
    (hj : ∃ s, m.segments j = some s ∧ s.bucketCount = count) :
    ∃ s, m'.segments j = some s ∧ s.bucketCount = count := by
  induction is generalizing m with
  | nil =>
    cases hm
    exact hj
  | cons i is ih =>
    rw [List.foldlM_cons] at hm
    obtain ⟨m₁, hone, hm⟩ := Option.bind_eq_some_iff.1 hm
    refine ih hm ?_
    obtain he | ⟨rfl, s, -, hs, hb⟩ := reserveOne_segments hone j
    · rwa [he]
    · exact ⟨s, hs, hb⟩

omit [DecidableEq Key] in
theorem reserve_loop_count {is : List Nat} (hm : is.foldlM (Map.reserveOne c count) m = some m')
    (hs : ∃ i ∈ is, m.segments i ≠ none) :
    count.toNat < 2 ^ 31 ∧ ∃ i s, m'.segments i = some s ∧ s.bucketCount = count := by
  induction is generalizing m with
  | nil =>
    obtain ⟨i, hi, -⟩ := hs
    cases hi
  | cons i is ih =>
    rw [List.foldlM_cons] at hm
    obtain ⟨m₁, hone, hrest⟩ := Option.bind_eq_some_iff.1 hm
    cases hsi : m.segments i with
    | some s =>
      have hone' := hone
      rw [Map.reserveOne, hsi] at hone'
      obtain ⟨s', hs', rfl⟩ := Option.map_eq_some_iff.1 hone'
      refine ⟨rehash_isSome.1 (by rw [hs']; rfl), i, ?_⟩
      exact reserve_loop_keeps hrest ⟨s', by simp [Map.setSegment], rehash_bucketCount hs'⟩
    | none =>
      have he : m₁ = m := by
        rw [Map.reserveOne, hsi] at hone
        cases hone
        rfl
      subst he
      obtain ⟨j, hj, hsj⟩ := hs
      obtain rfl | hj := List.mem_cons.1 hj
      · exact absurd hsi hsj
      · exact ih hrest ⟨j, hj, hsj⟩

end Reserve

section Calls

inductive Call (Key Value : Type) where
  | op (o : Op Key Value)
  | reserve (capacity : BitVec 64)

variable [DecidableEq Key]

/-- `reserve` leaves the finite map as it is. -/
def Call.replay (F : Finmap fun _ : Key => Value) : Call Key Value → Finmap fun _ : Key => Value
  | .op o => o.replay F
  | .reserve _ => F

/-- A `reserve` fits if there is no segment yet, or if it gives each segment at
least one bucket and fewer than `2 ^ 31`. -/
def Call.fits (c : Config Key) (m : Map Key Value) : Call Key Value → Prop
  | .op o => o.fits c m
  | .reserve capacity => (∃ i < Map.numShards c, m.segments i ≠ none) →
      0 < (capacity >>> c.shardBits.val).toNat ∧ (capacity >>> c.shardBits.val).toNat < 2 ^ 31

/-- The map answers as `F` does, and every bucket index is in range. -/
structure Map.Answers (c : Config Key) (m : Map Key Value) (F : Finmap fun _ : Key => Value) : Prop where
  inRange : m.InRange c
  find : ∀ k, m.find c k = F.lookup k
  size : m.size c = F.keys.card

variable [Inhabited Key] [Inhabited Value]

def Map.call (c : Config Key) (m : Map Key Value) : Call Key Value → Option (Map Key Value)
  | .op o => m.step c o
  | .reserve capacity => m.reserve c capacity

/-- The map answers as `F` does, and does so through the calls. -/
def Map.Keeps (c : Config Key) : Map Key Value → (Finmap fun _ : Key => Value) → List (Call Key Value) → Prop
  | m, F, [] => m.Answers c F
  | m, F, call :: calls => m.Answers c F ∧ ∃ m', m.call c call = some m' ∧ Keeps c m' (call.replay F) calls

/-- Every call fits in the state that it finds. -/
def FitsCalls (c : Config Key) (m : Map Key Value) : List (Call Key Value) → Prop
  | [] => True
  | call :: calls => call.fits c m ∧ ∀ m', m.call c call = some m' → FitsCalls c m' calls

variable {c : Config Key} {m m' : Map Key Value} {F : Finmap fun _ : Key => Value} {o : Call Key Value}

omit [Inhabited Key] [Inhabited Value] in
theorem Refines.answers (h : Refines c m F) : m.Answers c F :=
  ⟨fun i s hs k => bucketId_lt c (h.share i s hs).bucketCount_pos k, h.find_eq, h.size_eq⟩

theorem Refines.call (h : Refines c m F) (hf : o.fits c m) :
    ∃ m', m.call c o = some m' ∧ Refines c m' (o.replay F) := by
  cases o with
  | op o =>
    obtain ⟨m', hm⟩ := Option.isSome_iff_exists.1 (step_isSome_iff_fits.2 hf)
    exact ⟨m', hm, h.step hm⟩
  | reserve capacity =>
    exact h.reserve_loop (fun ⟨i, hi, hs⟩ => hf ⟨i, List.mem_range.1 hi, hs⟩)

theorem fits_of_inRange (h : m.call c o = some m') (ha : m'.InRange c) : o.fits c m := by
  cases o with
  | op o => exact step_isSome_iff_fits.1 (Option.isSome_iff_exists.2 ⟨m', h⟩)
  | reserve capacity =>
    rintro ⟨i, hi, hs⟩
    obtain ⟨hlt, j, s, hj, hb⟩ := reserve_loop_count h ⟨i, List.mem_range.2 hi, hs⟩
    refine ⟨?_, hlt⟩
    have hh := ha j s hj default
    rw [hb] at hh
    omega

theorem keeps_iff_fitsCalls {calls : List (Call Key Value)} (h : Refines c m F) :
    m.Keeps c F calls ↔ FitsCalls c m calls := by
  induction calls generalizing m F with
  | nil => exact iff_of_true h.answers trivial
  | cons call calls ih =>
    have hhead : ∀ {m' F'}, Map.Keeps c m' F' calls → m'.InRange c := by
      intro m' F' hk
      cases calls with
      | nil => exact hk.inRange
      | cons _ _ => exact hk.1.inRange
    constructor
    · rintro ⟨-, m', hm, hk⟩
      have hf := fits_of_inRange hm (hhead hk)
      obtain ⟨m₁, hm₁, hr⟩ := h.call hf
      refine ⟨hf, fun m₂ hm₂ => ?_⟩
      rw [hm₁] at hm hm₂
      cases hm
      cases hm₂
      exact (ih hr).1 hk
    · rintro ⟨hf, hrest⟩
      obtain ⟨m₁, hm₁, hr⟩ := h.call hf
      exact ⟨h.answers, m₁, hm₁, (ih hr).2 (hrest m₁ hm₁)⟩

/-- Sequences of calls with `reserve` among them, on a fresh map. -/
theorem reserve_keeps_map (c : Config Key) {cap : BitVec 64} (hcap : cap.toNat ≤ 2 ^ 63)
    (calls : List (Call Key Value)) :
    (Map.make cap).Keeps c ∅ calls ↔ FitsCalls c (Map.make cap) calls :=
  keeps_iff_fitsCalls (Refines.make hcap)

end Calls

/-- Room for twenty entries, then an entry. -/
theorem reserve_keeps_map_twenty : ((8 : BitVec 64).toNat ≤ 2 ^ 63) ∧
    (Map.make 8 : Map String Nat).Keeps (oneShard String) ∅
      [.op (.insert "a" 1), .reserve 20, .op (.erase "a")] := by
  refine ⟨by decide, (reserve_keeps_map (oneShard String) (by decide) _).2 ?_⟩
  refine ⟨⟨by decide, by decide⟩, fun m _ => ⟨fun _ => by decide, fun m' _ => ⟨trivial, fun _ _ => trivial⟩⟩⟩

/-- `reserve(0)` leaves a bucket list without buckets. -/
theorem reserve_zero_fails : ¬ (Map.make 8 : Map String Nat).Keeps (oneShard String) ∅
    [.op (.insert "a" 1), .reserve 0] := by
  rintro ⟨-, m, hm, -, m', hm', hk⟩
  cases hm
  cases hm'
  have hh := hk.inRange 0 _ rfl "a"
  revert hh
  decide

end Wizard.HashMap
