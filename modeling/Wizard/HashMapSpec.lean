import Wizard.HashMapSections
import Mathlib.Data.BitVec
import Mathlib.Data.Finmap
import Mathlib.Algebra.BigOperators.Group.Finset.Basic

/-! Sequential runs of the hash map against a finite map. -/

namespace Wizard.HashMap

open SegmentT

variable {Key Value : Type}

section Sizes

variable {c : Config Key} {s : SegmentT Key Value} {q : List (Store Key Value)} {l : Nat}

theorem size_applyAll (hq : ∀ n, .setSize n ∉ q) : (s.applyAll q).size = s.size := by
  induction q generalizing s with
  | nil => rfl
  | cons st q ih =>
    have hst : (s.apply st).size = s.size := by
      cases st with
      | setSize n => exact absurd List.mem_cons_self (hq n)
      | write loc p => exact size_write s loc p
      | _ => rfl
    exact (ih (fun n hn => hq n (List.mem_cons_of_mem _ hn))).trans hst

theorem setSize_notMem_copyStores (ps : List Nat) (n : Nat) : .setSize n ∉ copyStores c l s ps := by
  induction ps generalizing s with
  | nil => simp [copyStores]
  | cons p ps ih => simp [copyStores, copyOne, ih]

theorem setSize_notMem_growStores {grow : List (Store Key Value)} (hg : growStores c s = some grow)
    (n : Nat) : .setSize n ∉ grow := by
  rw [growStores] at hg
  split at hg
  · obtain ⟨bl, -, -, rfl⟩ := rehashStores_eq hg
    simp [fillStores, setSize_notMem_copyStores]
  · cases hg
    simp

theorem setSize_notMem_acquireStores (o : Option Nat) (n : Nat) :
    (.setSize n : Store Key Value) ∉ acquireStores o := by
  cases o <;> simp [acquireStores]

variable [DecidableEq Key] {V W : Set Nat} {f : Key → Option Value} {k : Key}

theorem size_linkStores (h : Holds c s V W f) (new : Nat) :
    (s.applyAll (linkStores c s k new).1).size = if f k = none then s.size + 1 else s.size := by
  obtain ⟨ch, hc⟩ := h.chains
  obtain ⟨hs, hf⟩ | ⟨b, pre, n, post, hch, hkn, hf, hs⟩ := h.search_cases hc k
  · simp only [linkStores, hs, if_pos hf]
    exact size_applyAll (s := s.apply (.setSize (s.size + 1)))
      (q := [.write (.next new) _, .write _ (some new)]) (by simp)
  · simp only [linkStores, hs, if_neg hf]
    exact size_applyAll (by simp [setSize_notMem_acquireStores])

theorem size_eraseSection (h : Holds c s V W f) :
    (s.applyAll (eraseSection c s k).1).size = if f k = none then s.size else s.size - 1 := by
  obtain ⟨ch, hc⟩ := h.chains
  obtain ⟨hs, hf⟩ | ⟨b, pre, n, post, hch, hkn, hf, hs⟩ := h.search_cases hc k
  · simp [eraseSection, hs, hf, applyAll]
  · simp only [eraseSection, hs, if_neg hf]
    exact size_applyAll (s := s.apply (.setSize (s.size - 1))) (by simp [setSize_notMem_acquireStores])

end Sizes

/-- The segment holds `f`, and counts its keys. -/
structure Represents (c : Config Key) (s : SegmentT Key Value) (f : Key → Option Value) : Prop where
  holds : ∃ V W, Holds c s V W f
  sized : ∃ K : Finset Key, (∀ k, k ∈ K ↔ f k ≠ none) ∧ s.size = K.card

namespace Represents

variable [DecidableEq Key] {c : Config Key} {s s' : SegmentT Key Value} {f : Key → Option Value}
  {k : Key} {v : Value}

theorem find_eq (h : Represents c s f) (k : Key) : s.find c k = f k := by
  obtain ⟨V, W, hh⟩ := h.holds
  exact hh.find_eq k

omit [DecidableEq Key] in
theorem release (h : Represents c s f) (n : Nat) : Represents c (s.release n) f := by
  obtain ⟨V, W, hh⟩ := h.holds
  obtain ⟨ch, hc⟩ := hh.chains
  have ha : Agree s (s.release n) V := by
    intro m _
    by_cases hm : m = n <;> simp [SegmentT.release, next, key, value, hm]
  exact ⟨⟨V, W, hh.nodes, hh.lists, hh.current, ch, hc.congr ha rfl subset_rfl⟩, h.sized⟩

omit [DecidableEq Key] in
theorem perform {sec : List (Store Key Value) × Option Nat} (h : Represents c (s.applyAll sec.1) f) :
    Represents c (s.perform sec) f := by
  rw [SegmentT.perform]
  split
  · exact h
  · exact h.release _

theorem insert (h : Represents c s f) (hs : s.insert c k v = some s') :
    Represents c s' (Function.update f k (some v)) := by
  obtain ⟨sec, hsec, rfl⟩ := Option.map_eq_some_iff.1 hs
  obtain ⟨V, W, hh⟩ := h.holds
  obtain ⟨K, hK, hsize⟩ := h.sized
  refine perform ⟨(insertSection_safe hh hsec).holds_end, Insert.insert k K, fun k' => ?_, ?_⟩
  · by_cases hk : k' = k
    · simp [hk]
    · simp [hk, hK]
  · obtain ⟨grow, hg, rfl⟩ := Option.map_eq_some_iff.1 hsec
    have hnew : Private V W (.newNode k v : Store Key Value) := trivial
    obtain ⟨V', W', -, h₂, -⟩ := growStores_safe (hh.apply hnew) hg
    have hgrow := size_applyAll (s := s.apply (.newNode k v)) (setSize_notMem_growStores hg)
    have hlink := size_linkStores (k := k) h₂ s.nodeCount
    rw [hgrow] at hlink
    refine ((congrArg SegmentT.size (applyAll_append (.newNode k v :: grow) _)).trans hlink).trans ?_
    change (if f k = none then s.size + 1 else s.size) = _
    split
    · rename_i hf
      rw [Finset.card_insert_of_notMem (by simp [hK, hf]), hsize]
    · rename_i hf
      rw [Finset.insert_eq_of_mem ((hK k).2 hf), hsize]

theorem erase (h : Represents c s f) (k : Key) :
    Represents c (s.erase c k) (Function.update f k none) := by
  obtain ⟨V, W, hh⟩ := h.holds
  obtain ⟨K, hK, hsize⟩ := h.sized
  refine perform ⟨(eraseSection_safe hh k).holds_end, K.erase k, fun k' => ?_, ?_⟩
  · by_cases hk : k' = k
    · simp [hk]
    · simp [hk, hK]
  · rw [size_eraseSection hh]
    split
    · rename_i hf
      rw [Finset.erase_eq_of_notMem (by simp [hK, hf]), hsize]
    · rename_i hf
      rw [Finset.card_erase_of_mem ((hK k).2 hf), hsize]

omit [DecidableEq Key] in
theorem of_empty (hpos : 0 < s.bucketCount.toNat) (hlt : s.bucketList < s.listCount)
    (hhead : ∀ b, s.read (.head s.bucketList b) = none) (hsize : s.size = 0) :
    Represents c s (fun _ => none) := by
  have hc : Chains c s s.bucketList ∅ (fun _ => []) (fun _ => none) :=
    ⟨hpos, hhead, by simp, by simp, by simp, by simp⟩
  exact ⟨⟨∅, {l | l < s.listCount}, by simp, fun l hl => hl, hlt, _, hc⟩, ∅, by simp, hsize⟩

omit [DecidableEq Key] in
theorem clear (h : Represents c s f) : Represents c s.clear (fun _ => none) := by
  obtain ⟨V, W, hh⟩ := h.holds
  obtain ⟨ch, hc⟩ := hh.chains
  have hpos : 0 < s.bucketCount.toNat := hc.pos
  refine of_empty ?_ ?_ (fun b => ?_) rfl
  · simpa [SegmentT.clear, clearStores, applyAll, SegmentT.apply, SegmentT.bucketCount] using hpos
  · simp [SegmentT.clear, clearStores, applyAll, SegmentT.apply]
  · simp [SegmentT.clear, clearStores, applyAll, SegmentT.apply, SegmentT.read]

omit [DecidableEq Key] in
theorem make [Inhabited Key] [Inhabited Value] {count : BitVec 64} (hcount : count.toNat ≤ 2 ^ 63)
    (hs : SegmentT.make c count = some s) : Represents c s (fun _ => none) := by
  obtain ⟨bl, hbl, rfl⟩ := Option.map_eq_some_iff.1 hs
  obtain ⟨j, -, hj⟩ := nextPowTwo_toNat hcount
  rw [BucketList.make] at hbl
  split at hbl
  · cases hbl
    refine of_empty ?_ Nat.one_pos (fun b => rfl) rfl
    change 0 < (nextPowTwo count).toNat
    rw [hj]
    exact Nat.two_pow_pos j
  · cases hbl

end Represents

inductive Op (Key Value : Type) where
  | insert (k : Key) (v : Value)
  | emplace (k : Key) (v : Value)
  | erase (k : Key)
  | clear

variable [DecidableEq Key]

/-- The finite map that a call leaves. -/
def Op.replay (F : Finmap fun _ : Key => Value) : Op Key Value → Finmap fun _ : Key => Value
  | .insert k v => F.insert k v
  | .emplace k v => F.insert k v
  | .erase k => F.erase k
  | .clear => ∅

def replay (ops : List (Op Key Value)) : Finmap fun _ : Key => Value := ops.foldl Op.replay ∅

namespace Map

variable [Inhabited Key] [Inhabited Value]

def step (c : Config Key) (m : Map Key Value) : Op Key Value → Option (Map Key Value)
  | .insert k v => m.insert c k v
  | .emplace k v => m.emplace c k v
  | .erase k => some (m.erase c k)
  | .clear => some (m.clear c)

def run (c : Config Key) (m : Map Key Value) (ops : List (Op Key Value)) : Option (Map Key Value) :=
  ops.foldlM (step c) m

end Map

/-- No bucket list of `2 ^ 31` buckets has to be built to insert `k`: the
segment is there and not at its threshold with `2 ^ 30` buckets or more, or it
can be made. -/
def Map.fitsInsert (c : Config Key) (m : Map Key Value) (k : Key) : Prop :=
  match m.segments (pickSegment c k) with
  | some s => s.threshold ≤ s.size → s.bucketCount.toNat < 2 ^ 30
  | none =>
    let count := nextPowTwo (m.initCapacity >>> c.shardBits.val)
    count.toNat < 2 ^ 31 ∧ (c.threshold count = 0 → count.toNat < 2 ^ 30)

def Op.fits (c : Config Key) (m : Map Key Value) : Op Key Value → Prop
  | .insert k _ => m.fitsInsert c k
  | .emplace k _ => m.fitsInsert c k
  | .erase _ => True
  | .clear => True

section Runs

variable [Inhabited Key] [Inhabited Value]

/-- Every call fits in the state that it finds. -/
def Fits (c : Config Key) (m : Map Key Value) : List (Op Key Value) → Prop
  | [] => True
  | op :: ops => op.fits c m ∧ ∀ m', m.step c op = some m' → Fits c m' ops

end Runs

/-- Every segment holds its share of `F`. -/
structure Refines (c : Config Key) (m : Map Key Value) (F : Finmap fun _ : Key => Value) : Prop where
  capacity : m.initCapacity.toNat ≤ 2 ^ 63
  share : ∀ i s, m.segments i = some s →
    Represents c s (fun k => if Map.pickSegment c k = i then F.lookup k else none)
  rest : ∀ k, m.segments (Map.pickSegment c k) = none → F.lookup k = none

omit [DecidableEq Key] in
theorem pickSegment_lt (c : Config Key) (k : Key) : Map.pickSegment c k < Map.numShards c := by
  have hsb := c.shardBits.isLt
  have hle : Map.numShards c ≤ 2 ^ 30 := Nat.pow_le_pow_right (by omega) (by omega)
  have hpos : 0 < Map.numShards c := Nat.two_pow_pos _
  have h1 : (BitVec.ofNat 64 (Map.numShards c)).toNat = Map.numShards c := by
    rw [BitVec.toNat_ofNat, Nat.mod_eq_of_lt (by omega)]
  have hm : (BitVec.ofNat 64 (Map.numShards c) - 1).toNat = Map.numShards c - 1 := by
    rw [BitVec.toNat_sub_of_le (by bv_omega), h1]
    rfl
  have hand : Map.pickSegment c k ≤ Map.numShards c - 1 := by
    rw [Map.pickSegment, BitVec.toNat_and, ← hm]
    exact Nat.and_le_right
  omega

namespace Refines

variable {c : Config Key} {m m' : Map Key Value} {F : Finmap fun _ : Key => Value} {k : Key} {v : Value}

theorem find_eq (h : Refines c m F) (k : Key) : m.find c k = F.lookup k := by
  rw [Map.find]
  split
  · rename_i hs
    exact (h.rest k hs).symm
  · rename_i s hs
    rw [(h.share _ s hs).find_eq, if_pos rfl]

theorem size_eq (h : Refines c m F) : m.size c = F.keys.card := by
  have hsum : m.size c = ∑ i ∈ Finset.range (Map.numShards c), ((m.segments i).map SegmentT.size).getD 0 :=
    rfl
  rw [hsum, Finset.card_eq_sum_card_fiberwise (f := Map.pickSegment c) (t := Finset.range (Map.numShards c))]
  · refine Finset.sum_congr rfl (fun i _ => ?_)
    cases hs : m.segments i with
    | none =>
      symm
      rw [Option.map_none, Option.getD_none, Finset.card_eq_zero, Finset.filter_eq_empty_iff]
      rintro k hk rfl
      have hl := h.rest k hs
      rw [Finmap.lookup_eq_none] at hl
      exact hl (Finmap.mem_keys.1 hk)
    | some s =>
      obtain ⟨K, hK, hsize⟩ := (h.share i s hs).sized
      rw [Option.map_some, Option.getD_some, hsize]
      congr 1
      ext k
      rw [hK, Finset.mem_filter, Finmap.mem_keys]
      by_cases hi : Map.pickSegment c k = i
      · simp [hi, Finmap.lookup_eq_none]
      · simp [hi]
  · intro k _
    simpa using pickSegment_lt c k

theorem setSegment {F' : Finmap fun _ : Key => Value} {s : SegmentT Key Value} {i : Nat}
    (h : Refines c m F)
    (hs : Represents c s (fun k => if Map.pickSegment c k = i then F'.lookup k else none))
    (hF : ∀ k, Map.pickSegment c k ≠ i → F'.lookup k = F.lookup k) :
    Refines c (m.setSegment i s) F' := by
  refine ⟨h.capacity, fun j t hj => ?_, fun k hk => ?_⟩
  · by_cases hij : j = i
    · subst hij
      have hst : s = t := by simpa [Map.setSegment] using hj
      exact hst ▸ hs
    · have hj' : m.segments j = some t := by simpa [Map.setSegment, hij] using hj
      have he : (fun k => if Map.pickSegment c k = j then F'.lookup k else none) =
          fun k => if Map.pickSegment c k = j then F.lookup k else none := by
        funext k
        split
        · rename_i hk
          exact hF k (hk ▸ hij)
        · rfl
      exact he ▸ h.share j t hj'
  · by_cases hij : Map.pickSegment c k = i
    · simp [Map.setSegment, hij] at hk
    · have hk' : m.segments (Map.pickSegment c k) = none := by simpa [Map.setSegment, hij] using hk
      rw [hF k hij, h.rest k hk']

theorem erase (h : Refines c m F) (k : Key) : Refines c (m.erase c k) (F.erase k) := by
  have hF : ∀ k', k' ≠ k → (F.erase k).lookup k' = F.lookup k' := fun k' hk => Finmap.lookup_erase_ne hk
  rw [Map.erase]
  split
  · rename_i hs
    have he : F.erase k = F := by
      refine Finmap.ext_lookup (fun k' => ?_)
      by_cases hk : k' = k
      · rw [hk, Finmap.lookup_erase, h.rest k hs]
      · exact hF k' hk
    rwa [he]
  · rename_i s hs
    refine h.setSegment ?_ (fun k' hk => hF k' (fun he => hk (by rw [he])))
    convert (h.share _ s hs).erase k using 1
    funext k'
    by_cases hk : k' = k
    · subst hk
      simp
    · rw [Function.update_of_ne hk, hF k' hk]

theorem clear (h : Refines c m F) : Refines c (m.clear c) ∅ := by
  refine ⟨h.capacity, fun i s hs => ?_, fun k _ => Finmap.lookup_empty k⟩
  have he : (fun k => if Map.pickSegment c k = i then (∅ : Finmap fun _ : Key => Value).lookup k
      else none) = fun _ => none := by
    funext k
    simp
  rw [he]
  by_cases hi : i < Map.numShards c
  · have hs' : (m.segments i).map SegmentT.clear = some s := by simpa [Map.clear, hi] using hs
    obtain ⟨t, ht, rfl⟩ := Option.map_eq_some_iff.1 hs'
    exact (h.share i t ht).clear
  · have hs' : m.segments i = some s := by simpa [Map.clear, hi] using hs
    convert h.share i s hs' using 1
    funext k
    rw [if_neg (fun (hk : Map.pickSegment c k = i) => hi (hk ▸ pickSegment_lt c k))]

variable [Inhabited Key] [Inhabited Value]

theorem ensureSegment {i : Nat} {s : SegmentT Key Value} (h : Refines c m F)
    (hs : m.ensureSegment c i = some s) :
    Represents c s (fun k => if Map.pickSegment c k = i then F.lookup k else none) := by
  rw [Map.ensureSegment] at hs
  split at hs
  · rename_i t ht
    cases hs
    exact h.share i _ ht
  · rename_i ht
    have hle : (m.initCapacity >>> c.shardBits.val).toNat ≤ 2 ^ 63 := by
      rw [BitVec.toNat_ushiftRight]
      exact (Nat.shiftRight_le _ _).trans h.capacity
    convert Represents.make hle hs using 1
    funext k
    split
    · rename_i hk
      exact h.rest k (hk ▸ ht)
    · rfl

theorem insert (h : Refines c m F) (hm : m.insert c k v = some m') : Refines c m' (F.insert k v) := by
  obtain ⟨s, hs, hm⟩ := Option.bind_eq_some_iff.1 hm
  obtain ⟨s', hs', hm⟩ := Option.bind_eq_some_iff.1 hm
  cases hm
  have hF : ∀ k', k' ≠ k → (F.insert k v).lookup k' = F.lookup k' :=
    fun k' hk => Finmap.lookup_insert_of_ne F hk
  refine h.setSegment ?_ (fun k' hk => hF k' (fun he => hk (by rw [he])))
  convert (h.ensureSegment hs).insert hs' using 1
  funext k'
  by_cases hk : k' = k
  · subst hk
    simp
  · rw [Function.update_of_ne hk, hF k' hk]

theorem step {op : Op Key Value} (h : Refines c m F) (hm : m.step c op = some m') :
    Refines c m' (op.replay F) := by
  cases op with
  | insert k v => exact h.insert hm
  | emplace k v => exact h.insert hm
  | erase k =>
    cases hm
    exact h.erase k
  | clear =>
    cases hm
    exact h.clear

end Refines

section Fits

variable {c : Config Key} {m : Map Key Value} {F : Finmap fun _ : Key => Value} {k : Key} {v : Value}

theorem make_isSome {count : BitVec 64} : (BucketList.make count).isSome ↔ count.toNat < 2 ^ 31 := by
  rw [BucketList.make]
  split
  · rename_i h
    exact iff_of_true rfl h
  · rename_i h
    exact iff_of_false (by simp) h

theorem insert_isSome {s : SegmentT Key Value} :
    (s.insert c k v).isSome ↔ (s.threshold ≤ s.size → s.bucketCount.toNat < 2 ^ 30) := by
  have hsmall : s.bucketCount.toNat < 2 ^ 31 := (s.list s.bucketList).small
  have hshift : (s.bucketCount <<< 1).toNat < 2 ^ 31 ↔ s.bucketCount.toNat < 2 ^ 30 := by
    rw [BitVec.toNat_shiftLeft, Nat.shiftLeft_eq]
    omega
  have hgrow : (s.insert c k v).isSome = (growStores c (s.apply (.newNode k v))).isSome := by
    simp [SegmentT.insert, insertSection]
  rw [hgrow, growStores]
  change (if s.threshold ≤ s.size then rehashStores c _ (s.bucketCount <<< 1) else some []).isSome ↔ _
  by_cases hle : s.threshold ≤ s.size
  · rw [if_pos hle, rehashStores, Option.isSome_map, make_isSome, hshift]
    simp [hle]
  · simp [hle]

variable [Inhabited Key] [Inhabited Value]

theorem insert_isSome_iff_fits : (m.insert c k v).isSome ↔ m.fitsInsert c k := by
  have hbind : (m.insert c k v).isSome ↔
      ∃ s, m.ensureSegment c (Map.pickSegment c k) = some s ∧ (s.insert c k v).isSome := by
    cases hs : m.ensureSegment c (Map.pickSegment c k) with
    | none => simp [Map.insert, hs]
    | some s => cases hi : s.insert c k v <;> simp [Map.insert, hs, hi]
  rw [hbind, Map.fitsInsert, Map.ensureSegment]
  cases hs : m.segments (Map.pickSegment c k) with
  | some s => simp [insert_isSome]
  | none =>
    simp [SegmentT.make, BucketList.make, insert_isSome, SegmentT.bucketCount]

theorem step_isSome_iff_fits {op : Op Key Value} : (m.step c op).isSome ↔ op.fits c m := by
  cases op with
  | insert k v => exact insert_isSome_iff_fits
  | emplace k v => exact insert_isSome_iff_fits
  | erase k => simp [Map.step, Op.fits]
  | clear => simp [Map.step, Op.fits]

theorem Refines.run {ops : List (Op Key Value)} {m' : Map Key Value} (h : Refines c m F)
    (hr : m.run c ops = some m') : Refines c m' (ops.foldl Op.replay F) := by
  induction ops generalizing m F with
  | nil =>
    cases hr
    exact h
  | cons op ops ih =>
    obtain ⟨m₁, hm, hr⟩ := Option.bind_eq_some_iff.1 hr
    exact ih (h.step hm) hr

theorem run_isSome_iff_fits {ops : List (Op Key Value)} : (m.run c ops).isSome ↔ Fits c m ops := by
  induction ops generalizing m with
  | nil => simp [Map.run, Fits]
  | cons op ops ih =>
    rw [Fits, ← step_isSome_iff_fits, Map.run, List.foldlM_cons]
    cases hm : m.step c op with
    | none => simp
    | some m₁ => simpa [Map.run] using ih

omit [Inhabited Key] [Inhabited Value] in
theorem Refines.make {cap : BitVec 64} (hcap : cap.toNat ≤ 2 ^ 63) :
    Refines c (Map.make cap : Map Key Value) ∅ := by
  obtain ⟨j, hj, he⟩ := nextPowTwo_toNat hcap
  refine ⟨?_, fun i s hs => ?_, fun k _ => Finmap.lookup_empty k⟩
  · rw [Map.make, he]
    exact Nat.pow_le_pow_right (by omega) hj
  · cases hs

/-- Sequences of calls on a fresh map. -/
theorem run_refines_replay (c : Config Key) {cap : BitVec 64} (hcap : cap.toNat ≤ 2 ^ 63)
    (ops : List (Op Key Value)) :
    (∃ m, Map.run c (Map.make cap) ops = some m ∧ (∀ k, m.find c k = (replay ops).lookup k) ∧
      m.size c = (replay ops).keys.card) ↔ Fits c (Map.make cap) ops := by
  rw [← run_isSome_iff_fits]
  constructor
  · rintro ⟨m, hm, -⟩
    rw [hm]
    rfl
  · intro hr
    obtain ⟨m, hm⟩ := Option.isSome_iff_exists.1 hr
    have h := (Refines.make hcap).run hm
    exact ⟨m, hm, h.find_eq, h.size_eq⟩

end Fits

/-- One shard, a load factor of 1.05 and a hash that is the same for all keys. -/
def oneShard (Key : Type) : Config Key where
  hash _ := 2 ^ 31
  shardBits := 0
  threshold count := count.toNat * 21 / 20

theorem run_refines_replay_eight : ((8 : BitVec 64).toNat ≤ 2 ^ 63) ∧
    ∃ m, Map.run (oneShard String) (Map.make 8) [.insert "a" 1, .erase "a"] = some m ∧
      (∀ k, m.find (oneShard String) k =
        (replay [.insert "a" 1, .erase "a"] : Finmap fun _ : String => Nat).lookup k) ∧
      m.size (oneShard String) =
        (replay [.insert "a" 1, .erase "a"] : Finmap fun _ : String => Nat).keys.card := by
  refine ⟨by decide, (run_refines_replay (oneShard String) (by decide) _).2 ⟨?_, fun m' _ => ?_⟩⟩
  · exact ⟨by decide, by decide⟩
  · exact ⟨trivial, fun _ _ => trivial⟩

theorem run_two_pow_thirtyTwo_fails : ¬ ∃ m,
    Map.run (oneShard String) (Map.make (2 ^ 32)) [.insert "a" 1] = some m ∧
      (∀ k, m.find (oneShard String) k =
        (replay [.insert "a" 1] : Finmap fun _ : String => Nat).lookup k) ∧
      m.size (oneShard String) = (replay [.insert "a" 1] : Finmap fun _ : String => Nat).keys.card := by
  rintro ⟨m, hm, -⟩
  have hn : Map.run (oneShard String) (Map.make (2 ^ 32) : Map String Nat) [.insert "a" 1] = none := by
    rfl
  rw [hn] at hm
  cases hm

end Wizard.HashMap
