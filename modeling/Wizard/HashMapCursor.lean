import Wizard.HashMapReserve
import Wizard.HashMapTraversal

/-! The cursor of a segment without a writer. `cbegin` starts at the first bucket, `find` in the
middle of a chain, and from either `++` leads over the chains that follow. A segment may have no
bucket at all, since `rehash` takes any count, and then `cbegin` reads behind the array. -/

namespace Wizard.HashMap

open SegmentT

variable {Key Value : Type}

/-- `for (; it != cend(); ++it)` with the nodes it visits. -/
def SegIter.visits (s : SegmentT Key Value) : Nat → SegIter → Option (List Nat)
  | 0, it => if it.node = none then some [] else none
  | fuel + 1, it =>
    match it.node with
    | none => some []
    | some n => ((it.increment s n).visits s fuel).map (n :: ·)

/-- `cbegin` looks at the first bucket before it looks whether there is one. -/
def SegmentT.cbeginInRange (s : SegmentT Key Value) : Option SegIter :=
  if 0 < s.bucketCount.toNat then some s.cbegin else none

section Calls

variable [DecidableEq Key]

/-- The iterator that `find` fills; it stays as it is if the key is not found. -/
def SegmentT.findIter (c : Config Key) (s : SegmentT Key Value) (k : Key) : Option SegIter :=
  (findNode s k (s.read (headOf c s s.bucketList k)) s.nodeCount).map fun n =>
    ⟨s.bucketList, bucketId c s.bucketCount k, some n⟩

inductive SegOp (Key Value : Type) where
  | op (o : Op Key Value)
  | rehash (newBucketCnt : BitVec 64)
  | setLoadFactor (threshold : BitVec 64 → Nat)

def SegOp.config (c : Config Key) : SegOp Key Value → Config Key
  | .setLoadFactor threshold => { c with threshold := threshold }
  | _ => c

/-- What the calls leave stored. -/
def SegOp.replay (F : Finmap fun _ : Key => Value) : SegOp Key Value → Finmap fun _ : Key => Value
  | .op o => o.replay F
  | _ => F

/-- `insert_internal` has made room, and goes on to the bucket of the key. -/
def SegmentT.grow (c : Config Key) (s : SegmentT Key Value) (k : Key) (v : Value) : Option (SegmentT Key Value) :=
  (growStores c (s.apply (.newNode k v))).map (s.apply (.newNode k v)).applyAll

/-- The bucket of the key is in the array. -/
def SegmentT.InRange (c : Config Key) (s : SegmentT Key Value) (k : Key) : Prop :=
  bucketId c s.bucketCount k < s.bucketCount.toNat

instance (c : Config Key) (s : SegmentT Key Value) (k : Key) : Decidable (s.InRange c k) :=
  inferInstanceAs (Decidable (_ < _))

/-- A call has no result when it overflows a counter or leaves the array of buckets. -/
def SegmentT.call (c : Config Key) (s : SegmentT Key Value) : SegOp Key Value → Option (SegmentT Key Value)
  | .op (.insert k v) | .op (.emplace k v) =>
    (s.grow c k v).bind fun s' => if s'.InRange c k then s.insert c k v else none
  | .op (.erase k) => if s.InRange c k then some (s.erase c k) else none
  | .op .clear => some s.clear
  | .rehash count => if ∀ p ∈ s.sources, bucketId c count (s.key p) < count.toNat then s.rehash c count else none
  | .setLoadFactor threshold => some (s.apply (.setThreshold (threshold s.bucketCount)))

def SegmentT.calls : Config Key → SegmentT Key Value → List (SegOp Key Value) → Option (Config Key × SegmentT Key Value)
  | c, s, [] => some (c, s)
  | c, s, o :: ops => (s.call c o).bind fun s' => calls (o.config c) s' ops

/-- A segment from its constructor on; `nextPowTwo` has no result above `2 ^ 63`. -/
def SegmentT.run [Inhabited Key] [Inhabited Value] (c : Config Key) (bucketsCount : BitVec 64)
    (ops : List (SegOp Key Value)) : Option (Config Key × SegmentT Key Value) :=
  if bucketsCount.toNat ≤ 2 ^ 63 then (SegmentT.make c bucketsCount).bind fun s => s.calls c ops else none

/-- From either start the cursor visits what follows, and ends. -/
structure SegmentT.Traversed (c : Config Key) (s : SegmentT Key Value) (F : Finmap fun _ : Key => Value) : Prop where
  whole : ∃ it fuel, s.cbeginInRange = some it ∧ it.visits s fuel = some s.sources
  once : (s.entries.map Prod.fst).Nodup
  stored : ∀ k v, (k, v) ∈ s.entries ↔ F.lookup k = some v
  onward : ∀ k ∈ F, ∃ it n pre post fuel, s.findIter c k = some it ∧ it.node = some n ∧ s.key n = k ∧
    s.sources = pre ++ n :: post ∧ (it.increment s n).visits s fuel = some post

end Calls

section Cursor

variable {s : SegmentT Key Value} {ch : Nat → List Nat} {it : SegIter} {l : List Nat}

theorem Ahead.visits (hs : Walked s ch) {fuel : Nat} (hl : it.list = s.bucketList)
    (h : Ahead s s.bucketCount.toNat ch it l) (hend : it.node = none → l = []) (hfuel : l.length ≤ fuel) :
    it.visits s fuel = some l := by
  induction fuel generalizing it l with
  | zero =>
    obtain rfl := List.eq_nil_of_length_eq_zero (Nat.le_zero.1 hfuel)
    obtain ⟨rest, hrest, hnil⟩ := h
    obtain rfl := (List.append_eq_nil_iff.1 hnil.symm).1
    have hnone : it.node = none := hrest
    rw [SegIter.visits, if_pos hnone]
  | succ fuel ih =>
    cases hn : it.node with
    | none => rw [SegIter.visits, hn, hend hn]
    | some n =>
      obtain ⟨rest, rfl, hahead, hlist, hnext⟩ := h.increment hs hl hn
      have hrest : (it.increment s n).visits s fuel = some rest :=
        ih hlist hahead hnext (by simpa using hfuel)
      rw [SegIter.visits, hn]
      simp only [hrest, Option.map_some]

theorem Walked.visits (hs : Walked s ch) : s.cbegin.visits s s.sources.length = some s.sources := by
  obtain ⟨hahead, hlist, hend⟩ := hs.cbegin
  exact hahead.visits hs hlist hend le_rfl

/-- In the chain of a bucket, what follows a node is the rest of the chain and the chains after it. -/
theorem Walked.visits_from (hs : Walked s ch) {b n : Nat} {pre post : List Nat} (hb : b < s.bucketCount.toNat)
    (hch : ch b = pre ++ n :: post) :
    ∃ pre' post' fuel, s.sources = pre' ++ n :: post' ∧
      ((⟨s.bucketList, b, some n⟩ : SegIter).increment s n).visits s fuel = some post' := by
  obtain ⟨later, hlater⟩ : ∃ later, later = s.bucketCount.toNat - (b + 1) := ⟨_, rfl⟩
  have hsplit : s.sources = ((List.range b).flatMap ch ++ pre) ++
      n :: (post ++ (List.range' (b + 1) later).flatMap ch) := by
    rw [hs.sources, List.range_eq_range', show s.bucketCount.toNat = b + (later + 1) by omega,
      ← List.range'_append_1, List.flatMap_append, List.range'_succ, List.flatMap_cons, Nat.zero_add, hch,
      ← List.range_eq_range']
    simp
  obtain ⟨m, -, hsuffix⟩ := Segment.append_iff.1 (hch ▸ hs.linked b)
  obtain ⟨rfl, hpost⟩ := hsuffix
  have hahead : Ahead s s.bucketCount.toNat ch ⟨s.bucketList, b, some n⟩
      (n :: (post ++ (List.range' (b + 1) later).flatMap ch)) :=
    ⟨n :: post, ⟨rfl, hpost⟩, by rw [hlater]; rfl⟩
  obtain ⟨rest, hrest, hahead', hlist, hend⟩ := hahead.increment hs rfl rfl
  obtain rfl := (List.cons_eq_cons.1 hrest).2
  exact ⟨_, _, _, hsplit, hahead'.visits hs hlist hend le_rfl⟩

end Cursor

section Starts

variable [DecidableEq Key] {c : Config Key} {s : SegmentT Key Value} {F : Finmap fun _ : Key => Value}

theorem Represents.findIter (h : Represents c s F.lookup) {k : Key} (hk : k ∈ F) :
    ∃ it n pre post fuel, s.findIter c k = some it ∧ it.node = some n ∧ s.key n = k ∧ s.sources = pre ++ n :: post ∧
      (it.increment s n).visits s fuel = some post := by
  obtain ⟨V, W, hh⟩ := h.holds
  obtain ⟨ch, hc⟩ := hh.chains
  have hw : Walked s ch := ⟨hc.pos, hc.linked, List.flatMap_congr fun b _ =>
    (hc.linked b).walk_of_length_le (hh.length_le hc b)⟩
  have hfind := findNode_of_segment (k := k) (hc.linked (bucketId c s.bucketCount k)) (hh.length_le hc _)
  have hsome : F.lookup k ≠ none := by
    rw [Ne, Finmap.lookup_eq_none]
    exact not_not.2 hk
  obtain ⟨v, hv⟩ := Option.ne_none_iff_exists'.1 hsome
  obtain ⟨n, hmem, hkn, -⟩ := (hc.content k v).1 hv
  cases hf : (ch (bucketId c s.bucketCount k)).find? fun a => decide (s.key a = k) with
  | none => exact absurd hkn (by simpa using List.find?_eq_none.1 hf n hmem)
  | some n =>
    obtain ⟨hkn, pre, post, hch, -⟩ := List.find?_eq_some_iff_append.1 hf
    obtain ⟨pre', post', fuel, hsplit, hvisits⟩ := hw.visits_from (bucketId_lt c hc.pos k) hch
    refine ⟨⟨s.bucketList, bucketId c s.bucketCount k, some n⟩, n, pre', post', fuel, ?_, rfl, by simpa using hkn,
      hsplit, hvisits⟩
    have hnode : s.findNode k (s.read (headOf c s s.bucketList k)) s.nodeCount = some n := hfind.trans hf
    rw [SegmentT.findIter, hnode]
    rfl

theorem Represents.traversed (h : Represents c s F.lookup) : s.Traversed c F := by
  obtain ⟨ch, hw⟩ := h.walked
  refine ⟨⟨s.cbegin, _, ?_, hw.visits⟩, h.entries.1, h.entries.2, fun k hk => h.findIter hk⟩
  rw [SegmentT.cbeginInRange, if_pos hw.pos]

end Starts

/-- A segment without buckets, which `rehash` makes of one without entries. -/
structure SegmentT.Bare (s : SegmentT Key Value) : Prop where
  bucketCount : s.bucketCount.toNat = 0
  current : s.bucketList < s.listCount
  size : s.size = 0

/-- The segment holds `F`, if it can hold anything. -/
def SegmentT.Keeps [DecidableEq Key] (c : Config Key) (s : SegmentT Key Value)
    (F : Finmap fun _ : Key => Value) : Prop :=
  Represents c s F.lookup ∨ s.Bare ∧ ∀ k, F.lookup k = none

section Runs

variable {c : Config Key} {s s' : SegmentT Key Value} {f : Key → Option Value}

/-- What a segment holds does not depend on the load factor. -/
theorem Represents.setThreshold (h : Represents c s f) (threshold : BitVec 64 → Nat) (n : Nat) :
    Represents { c with threshold := threshold } (s.apply (.setThreshold n)) f := by
  obtain ⟨V, W, hh⟩ := h.holds
  obtain ⟨ch, hc⟩ := hh.chains
  exact ⟨⟨V, W, hh.nodes, hh.lists, hh.current, ch, hc.pos, hc.linked, hc.mem, hc.index, hc.nodup, hc.content⟩, h.sized⟩

theorem SegmentT.Bare.sources (h : s.Bare) : s.sources = [] := by
  rw [SegmentT.sources, h.bucketCount]
  rfl

variable {count : BitVec 64}

theorem rehash_of_sources (hs : s.rehash c count = some s') (hnone : s.sources = []) :
    s'.bucketCount = count ∧ s'.bucketList < s'.listCount ∧ (∀ b, s'.read (.head s'.bucketList b) = none) ∧
      s'.size = s.size := by
  obtain ⟨grow, hg, rfl⟩ := Option.map_eq_some_iff.1 hs
  obtain ⟨bl, rfl, hhead, rfl⟩ := rehashStores_eq hg
  rw [fillStores, hnone]
  refine ⟨?_, ?_, fun b => ?_, rfl⟩
  · simp [copyStores, applyAll, SegmentT.apply, SegmentT.bucketCount]
  · simp [copyStores, applyAll, SegmentT.apply]
  · simp [copyStores, applyAll, SegmentT.apply, SegmentT.read, hhead]

variable [DecidableEq Key] {F : Finmap fun _ : Key => Value}

theorem SegmentT.Bare.represents (h : s.Bare) (hF : ∀ k, F.lookup k = none) (hs : s.rehash c count = some s')
    (hpos : 0 < count.toNat) : Represents c s' F.lookup := by
  obtain ⟨hcount, hcur, hhead, hsize⟩ := rehash_of_sources hs h.sources
  rw [show F.lookup = fun _ => none from funext hF]
  exact .of_empty (by rwa [hcount]) hcur hhead (hsize.trans h.size)

theorem Represents.bare (h : Represents c s F.lookup) (hs : s.rehash c count = some s') (hnone : s.sources = [])
    (hzero : count.toNat = 0) : s'.Bare ∧ ∀ k, F.lookup k = none := by
  obtain ⟨hcount, hcur, -, hsize⟩ := rehash_of_sources hs hnone
  have hF : ∀ k, F.lookup k = none := by
    intro k
    by_contra hk
    obtain ⟨v, hv⟩ := Option.ne_none_iff_exists'.1 hk
    have hmem := (h.entries.2 k v).2 hv
    rw [SegmentT.entries, hnone] at hmem
    cases hmem
  obtain ⟨K, hK, hcard⟩ := h.sized
  have hempty : K = ∅ := Finset.eq_empty_of_forall_notMem fun k hk => (hK k).1 hk (hF k)
  exact ⟨⟨by rw [hcount, hzero], hcur, by rw [hsize, hcard, hempty, Finset.card_empty]⟩, hF⟩

omit [DecidableEq Key] in
theorem not_inRange_of_zero {k : Key} (h : s.bucketCount.toNat = 0) : ¬ s.InRange c k := by
  rw [SegmentT.InRange, h]
  exact Nat.not_lt_zero _

omit [DecidableEq Key] in
theorem grow_bucketCount {k : Key} {v : Value} (hs : s.grow c k v = some s') :
    s'.bucketCount = s.bucketCount ∨ s'.bucketCount = s.bucketCount <<< 1 := by
  rw [SegmentT.grow, growStores] at hs
  split at hs
  · exact .inr (rehash_bucketCount hs)
  · cases hs
    exact .inl rfl

theorem lookup_insert (F : Finmap fun _ : Key => Value) (k : Key) (v : Value) :
    (F.insert k v).lookup = Function.update F.lookup k (some v) := by
  funext k'
  by_cases hk : k' = k
  · subst hk
    simp
  · rw [Function.update_of_ne hk, Finmap.lookup_insert_of_ne F hk]

theorem lookup_erase (F : Finmap fun _ : Key => Value) (k : Key) :
    (F.erase k).lookup = Function.update F.lookup k none := by
  funext k'
  by_cases hk : k' = k
  · subst hk
    simp
  · rw [Function.update_of_ne hk, Finmap.lookup_erase_ne hk]

theorem SegmentT.Keeps.insert {k : Key} {v : Value} (h : s.Keeps c F)
    (hs : ((s.grow c k v).bind fun s' => if s'.InRange c k then s.insert c k v else none) = some s') :
    s'.Keeps c (F.insert k v) := by
  obtain ⟨t, ht, hs⟩ := Option.bind_eq_some_iff.1 hs
  split at hs
  · rename_i hrange
    rcases h with h | ⟨hbare, -⟩
    · left
      rw [lookup_insert]
      exact h.insert hs
    · refine absurd hrange (not_inRange_of_zero ?_)
      have hzero := hbare.bucketCount
      rcases grow_bucketCount ht with hcount | hcount
      · rw [hcount, hzero]
      · rw [hcount, BitVec.toNat_shiftLeft, hzero, Nat.zero_shiftLeft, Nat.zero_mod]
  · cases hs

theorem SegmentT.Keeps.call {o : SegOp Key Value} (h : s.Keeps c F) (hs : s.call c o = some s') :
    s'.Keeps (o.config c) (o.replay F) := by
  cases o with
  | op o =>
    cases o with
    | insert k v => exact h.insert hs
    | emplace k v => exact h.insert hs
    | erase k =>
      rw [SegmentT.call] at hs
      split at hs
      · rename_i hrange
        cases hs
        rcases h with h | ⟨hbare, -⟩
        · left
          rw [show (SegOp.op (.erase k)).replay F = F.erase k from rfl, lookup_erase]
          exact h.erase k
        · exact absurd hrange (not_inRange_of_zero hbare.bucketCount)
      · cases hs
    | clear =>
      cases hs
      rcases h with h | ⟨hbare, -⟩
      · left
        rw [show (SegOp.op .clear).replay F = ∅ from rfl, show (∅ : Finmap fun _ : Key => Value).lookup = fun _ => none
          from funext Finmap.lookup_empty]
        exact h.clear
      · refine .inr ⟨⟨?_, ?_, rfl⟩, Finmap.lookup_empty⟩
        · have hzero : (s.list s.bucketList).bucketCount.toNat = 0 := hbare.bucketCount
          simpa [SegmentT.clear, clearStores, applyAll, SegmentT.apply, SegmentT.bucketCount] using hzero
        · simp [SegmentT.clear, clearStores, applyAll, SegmentT.apply]
  | rehash count =>
    rw [SegmentT.call] at hs
    split at hs
    · rename_i hrange
      rcases h with h | ⟨hbare, hF⟩
      · by_cases hpos : 0 < count.toNat
        · exact .inl (h.rehash hs hpos)
        · refine .inr (h.bare hs ?_ (by omega))
          apply List.eq_nil_iff_forall_not_mem.2
          intro p hp
          have hlt := hrange p hp
          omega
      · by_cases hpos : 0 < count.toNat
        · exact .inl (hbare.represents hF hs hpos)
        · obtain ⟨hcount, hcur, -, hsize⟩ := rehash_of_sources hs hbare.sources
          exact .inr ⟨⟨by rw [hcount]; omega, hcur, hsize.trans hbare.size⟩, hF⟩
    · cases hs
  | setLoadFactor threshold =>
    cases hs
    rcases h with h | ⟨hbare, hF⟩
    · exact .inl (h.setThreshold threshold _)
    · exact .inr ⟨⟨hbare.bucketCount, hbare.current, hbare.size⟩, hF⟩

theorem SegmentT.Keeps.calls {c' : Config Key} {ops : List (SegOp Key Value)} (h : s.Keeps c F)
    (hs : s.calls c ops = some (c', s')) : s'.Keeps c' (ops.foldl SegOp.replay F) := by
  induction ops generalizing c s F with
  | nil =>
    cases hs
    exact h
  | cons o ops ih =>
    obtain ⟨t, ht, hs⟩ := Option.bind_eq_some_iff.1 hs
    exact ih (h.call ht) hs

variable [Inhabited Key] [Inhabited Value]

theorem run_keeps {c' : Config Key} {ops : List (SegOp Key Value)}
    (h : SegmentT.run c count ops = some (c', s)) : s.Keeps c' (ops.foldl SegOp.replay ∅) := by
  rw [SegmentT.run] at h
  split at h
  · rename_i hcount
    obtain ⟨s₀, hs₀, h⟩ := Option.bind_eq_some_iff.1 h
    have hempty : (∅ : Finmap fun _ : Key => Value).lookup = fun _ => none := funext Finmap.lookup_empty
    exact SegmentT.Keeps.calls (.inl (by rw [hempty]; exact .make hcount hs₀)) h
  · cases h

/-- The cursor does what it should on the segments that have a bucket, whatever the calls were. -/
theorem traversed_iff {c' : Config Key} {ops : List (SegOp Key Value)} (h : SegmentT.run c count ops = some (c', s)) :
    s.Traversed c' (ops.foldl SegOp.replay ∅) ↔ 0 < s.bucketCount.toNat := by
  constructor
  · rintro ⟨⟨it, fuel, hbegin, -⟩, -⟩
    rw [SegmentT.cbeginInRange] at hbegin
    split at hbegin
    · assumption
    · cases hbegin
  · intro hpos
    rcases run_keeps h with h | ⟨hbare, -⟩
    · exact h.traversed
    · exact absurd hbare.bucketCount hpos.ne'

end Runs

/-- Keys of one bucket, and a rehash to three. -/
theorem traversed_iff_three : ∃ c' s, SegmentT.run (oneShard Nat) 8
      [.op (.insert 1 10), .op (.insert 2 20), .setLoadFactor fun count => count.toNat, .rehash 3, .op (.insert 1 30)] =
        some (c', s) ∧
    s.Traversed c' ([.op (.insert 1 10), .op (.insert 2 20), .setLoadFactor fun count => count.toNat, .rehash 3,
      .op (.insert 1 30)].foldl SegOp.replay (∅ : Finmap fun _ : Nat => Nat)) := by
  have hrun : ∃ x, SegmentT.run (oneShard Nat) 8 ([.op (.insert 1 10), .op (.insert 2 20),
      .setLoadFactor fun count => count.toNat, .rehash 3, .op (.insert 1 30)] : List (SegOp Nat Nat)) = some x ∧
        0 < x.2.bucketCount.toNat := ⟨_, rfl, by decide +kernel⟩
  obtain ⟨⟨c', s⟩, hs, hpos⟩ := hrun
  exact ⟨c', s, hs, (traversed_iff hs).2 hpos⟩

/-- `reserve(100)` of a map with 256 shards calls `rehash(0)` on each segment. -/
theorem rehash_zero_not_traversed : ∃ c' s, SegmentT.run (oneShard Nat) 8 [.rehash 0] = some (c', s) ∧
    ¬ s.Traversed c' (∅ : Finmap fun _ : Nat => Nat) := by
  refine ⟨_, _, rfl, ?_⟩
  rintro ⟨⟨it, fuel, hbegin, -⟩, -⟩
  cases hbegin

end Wizard.HashMap
