import Wizard.HashMapSpec

/-! A whole traversal of the map without a writer. `next` loads `segments_[segment_]`
right after `segment_++`, before it looks whether there is such a shard, so the way
to `cend()` leads over the end of the array; what is stored is visited once all the same. -/

namespace Wizard.HashMap

open SegmentT

variable {Key Value : Type}

/-- The iterator of a segment. -/
structure SegIter where
  list : Nat
  id : Nat
  node : Option Nat
deriving Repr, DecidableEq

/-- `advanceBucketIfAtEnd`; the loop ends when the buckets do. -/
def SegIter.advance (s : SegmentT Key Value) : Nat → SegIter → SegIter
  | 0, it => it
  | fuel + 1, it =>
    match it.node with
    | some _ => it
    | none =>
      if (s.list it.list).bucketCount.toNat ≤ it.id + 1 then { it with id := it.id + 1 }
      else advance s fuel { it with id := it.id + 1, node := s.read (.head it.list (it.id + 1)) }

def SegIter.advanceBucketIfAtEnd (s : SegmentT Key Value) (it : SegIter) : SegIter :=
  it.advance s ((s.list it.list).bucketCount.toNat + 1)

def SegmentT.cbegin (s : SegmentT Key Value) : SegIter :=
  SegIter.advanceBucketIfAtEnd s ⟨s.bucketList, 0, s.read (.head s.bucketList 0)⟩

def SegIter.increment (s : SegmentT Key Value) (it : SegIter) (n : Nat) : SegIter :=
  SegIter.advanceBucketIfAtEnd s { it with node := s.next n }

/-- The iterator of the map. -/
structure ConstIterator where
  it : SegIter
  segment : Nat
deriving Repr, DecidableEq

/-- The map while it is traversed, since iterating makes missing segments, and the
indices at which `segments_` was read. An index past the shards is whatever lies there. -/
structure Trip (Key Value : Type) where
  map : Map Key Value
  reads : List Nat

section Traverse

variable [Inhabited Key] [Inhabited Value]

def Trip.ensureSegment (c : Config Key) (x : Trip Key Value) (i : Nat) : Option (SegmentT Key Value × Trip Key Value) :=
  (x.map.ensureSegment c i).map fun s => (s, ⟨x.map.setSegment i s, i :: x.reads⟩)

/-- `next`. The end of a segment is the null node, whichever segment it is. -/
def nextLoop (c : Config Key) : Nat → Trip Key Value → ConstIterator → Option (Trip Key Value × ConstIterator)
  | 0, _, _ => none
  | fuel + 1, x, it =>
    (x.ensureSegment c it.segment).bind fun r =>
      if it.it.node = none ∧ it.segment < Map.numShards c then
        let segment := it.segment + 1
        let seg := r.2.map.segments segment
        let x : Trip Key Value := ⟨r.2.map, segment :: r.2.reads⟩
        if segment < Map.numShards c then
          match seg with
          | none => nextLoop c fuel x ⟨it.it, segment⟩
          | some s => nextLoop c fuel x ⟨s.cbegin, segment⟩
        else nextLoop c fuel x ⟨it.it, segment⟩
      else some (r.2, it)

/-- `segment_` grows at every turn. -/
def next (c : Config Key) (x : Trip Key Value) (it : ConstIterator) : Option (Trip Key Value × ConstIterator) :=
  nextLoop c (Map.numShards c + 1) x it

def cbegin (c : Config Key) (x : Trip Key Value) : Option (Trip Key Value × ConstIterator) :=
  (x.ensureSegment c 0).bind fun r => next c r.2 ⟨r.1.cbegin, 0⟩

/-- `for (it = cbegin(); it != cend(); ++it)` with what it visits. -/
def traverseLoop (c : Config Key) : Nat → Trip Key Value → ConstIterator → List (Key × Value) →
    Option (Trip Key Value × List (Key × Value))
  | 0, _, _, _ => none
  | fuel + 1, x, it, visited =>
    if it.it.node = none ∧ it.segment = Map.numShards c then some (x, visited)
    else
      match x.map.segments it.segment, it.it.node with
      | some s, some n =>
        (next c x ⟨it.it.increment s n, it.segment⟩).bind fun r =>
          traverseLoop c fuel r.1 r.2 (visited ++ [(s.key n, s.value n)])
      | _, _ => none

def traverse (c : Config Key) (m : Map Key Value) (fuel : Nat) : Option (Trip Key Value × List (Key × Value)) :=
  (cbegin c ⟨m, []⟩).bind fun r => traverseLoop c fuel r.1 r.2 []

/-- The traversal ends, visits each stored key once and stays inside the array. -/
def Traverses [DecidableEq Key] (c : Config Key) (m : Map Key Value) : Prop :=
  ∃ fuel x visited, traverse c m fuel = some (x, visited) ∧ (visited.map Prod.fst).Nodup ∧
    (∀ k v, (k, v) ∈ visited ↔ m.find c k = some v) ∧ ∀ i ∈ x.reads, i < Map.numShards c

end Traverse

section Reads

variable [Inhabited Key] [Inhabited Value] {c : Config Key} {m : Map Key Value} {x x' : Trip Key Value}
  {it it' : ConstIterator} {fuel : Nat} {visited visited' : List (Key × Value)}

theorem reads_ensureSegment {i : Nat} {r : SegmentT Key Value × Trip Key Value} (h : x.ensureSegment c i = some r) :
    r.2.reads = i :: x.reads := by
  obtain ⟨s, -, rfl⟩ := Option.map_eq_some_iff.1 h
  rfl

/-- Every shard number that `next` gets to has been read. -/
theorem reads_nextLoop (h : nextLoop c fuel x it = some (x', it')) :
    (∀ i ∈ x.reads, i ∈ x'.reads) ∧ ∀ i, it.segment < i → i ≤ it'.segment → i ∈ x'.reads := by
  induction fuel generalizing x it with
  | zero => cases h
  | succ fuel ih =>
    obtain ⟨r, hr, h⟩ := Option.bind_eq_some_iff.1 h
    have hreads := reads_ensureSegment hr
    split at h
    · have hstep : ∀ j : SegIter, nextLoop c fuel ⟨r.2.map, (it.segment + 1) :: r.2.reads⟩ ⟨j, it.segment + 1⟩ =
        some (x', it') →
          (∀ i ∈ x.reads, i ∈ x'.reads) ∧ ∀ i, it.segment < i → i ≤ it'.segment → i ∈ x'.reads := by
        intro j hj
        obtain ⟨hkeep, hread⟩ := ih hj
        constructor
        · intro i hi
          apply hkeep
          simp [hreads, hi]
        · intro i hi hle
          by_cases hne : i = it.segment + 1
          · apply hkeep
            simp [hne]
          · exact hread i (by simp only; omega) hle
      simp only at h
      split at h
      · split at h
        · exact hstep _ h
        · exact hstep _ h
      · exact hstep _ h
    · cases h
      constructor
      · intro i hi
        simp [hreads, hi]
      · intro i hi hle
        omega

theorem reads_traverseLoop (h : traverseLoop c fuel x it visited = some (x', visited')) :
    (∀ i ∈ x.reads, i ∈ x'.reads) ∧ (it.segment < Map.numShards c → Map.numShards c ∈ x'.reads) := by
  induction fuel generalizing x it visited with
  | zero => cases h
  | succ fuel ih =>
    rw [traverseLoop] at h
    split at h
    · rename_i hend
      cases h
      refine ⟨fun i hi => hi, fun hlt => ?_⟩
      omega
    · split at h
      · obtain ⟨r, hr, h⟩ := Option.bind_eq_some_iff.1 h
        obtain ⟨hkeep, hread⟩ := reads_nextLoop hr
        obtain ⟨hkeep', hread'⟩ := ih h
        refine ⟨fun i hi => hkeep' i (hkeep i hi), fun hlt => ?_⟩
        by_cases hnext : r.2.segment < Map.numShards c
        · exact hread' hnext
        · exact hkeep' _ (hread _ hlt (by omega))
      · cases h

/-- A traversal that ends has read `segments_[NumShards]`. -/
theorem reads_traverse (h : traverse c m fuel = some (x', visited')) : Map.numShards c ∈ x'.reads := by
  obtain ⟨r, hr, h⟩ := Option.bind_eq_some_iff.1 h
  obtain ⟨q, -, hq⟩ := Option.bind_eq_some_iff.1 hr
  obtain ⟨-, hread⟩ := reads_nextLoop hq
  obtain ⟨hkeep, hread'⟩ := reads_traverseLoop h
  have hpos : 0 < Map.numShards c := Nat.two_pow_pos _
  by_cases hnext : r.2.segment < Map.numShards c
  · exact hread' hnext
  · exact hkeep _ (hread _ hpos (by omega))

end Reads

section Visits

/-- What the iterator has still to visit of its segment, `ch` being the chains. -/
def Ahead (s : SegmentT Key Value) (count : Nat) (ch : Nat → List Nat) (it : SegIter) (l : List Nat) : Prop :=
  ∃ rest, Segment s.next it.node rest none ∧ l = rest ++ (List.range' (it.id + 1) (count - (it.id + 1))).flatMap ch

/-- The chains of the current bucket list, one after the other, are what there is. -/
structure Walked (s : SegmentT Key Value) (ch : Nat → List Nat) : Prop where
  pos : 0 < s.bucketCount.toNat
  linked : ∀ b, Segment s.next (s.read (.head s.bucketList b)) (ch b) none
  sources : s.sources = (List.range s.bucketCount.toNat).flatMap ch

variable {s : SegmentT Key Value} {ch : Nat → List Nat} {it : SegIter} {l : List Nat} {n : Nat}

theorem Ahead.advance {fuel : Nat} (hs : Walked s ch) (hl : it.list = s.bucketList)
    (h : Ahead s s.bucketCount.toNat ch it l)
    (hfuel : s.bucketCount.toNat ≤ it.id + fuel) :
    Ahead s s.bucketCount.toNat ch (it.advance s fuel) l ∧ (it.advance s fuel).list = s.bucketList ∧
      ((it.advance s fuel).node = none → l = []) := by
  induction fuel generalizing it with
  | zero =>
    refine ⟨h, hl, fun hn => ?_⟩
    obtain ⟨rest, hrest, rfl⟩ := h
    have hn' : it.node = none := hn
    rw [hn'] at hrest
    rw [hrest.eq_nil, show s.bucketCount.toNat - (it.id + 1) = 0 by omega]
    rfl
  | succ fuel ih =>
    cases hnode : it.node with
    | some n =>
      have hsame : it.advance s (fuel + 1) = it := by rw [SegIter.advance, hnode]
      rw [hsame]
      refine ⟨h, hl, fun hn => ?_⟩
      rw [hnode] at hn
      cases hn
    | none =>
      obtain ⟨rest, hrest, rfl⟩ := h
      rw [hnode] at hrest
      obtain rfl := hrest.eq_nil
      have hcount : (s.list it.list).bucketCount.toNat = s.bucketCount.toNat := by rw [hl]; rfl
      by_cases hlast : s.bucketCount.toNat ≤ it.id + 1
      · have hstop : it.advance s (fuel + 1) = { it with id := it.id + 1 } := by
          rw [SegIter.advance, hnode]
          simp only [hcount, hlast, if_true]
        rw [hstop, show s.bucketCount.toNat - (it.id + 1) = 0 by omega]
        refine ⟨⟨[], hnode, ?_⟩, hl, fun _ => rfl⟩
        rw [show s.bucketCount.toNat - (it.id + 1 + 1) = 0 by omega]
        rfl
      · have hmore : it.advance s (fuel + 1) =
            SegIter.advance s fuel { it with id := it.id + 1, node := s.read (.head it.list (it.id + 1)) } := by
          rw [SegIter.advance, hnode]
          simp only [hcount, hlast, if_false]
        rw [hmore]
        apply ih
        · exact hl
        · refine ⟨ch (it.id + 1), ?_, ?_⟩
          · show Segment s.next (s.read (.head it.list (it.id + 1))) _ none
            rw [hl]
            exact hs.linked _
          · rw [show s.bucketCount.toNat - (it.id + 1) = s.bucketCount.toNat - (it.id + 1 + 1) + 1 by omega,
              List.range'_succ]
            rfl
        · simp only
          omega

theorem Walked.cbegin (hs : Walked s ch) : Ahead s s.bucketCount.toNat ch s.cbegin s.sources ∧
    s.cbegin.list = s.bucketList ∧
    (s.cbegin.node = none → s.sources = []) := by
  apply Ahead.advance hs rfl
  · refine ⟨ch 0, hs.linked 0, ?_⟩
    have hpos := hs.pos
    rw [hs.sources, List.range_eq_range', show s.bucketCount.toNat = s.bucketCount.toNat - 1 + 1 by omega,
      List.range'_succ]
    rfl
  · show (s.list s.bucketList).bucketCount.toNat ≤ 0 + ((s.list s.bucketList).bucketCount.toNat + 1)
    omega

theorem Ahead.increment (hs : Walked s ch) (hl : it.list = s.bucketList) (h : Ahead s s.bucketCount.toNat ch it l)
    (hn : it.node = some n) : ∃ rest, l = n :: rest ∧ Ahead s s.bucketCount.toNat ch (it.increment s n) rest ∧
      (it.increment s n).list = s.bucketList ∧ ((it.increment s n).node = none → rest = []) := by
  obtain ⟨chain, hchain, rfl⟩ := h
  rw [hn] at hchain
  cases chain with
  | nil => cases hchain
  | cons m chain =>
    obtain ⟨hm, hchain⟩ := hchain
    cases hm
    refine ⟨chain ++ _, rfl, ?_⟩
    have hcount : (s.list it.list).bucketCount.toNat = s.bucketCount.toNat := by rw [hl]; rfl
    refine Ahead.advance hs (show SegIter.list { it with node := s.next n } = _ from hl) ?_ ?_
    · exact ⟨chain, hchain, rfl⟩
    · show _ ≤ it.id + ((s.list it.list).bucketCount.toNat + 1)
      omega

end Visits

section Entries

variable [DecidableEq Key] {c : Config Key} {s : SegmentT Key Value} {f : Key → Option Value}

def SegmentT.entries (s : SegmentT Key Value) : List (Key × Value) := s.sources.map fun n => (s.key n, s.value n)

def Map.entriesAt (m : Map Key Value) (i : Nat) : List (Key × Value) := ((m.segments i).map SegmentT.entries).getD []

omit [DecidableEq Key] in
theorem Represents.walked (h : Represents c s f) : ∃ ch, Walked s ch := by
  obtain ⟨V, W, hh⟩ := h.holds
  obtain ⟨ch, hc⟩ := hh.chains
  refine ⟨ch, hc.pos, hc.linked, List.flatMap_congr fun b _ => ?_⟩
  exact (hc.linked b).walk_of_length_le (hh.length_le hc b)

theorem Represents.entries (h : Represents c s f) :
    (s.entries.map Prod.fst).Nodup ∧ ∀ k v, (k, v) ∈ s.entries ↔ f k = some v := by
  obtain ⟨V, W, hh⟩ := h.holds
  obtain ⟨-, hnd, hlookup⟩ := hh.sources
  constructor
  · simpa [SegmentT.entries, Function.comp_def] using hnd
  · intro k v
    rw [← hlookup k, lookup_eq_some_iff hnd]
    simp [SegmentT.entries]

theorem Represents.entries_nil (h : Represents c s (fun _ => none)) : s.entries = [] := by
  apply List.eq_nil_iff_forall_not_mem.2
  rintro ⟨k, v⟩ hmem
  have hh := (h.entries.2 k v).1 hmem
  cases hh

end Entries

section Whole

variable [DecidableEq Key] [Inhabited Key] [Inhabited Value] {c : Config Key} {m : Map Key Value} {x : Trip Key Value}
  {it : ConstIterator} {l : List (Key × Value)}

/-- The segments that iterating makes are empty. -/
structure Trip.Like (c : Config Key) (m : Map Key Value) (x : Trip Key Value) : Prop where
  capacity : x.map.initCapacity = m.initCapacity
  walked : ∀ i s, i < Map.numShards c → x.map.segments i = some s → ∃ ch, Walked s ch
  entries : ∀ i, i < Map.numShards c → x.map.entriesAt i = m.entriesAt i

/-- The segments can be made. -/
def Map.Makes (c : Config Key) (m : Map Key Value) : Prop :=
  ∃ s : SegmentT Key Value, SegmentT.make c (m.initCapacity >>> c.shardBits.val) = some s ∧
    Represents c s (fun _ => none)

def later (c : Config Key) (m : Map Key Value) (i : Nat) : List (Key × Value) :=
  (List.range' (i + 1) (Map.numShards c - (i + 1))).flatMap m.entriesAt

/-- What the iterator has still to visit. -/
def Coming (c : Config Key) (m : Map Key Value) (x : Trip Key Value) (it : ConstIterator)
    (l : List (Key × Value)) : Prop :=
  it.it.node = none ∧ it.segment ≤ Map.numShards c ∧ l = later c m it.segment ∨
    ∃ s ch nodes, it.it.node ≠ none ∧ it.segment < Map.numShards c ∧ x.map.segments it.segment = some s ∧ Walked s ch ∧
      it.it.list = s.bucketList ∧ Ahead s s.bucketCount.toNat ch it.it nodes ∧
      l = (nodes.map fun n => (s.key n, s.value n)) ++ later c m it.segment

theorem Trip.Like.ensureSegment (hx : x.Like c m) (hm : m.Makes c) (i : Nat) :
    ∃ s x', x.ensureSegment c i = some (s, x') ∧ x'.Like c m ∧ x'.map.segments i = some s ∧
      ∀ s', x.map.segments i = some s' → s' = s := by
  obtain ⟨made, hmade, hempty⟩ := hm
  obtain ⟨s, hs, hold, hlike⟩ : ∃ s, x.map.ensureSegment c i = some s ∧ (∀ s', x.map.segments i = some s' → s' = s) ∧
      (i < Map.numShards c → (∃ ch, Walked s ch) ∧ s.entries = m.entriesAt i) := by
    cases hi : x.map.segments i with
    | some s =>
      refine ⟨s, by rw [Map.ensureSegment, hi], fun s' hs' => (Option.some.inj hs').symm, fun hlt =>
        ⟨hx.walked i s hlt hi, ?_⟩⟩
      rw [← hx.entries i hlt, Map.entriesAt, hi]
      rfl
    | none =>
      refine ⟨made, ?_, fun s' hs' => by (cases hs'), fun hlt => ⟨hempty.walked, ?_⟩⟩
      · rw [Map.ensureSegment, hi, hx.capacity]
        exact hmade
      · rw [← hx.entries i hlt, Map.entriesAt, hi, hempty.entries_nil]
        rfl
  refine ⟨s, ⟨x.map.setSegment i s, i :: x.reads⟩, by rw [Trip.ensureSegment, hs]; rfl, ?_,
    by simp [Map.setSegment], hold⟩
  constructor
  · exact hx.capacity
  · intro j s' hj hs'
    by_cases hji : j = i
    · subst hji
      have he : s = s' := by simpa [Map.setSegment] using hs'
      exact he ▸ (hlike hj).1
    · exact hx.walked j s' hj (by simpa [Map.setSegment, hji] using hs')
  · intro j hj
    by_cases hji : j = i
    · subst hji
      rw [← (hlike hj).2]
      simp [Map.entriesAt, Map.setSegment]
    · rw [← hx.entries j hj]
      simp [Map.entriesAt, Map.setSegment, hji]

omit [DecidableEq Key] [Inhabited Key] [Inhabited Value] in
theorem later_succ {i : Nat} (hi : i + 1 < Map.numShards c) :
    later c m i = m.entriesAt (i + 1) ++ later c m (i + 1) := by
  unfold later
  rw [show Map.numShards c - (i + 1) = Map.numShards c - (i + 1 + 1) + 1 by omega, List.range'_succ]
  rfl

omit [DecidableEq Key] [Inhabited Key] [Inhabited Value] in
theorem later_last {i : Nat} (hi : Map.numShards c ≤ i + 1) : later c m i = [] := by
  unfold later
  rw [show Map.numShards c - (i + 1) = 0 by omega]
  rfl

omit [DecidableEq Key] [Inhabited Key] [Inhabited Value] in
/-- At the start of a segment all of it is to come. -/
theorem coming_cbegin {s : SegmentT Key Value} {i : Nat} (hs : ∃ ch, Walked s ch) (hi : i < Map.numShards c)
    (hx : x.map.segments i = some s) : Coming c m x ⟨s.cbegin, i⟩ (s.entries ++ later c m i) := by
  obtain ⟨ch, hw⟩ := hs
  obtain ⟨hahead, hlist, hend⟩ := hw.cbegin
  by_cases hn : s.cbegin.node = none
  · refine .inl ⟨hn, hi.le, ?_⟩
    rw [SegmentT.entries, hend hn]
    rfl
  · exact .inr ⟨s, ch, s.sources, hn, hi, hx, hw, hlist, hahead, rfl⟩

theorem nextLoop_coming (fuel : Nat) (hm : m.Makes c) (hx : x.Like c m) (h : Coming c m x it l)
    (hfuel : Map.numShards c < it.segment + fuel) :
    ∃ x' it', nextLoop c fuel x it = some (x', it') ∧ x'.Like c m ∧ Coming c m x' it' l ∧
      (it'.it.node = none → it'.segment = Map.numShards c) := by
  induction fuel generalizing x it with
  | zero =>
    have hle : it.segment ≤ Map.numShards c := by
      rcases h with ⟨-, hle, -⟩ | ⟨_, _, _, -, hlt, -⟩
      · exact hle
      · exact hlt.le
    omega
  | succ fuel ih =>
    obtain ⟨s, x₁, hensure, hx₁, hseg, hold⟩ := hx.ensureSegment hm it.segment
    rcases h with ⟨hn, hle, rfl⟩ | ⟨s', ch, nodes, hn, hlt, hs', hw, hlist, hahead, rfl⟩
    · by_cases hlt : it.segment < Map.numShards c
      · by_cases hnext : it.segment + 1 < Map.numShards c
        · have hlike : Trip.Like c m ⟨x₁.map, (it.segment + 1) :: x₁.reads⟩ := ⟨hx₁.capacity, hx₁.walked, hx₁.entries⟩
          cases hs : x₁.map.segments (it.segment + 1) with
          | none =>
            have hempty : m.entriesAt (it.segment + 1) = [] := by
              rw [← hx₁.entries _ hnext, Map.entriesAt, hs]
              rfl
            have hcoming : Coming c m ⟨x₁.map, (it.segment + 1) :: x₁.reads⟩ ⟨it.it, it.segment + 1⟩
                (later c m it.segment) :=
              .inl ⟨hn, hnext.le, by rw [later_succ hnext, hempty]; rfl⟩
            obtain ⟨x', it', hrun, hrest⟩ := ih hlike hcoming (by simp only; omega)
            refine ⟨x', it', ?_, hrest⟩
            rw [nextLoop, hensure]
            simpa [hn, hlt, hnext, hs] using hrun
          | some s₂ =>
            have hentries : m.entriesAt (it.segment + 1) = s₂.entries := by
              rw [← hx₁.entries _ hnext, Map.entriesAt, hs]
              rfl
            have hcoming := coming_cbegin (m := m) (x := ⟨x₁.map, (it.segment + 1) :: x₁.reads⟩)
              (hx₁.walked _ s₂ hnext hs) hnext hs
            rw [← hentries, ← later_succ hnext] at hcoming
            obtain ⟨x', it', hrun, hrest⟩ := ih hlike hcoming (by simp only; omega)
            refine ⟨x', it', ?_, hrest⟩
            rw [nextLoop, hensure]
            simpa [hn, hlt, hnext, hs] using hrun
        · have hlike : Trip.Like c m ⟨x₁.map, (it.segment + 1) :: x₁.reads⟩ := ⟨hx₁.capacity, hx₁.walked, hx₁.entries⟩
          have hcoming : Coming c m ⟨x₁.map, (it.segment + 1) :: x₁.reads⟩ ⟨it.it, it.segment + 1⟩
              (later c m it.segment) :=
            .inl ⟨hn, by simp only; omega, by rw [later_last (by omega), later_last (by simp only; omega)]⟩
          obtain ⟨x', it', hrun, hrest⟩ := ih hlike hcoming (by simp only; omega)
          refine ⟨x', it', ?_, hrest⟩
          rw [nextLoop, hensure]
          simpa [hn, hlt, hnext] using hrun
      · refine ⟨x₁, it, ?_, hx₁, .inl ⟨hn, hle, rfl⟩, fun _ => by omega⟩
        rw [nextLoop, hensure]
        simp [hlt]
    · obtain rfl := hold s' hs'
      refine ⟨x₁, it, ?_, hx₁, .inr ⟨s', ch, nodes, hn, hlt, hseg, hw, hlist, hahead, rfl⟩, fun hh => absurd hh hn⟩
      rw [nextLoop, hensure]
      simp [hn]

theorem traverseLoop_coming {fuel : Nat} (visited : List (Key × Value)) (hm : m.Makes c) (hx : x.Like c m)
    (h : Coming c m x it l) (hend : it.it.node = none → it.segment = Map.numShards c) (hfuel : l.length < fuel) :
    ∃ x', traverseLoop c fuel x it visited = some (x', visited ++ l) := by
  induction fuel generalizing x it l visited with
  | zero => omega
  | succ fuel ih =>
    rcases h with ⟨hn, hle, rfl⟩ | ⟨s, ch, nodes, hn, hlt, hs, hw, hlist, hahead, rfl⟩
    · refine ⟨x, ?_⟩
      rw [traverseLoop, if_pos ⟨hn, hend hn⟩, later_last (by rw [hend hn]; omega), List.append_nil]
    · obtain ⟨n, hnode⟩ := Option.ne_none_iff_exists'.1 hn
      obtain ⟨rest, rfl, hahead', hlist', hend'⟩ := hahead.increment hw hlist hnode
      have hcoming : Coming c m x ⟨it.it.increment s n, it.segment⟩
          ((rest.map fun n => (s.key n, s.value n)) ++ later c m it.segment) := by
        by_cases hnone : (it.it.increment s n).node = none
        · refine .inl ⟨hnone, hlt.le, ?_⟩
          rw [hend' hnone]
          rfl
        · exact .inr ⟨s, ch, rest, hnone, hlt, hs, hw, hlist', hahead', rfl⟩
      obtain ⟨x', it', hrun, hx', hc', he'⟩ := nextLoop_coming (Map.numShards c + 1) hm hx hcoming (by simp only; omega)
      obtain ⟨x'', hrest⟩ := ih (visited ++ [(s.key n, s.value n)]) hx' hc' he' (by simpa using hfuel)
      refine ⟨x'', ?_⟩
      rw [traverseLoop, if_neg (by rw [hnode]; simp)]
      simp only [hs, hnode, next, hrun, Option.bind_some]
      simpa using hrest

/-- A traversal ends after every segment's entries, one segment after the other. -/
theorem traverse_entries (hm : m.Makes c)
    (hw : ∀ i s, i < Map.numShards c → m.segments i = some s → ∃ ch, Walked s ch) :
    ∃ fuel x, traverse c m fuel = some (x, (List.range (Map.numShards c)).flatMap m.entriesAt) := by
  have hpos : 0 < Map.numShards c := Nat.two_pow_pos _
  have hx : Trip.Like c m ⟨m, []⟩ := ⟨rfl, hw, fun _ _ => rfl⟩
  obtain ⟨s, x₁, hensure, hx₁, hseg, -⟩ := hx.ensureSegment hm 0
  have hcoming := coming_cbegin (m := m) (hx₁.walked 0 s hpos hseg) hpos hseg
  have hall : s.entries ++ later c m 0 = (List.range (Map.numShards c)).flatMap m.entriesAt := by
    rw [List.range_eq_range', show Map.numShards c = Map.numShards c - 1 + 1 by omega, List.range'_succ]
    have he : m.entriesAt 0 = s.entries := by
      rw [← hx₁.entries 0 hpos, Map.entriesAt, hseg]
      rfl
    rw [List.flatMap_cons, he]
    rfl
  rw [hall] at hcoming
  obtain ⟨x', it', hrun, hx', hc', he'⟩ := nextLoop_coming (Map.numShards c + 1) hm hx₁ hcoming (by simp only; omega)
  obtain ⟨x'', hrest⟩ := traverseLoop_coming [] hm hx' hc' he' (Nat.lt_succ_self _)
  refine ⟨((List.range (Map.numShards c)).flatMap m.entriesAt).length + 1, x'', ?_⟩
  rw [traverse, cbegin, hensure, Option.bind_some, next, hrun, Option.bind_some]
  exact hrest

/-- Every stored key is visited, and no key twice. -/
theorem traverse_visits {F : Finmap fun _ : Key => Value} (hm : m.Makes c) (h : Refines c m F) :
    ∃ fuel x visited, traverse c m fuel = some (x, visited) ∧ (visited.map Prod.fst).Nodup ∧
      ∀ k v, (k, v) ∈ visited ↔ F.lookup k = some v := by
  have hentries : ∀ i, (m.entriesAt i).map Prod.fst |>.Nodup := by
    intro i
    cases hs : m.segments i with
    | none => simp [Map.entriesAt, hs]
    | some s => simpa [Map.entriesAt, hs] using (h.share i s hs).entries.1
  have hmem : ∀ i k v, (k, v) ∈ m.entriesAt i ↔ Map.pickSegment c k = i ∧ F.lookup k = some v := by
    intro i k v
    cases hs : m.segments i with
    | none =>
      have hrest := h.rest k
      simp only [Map.entriesAt, hs, Option.map_none, Option.getD_none, List.not_mem_nil, false_iff, not_and]
      rintro rfl
      simp [hrest hs]
    | some s =>
      have hh := (h.share i s hs).entries.2 k v
      simp only [Map.entriesAt, hs, Option.map_some, Option.getD_some, hh]
      by_cases hi : Map.pickSegment c k = i <;> simp [hi]
  obtain ⟨fuel, x, hrun⟩ := traverse_entries hm (fun i s _ hs => (h.share i s hs).walked)
  refine ⟨fuel, x, _, hrun, ?_, ?_⟩
  · rw [List.map_flatMap, List.nodup_flatMap]
    refine ⟨fun i _ => hentries i, List.nodup_range.imp fun {i j} hij => ?_⟩
    intro k hk hk'
    obtain ⟨⟨k₁, v₁⟩, hv₁, rfl⟩ := List.mem_map.1 hk
    obtain ⟨⟨k₂, v₂⟩, hv₂, he⟩ := List.mem_map.1 hk'
    obtain ⟨hp₁, -⟩ := (hmem i k₁ v₁).1 hv₁
    obtain ⟨hp₂, -⟩ := (hmem j k₂ v₂).1 hv₂
    have hkey : k₂ = k₁ := he
    exact hij (by rw [← hp₁, ← hp₂, hkey])
  · intro k v
    rw [List.mem_flatMap]
    constructor
    · rintro ⟨i, -, hi⟩
      exact ((hmem i k v).1 hi).2
    · intro hv
      exact ⟨Map.pickSegment c k, List.mem_range.2 (pickSegment_lt c k), (hmem _ k v).2 ⟨rfl, hv⟩⟩

end Whole

/-- No traversal of any map is as it should be. -/
theorem traversal_leaves_array [DecidableEq Key] [Inhabited Key] [Inhabited Value] (c : Config Key)
    (m : Map Key Value) :
    ¬ Traverses c m := by
  rintro ⟨fuel, x, visited, h, -, -, hreads⟩
  have hh := hreads _ (reads_traverse h)
  omega

/-- The traversal of an empty map with one shard. -/
theorem empty_traversal_leaves_array : ¬ Traverses (oneShard Nat) (Map.make 8 : Map Nat Nat) := by
  rintro ⟨fuel, x, visited, h, -, -, hreads⟩
  have hh := hreads _ (reads_traverse h)
  omega

end Wizard.HashMap
