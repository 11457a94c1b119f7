import Wizard.Tally
import Wizard.HashMapSections

/-! The links of a segment that are counted: the `next_` fields of the nodes and
the heads of the bucket lists that are not destroyed. -/

namespace Wizard.HashMap

open SegmentT

variable {Key Value : Type}

/-- The locations that exist. -/
def Allocated (s : SegmentT Key Value) : Loc → Prop
  | .next n => n < s.nodeCount
  | .head l b => l < s.listCount ∧ b < (s.list l).bucketCount.toNat

/-- The object that a location is part of. -/
def Loc.owner : Loc → Obj
  | .next n => .node n
  | .head l _ => .list l

def heads (s : SegmentT Key Value) (l : Nat) : Finset Loc :=
  (Finset.range (s.list l).bucketCount.toNat).image (.head l)

/-- The locations outside the destroyed objects `D`. -/
def locs (D : List Obj) (s : SegmentT Key Value) : Finset Loc :=
  ((Finset.range s.nodeCount).filter (.node · ∉ D)).image .next ∪
    ((Finset.range s.listCount).filter (.list · ∉ D)).biUnion (heads s)

/-- The number of links to the node `x`. -/
def links (D : List Obj) (s : SegmentT Key Value) (x : Nat) : Nat := tally (locs D s) s.read x

theorem mem_locs {D : List Obj} {s : SegmentT Key Value} {loc : Loc} :
    loc ∈ locs D s ↔ Allocated s loc ∧ loc.owner ∉ D := by
  cases loc with
  | next n => simp [locs, heads, Allocated, Loc.owner]
  | head l b => simp [locs, heads, Allocated, Loc.owner]; tauto

theorem mem_heads {s : SegmentT Key Value} {l : Nat} {loc : Loc} :
    loc ∈ heads s l ↔ ∃ b < (s.list l).bucketCount.toNat, loc = .head l b := by
  simp [heads, eq_comm]

section Stores

variable {D : List Obj} {s s' : SegmentT Key Value} {x : Nat}

/-- Both heaps have the same links, entries aside. -/
structure SameLinks (s s' : SegmentT Key Value) : Prop where
  next : s'.next = s.next
  list : s'.list = s.list
  nodeCount : s'.nodeCount = s.nodeCount
  listCount : s'.listCount = s.listCount

theorem SameLinks.read (h : SameLinks s s') : s'.read = s.read := by
  funext loc
  cases loc with
  | head l b => simp [SegmentT.read, h.list]
  | next n => exact congrFun h.next n

theorem SameLinks.allocated (h : SameLinks s s') (loc : Loc) : Allocated s' loc ↔ Allocated s loc := by
  cases loc <;> simp [Allocated, h.nodeCount, h.listCount, h.list]

theorem SameLinks.locs (h : SameLinks s s') : locs D s' = locs D s := by
  ext loc
  rw [mem_locs, mem_locs, h.allocated]

theorem SameLinks.links (h : SameLinks s s') : links D s' x = links D s x := by
  rw [HashMap.links, HashMap.links, h.locs, h.read]

theorem allocated_write (loc loc' : Loc) (p : Option Nat) :
    Allocated (s.write loc p) loc' ↔ Allocated s loc' := by
  cases loc' <;> simp [Allocated]

theorem links_write {loc : Loc} (hl : loc ∈ locs D s) (p : Option Nat) :
    links D (s.write loc p) x + hit (s.read loc) x = links D s x + hit p x := by
  have he : locs D (s.write loc p) = locs D s := by
    ext loc'
    rw [mem_locs, mem_locs, allocated_write]
  have hh := tally_update (y := x) (g := (s.write loc p).read) hl
    (fun b _ hb => by rw [read_write, if_neg hb])
  rw [read_write, if_pos rfl] at hh
  rw [links, he]
  exact hh

/-- A new object brings no link. -/
theorem links_of_fresh (hread : ∀ loc, Allocated s loc → s'.read loc = s.read loc)
    (hold : ∀ loc, Allocated s loc → Allocated s' loc)
    (hnew : ∀ loc, Allocated s' loc → ¬ Allocated s loc → s'.read loc = none) :
    links D s' x = links D s x := by
  have hsub : locs D s ⊆ locs D s' := by
    intro loc hloc
    rw [mem_locs] at hloc ⊢
    exact ⟨hold loc hloc.1, hloc.2⟩
  rw [links, tally_subset hsub]
  · exact tally_congr (fun loc hloc => hread loc (mem_locs.1 hloc).1)
  · intro loc hloc hno
    rw [mem_locs] at hloc hno
    rw [hnew loc hloc.1 (fun ha => hno ⟨ha, hloc.2⟩)]
    simp

theorem links_newNode (k : Key) (v : Value) : links D (s.apply (.newNode k v)) x = links D s x := by
  refine links_of_fresh (fun loc hloc => ?_) (fun loc hloc => ?_) (fun loc hloc hno => ?_)
  · cases loc with
    | head l b => rfl
    | next n =>
      have hne : n ≠ s.nodeCount := Nat.ne_of_lt hloc
      simp [SegmentT.read, SegmentT.next, SegmentT.apply, hne]
  · cases loc with
    | head l b => exact hloc
    | next n => exact Nat.lt_succ_of_lt hloc
  · cases loc with
    | head l b => exact absurd hloc hno
    | next n =>
      have hn : n = s.nodeCount := by
        simp only [Allocated, SegmentT.apply] at hloc hno
        omega
      simp [SegmentT.read, SegmentT.next, SegmentT.apply, hn]

theorem links_newList {bl : BucketList} (hbl : bl.head = fun _ => none) :
    links D (s.apply (.newList bl)) x = links D s x := by
  have hlist : ∀ l, l < s.listCount → (s.apply (.newList bl)).list l = s.list l := by
    intro l hl
    have hne : l ≠ s.listCount := hl.ne
    simp [SegmentT.apply, hne]
  refine links_of_fresh (fun loc hloc => ?_) (fun loc hloc => ?_) (fun loc hloc hno => ?_)
  · cases loc with
    | head l b => rw [SegmentT.read, hlist l hloc.1, SegmentT.read]
    | next n => rfl
  · cases loc with
    | head l b => exact ⟨Nat.lt_succ_of_lt hloc.1, by rw [hlist l hloc.1]; exact hloc.2⟩
    | next n => exact hloc
  · cases loc with
    | head l b =>
      by_cases hl : l < s.listCount
      · exact absurd ⟨hl, by rw [← hlist l hl]; exact hloc.2⟩ hno
      · have he : l = s.listCount := by
          have hlt : l < s.listCount + 1 := hloc.1
          omega
        simp [SegmentT.read, SegmentT.apply, he, hbl]
    | next n => exact absurd hloc hno

end Stores

section Fresh

variable {c : Config Key} {s : SegmentT Key Value} {q : List (Store Key Value)} {N L l x : Nat}
  {D : List Obj}

/-- A store that leaves the first `N` nodes and `L` bucket lists as they are. -/
def Fresh (N L : Nat) : Store Key Value → Prop
  | .write (.next n) _ => N ≤ n
  | .write (.head l _) _ => L ≤ l
  | .acquire _ => False
  | _ => True

theorem apply_fresh {st : Store Key Value} (h : Fresh N L st) (hN : N ≤ s.nodeCount)
    (hL : L ≤ s.listCount) :
    (∀ n < N, (s.apply st).node n = s.node n) ∧ ∀ l < L, (s.apply st).list l = s.list l := by
  cases st with
  | newNode k v =>
    refine ⟨fun n hn => ?_, fun l _ => rfl⟩
    have hne : n ≠ s.nodeCount := by omega
    simp [SegmentT.apply, hne]
  | newList bl =>
    refine ⟨fun n _ => rfl, fun l hl => ?_⟩
    have hne : l ≠ s.listCount := by omega
    simp [SegmentT.apply, hne]
  | write loc p =>
    cases loc with
    | next m =>
      have hm : N ≤ m := h
      refine ⟨fun n hn => ?_, fun l _ => rfl⟩
      have hne : n ≠ m := by omega
      simp [SegmentT.apply, SegmentT.write, hne]
    | head m b =>
      have hm : L ≤ m := h
      refine ⟨fun n _ => rfl, fun l hl => ?_⟩
      have hne : l ≠ m := by omega
      simp [SegmentT.apply, SegmentT.write, hne]
  | acquire n => exact h.elim
  | publish l => exact ⟨fun n _ => rfl, fun l _ => rfl⟩
  | retire l => exact ⟨fun n _ => rfl, fun l _ => rfl⟩
  | setSize n => exact ⟨fun n _ => rfl, fun l _ => rfl⟩
  | setThreshold n => exact ⟨fun n _ => rfl, fun l _ => rfl⟩

theorem applyAll_fresh (h : ∀ st ∈ q, Fresh N L st) (hN : N ≤ s.nodeCount) (hL : L ≤ s.listCount) :
    (∀ n < N, (s.applyAll q).node n = s.node n) ∧ ∀ l < L, (s.applyAll q).list l = s.list l := by
  induction q generalizing s with
  | nil => exact ⟨fun n _ => rfl, fun l _ => rfl⟩
  | cons st q ih =>
    rw [List.forall_mem_cons] at h
    obtain ⟨hn, hl⟩ := apply_fresh h.1 hN hL
    obtain ⟨hn', hl'⟩ := ih h.2 (hN.trans nodeCount_le_apply) (hL.trans listCount_le_apply)
    exact ⟨fun n hlt => (hn' n hlt).trans (hn n hlt), fun l hlt => (hl' l hlt).trans (hl l hlt)⟩

theorem bucketCount_applyAll (hl : l < s.listCount) (q : List (Store Key Value)) :
    ((s.applyAll q).list l).bucketCount = (s.list l).bucketCount := by
  induction q generalizing s with
  | nil => rfl
  | cons st q ih =>
    refine (ih (s := s.apply st) (hl.trans_le listCount_le_apply)).trans ?_
    cases st with
    | newList bl =>
      have hne : l ≠ s.listCount := hl.ne
      simp [SegmentT.apply, hne]
    | write loc p => exact bucketCount_write s loc p l
    | _ => rfl

/-- Nodes made by stores without `acquire` count one link. -/
theorem refcount_applyAll (h : ∀ n, .acquire n ∉ q) (hx : x < (s.applyAll q).nodeCount) :
    ((s.applyAll q).node x).refcount = if x < s.nodeCount then (s.node x).refcount else 1 := by
  induction q generalizing s with
  | nil =>
    have hlt : x < s.nodeCount := hx
    rw [if_pos hlt]
    rfl
  | cons st q ih =>
    have hst : ∀ n, st ≠ .acquire n := fun n he => h n (he ▸ List.mem_cons_self)
    have hh := ih (s := s.apply st) (fun n hn => h n (List.mem_cons_of_mem _ hn)) hx
    refine hh.trans ?_
    cases st with
    | newNode k v =>
      by_cases hlt : x < s.nodeCount
      · have hne : x ≠ s.nodeCount := by omega
        have hlt' : x < s.nodeCount + 1 := by omega
        simp [SegmentT.apply, hne, hlt, hlt']
      · by_cases he : x = s.nodeCount
        · simp [SegmentT.apply, he]
        · have hlt' : ¬ x < s.nodeCount + 1 := by omega
          simp [SegmentT.apply, hlt, hlt']
    | write loc p =>
      cases loc with
      | head l b => rfl
      | next n => by_cases hn : x = n <;> simp [SegmentT.apply, SegmentT.write, hn]
    | acquire n => exact absurd rfl (hst n)
    | _ => rfl

theorem copyStores_fresh (hN : N ≤ s.nodeCount) (hL : L ≤ l) (ps : List Nat) :
    ∀ st ∈ copyStores c l s ps, Fresh N L st := by
  induction ps generalizing s with
  | nil => simp [copyStores]
  | cons p ps ih =>
    have hone : ∀ st ∈ copyOne c s l p, Fresh N L st := by
      simp [copyOne, Fresh, headOf, hN, hL]
    simp only [copyStores, List.mem_append, or_imp, forall_and]
    exact ⟨hone, ih (hN.trans (nodeCount_le_applyAll _))⟩

theorem growStores_fresh {grow : List (Store Key Value)} (hg : growStores c s = some grow) :
    ∀ st ∈ grow, Fresh s.nodeCount s.listCount st := by
  rw [growStores] at hg
  split at hg
  · obtain ⟨bl, -, -, rfl⟩ := rehashStores_eq hg
    simp only [fillStores, List.mem_append, or_imp, forall_and]
    refine ⟨⟨by simp [Fresh], ?_⟩, by simp [Fresh]⟩
    exact copyStores_fresh (nodeCount_le_applyAll _) le_rfl _
  · cases hg
    simp

theorem Fresh.not_acquire {st : Store Key Value} (h : Fresh N L st) (n : Nat) : st ≠ .acquire n := by
  rintro rfl
  exact h

/-- A node that is linked in at `loc` takes over the link that was there. -/
theorem links_link {loc : Loc} {n : Nat} {p : Option Nat} (hn : .next n ∈ locs D s) (hloc : loc ∈ locs D s)
    (hne : loc ≠ .next n) (hnext : s.next n = none) (x : Nat) :
    links D ((s.write (.next n) p).write loc (some n)) x + hit (s.read loc) x =
      links D s x + hit p x + hit (some n) x := by
  have h₁ := links_write (x := x) hn p
  have hloc' : loc ∈ locs D (s.write (.next n) p) := by
    rw [mem_locs, allocated_write]
    exact mem_locs.1 hloc
  have h₂ := links_write (x := x) hloc' (some n)
  rw [read_write, if_neg hne] at h₂
  rw [SegmentT.read, hnext, hit_none] at h₁
  omega

theorem applyAll_copyOne (p : Nat) :
    (s.applyAll (copyOne c s l p)).nodeCount = s.nodeCount + 1 ∧
      (s.applyAll (copyOne c s l p)).listCount = s.listCount ∧
      ∀ l', ((s.applyAll (copyOne c s l p)).list l').bucketCount = (s.list l').bucketCount := by
  refine ⟨?_, ?_, fun l' => ?_⟩ <;> simp [copyOne, applyAll, SegmentT.apply]

theorem links_copyOne (hl : l < s.listCount) (hpos : 0 < (s.list l).bucketCount.toNat)
    (hD : .list l ∉ D) (hnew : .node s.nodeCount ∉ D) (p x : Nat) :
    links D (s.applyAll (copyOne c s l p)) x = links D s x + hit (some s.nodeCount) x := by
  set s₁ := s.apply (.newNode (s.key p) (s.value p)) with hs₁
  have hn : .next s.nodeCount ∈ locs D s₁ := mem_locs.2 ⟨Nat.lt_succ_self _, hnew⟩
  have hhead : headOf c s l (s.key p) ∈ locs D s₁ := mem_locs.2 ⟨⟨hl, bucketId_lt c hpos _⟩, hD⟩
  have hnext : s₁.next s.nodeCount = none := by simp [hs₁, SegmentT.apply, SegmentT.next]
  have hh := links_link (p := s.read (headOf c s l (s.key p))) hn hhead (by simp [headOf]) hnext x
  rw [links_newNode] at hh
  have hr : s₁.read (headOf c s l (s.key p)) = s.read (headOf c s l (s.key p)) := rfl
  rw [hr] at hh
  have he : s.applyAll (copyOne c s l p) = (s₁.write (.next s.nodeCount)
    (s.read (headOf c s l (s.key p)))).write (headOf c s l (s.key p)) (some s.nodeCount) := rfl
  rw [he]
  omega

/-- The copies that `rehash` makes have one link each. -/
theorem links_copyStores (ps : List Nat) (hl : l < s.listCount) (hpos : 0 < (s.list l).bucketCount.toNat)
    (hD : .list l ∉ D) (hnew : ∀ n, s.nodeCount ≤ n → .node n ∉ D) (x : Nat) :
    links D (s.applyAll (copyStores c l s ps)) x =
      links D s x +
        if s.nodeCount ≤ x ∧ x < (s.applyAll (copyStores c l s ps)).nodeCount then 1 else 0 := by
  induction ps generalizing s with
  | nil =>
    have hno : ¬ (s.nodeCount ≤ x ∧ x < s.nodeCount) := by omega
    simp [copyStores, applyAll, hno]
  | cons p ps ih =>
    obtain ⟨hcount, hlist, hbuckets⟩ := applyAll_copyOne (c := c) (s := s) (l := l) p
    have hone := links_copyOne (c := c) hl hpos hD (hnew _ le_rfl) p x
    have hle := nodeCount_le_applyAll (s := s.applyAll (copyOne c s l p))
      (copyStores c l (s.applyAll (copyOne c s l p)) ps)
    have hh := ih (s := s.applyAll (copyOne c s l p)) (by rwa [hlist]) (by rwa [hbuckets])
      (fun n hn => hnew n (by omega))
    rw [copyStores, applyAll_append, hh, hone, hit]
    simp only [Option.some.injEq]
    split_ifs <;> omega

theorem links_growStores {V W : Set Nat} {f : Key → Option Value} {grow : List (Store Key Value)}
    (h : Holds c s V W f) (hg : growStores c s = some grow) (hD : .list s.listCount ∉ D)
    (hnew : ∀ n, s.nodeCount ≤ n → .node n ∉ D) (x : Nat) :
    links D (s.applyAll grow) x =
      links D s x + if s.nodeCount ≤ x ∧ x < (s.applyAll grow).nodeCount then 1 else 0 := by
  rw [growStores] at hg
  split at hg
  · obtain ⟨bl, hcount, hbl, rfl⟩ := rehashStores_eq hg
    set start : List (Store Key Value) := [.setThreshold (c.threshold bl.bucketCount), .newList bl]
    have hpos : 0 < ((s.applyAll start).list s.listCount).bucketCount.toNat := h.newList_pos hcount
    have hstart : links D (s.applyAll start) x = links D s x := by
      refine (links_newList hbl).trans (SameLinks.links ⟨rfl, rfl, rfl, rfl⟩)
    have hh := links_copyStores (c := c) (l := s.listCount) (s := s.applyAll start) s.sources
      (Nat.lt_succ_self _) hpos hD hnew x
    rw [hstart] at hh
    rw [applyAll_append, fillStores, applyAll_append]
    set t := (s.applyAll start).applyAll (copyStores c s.listCount (s.applyAll start) s.sources)
    have hsame : SameLinks t (t.applyAll [.publish s.listCount, .retire s.bucketList]) :=
      ⟨rfl, rfl, rfl, rfl⟩
    rw [hsame.links, hsame.nodeCount]
    exact hh
  · cases hg
    have hno : ¬ (s.nodeCount ≤ x ∧ x < s.nodeCount) := by omega
    simp [applyAll, hno]

end Fresh

end Wizard.HashMap
