import Wizard.HashMapLinks

/-! What a mutex section does to the links. `Plan` says which objects the stores
that are left in a section touch; `Settled` says how the links and the reference
counts change from the start of a section to its end. -/

namespace Wizard.HashMap

open SegmentT

variable {Key Value : Type}

/-- The object that a store dereferences. -/
def Store.target : Store Key Value → Option Obj
  | .write loc _ => some loc.owner
  | .acquire n => some (.node n)
  | _ => none

/-- The node `m` is on a chain of the current bucket list. -/
def Reach (s : SegmentT Key Value) (m : Nat) : Prop :=
  ∃ b < s.bucketCount.toNat, ∃ pre, Segment s.next (s.read (.head s.bucketList b)) pre (some m)

/-- The node `m` is linked when the section ends, or it is the one to release. -/
def Kept (fin : SegmentT Key Value) (v : Option Nat) : Obj → Prop
  | .node m => v = some m ∨ Reach fin m
  | .list l => l = fin.bucketList

/-- A bucket list is retired only when it is not the current one. -/
def Ordered : Nat → List (Store Key Value) → Prop
  | _, [] => True
  | _, .publish l :: q => Ordered l q
  | cur, .retire l :: q => l ≠ cur ∧ Ordered cur q
  | cur, _ :: q => Ordered cur q

/-- The stores `q` that a section has left, and the node `v` that it releases. -/
structure Plan (s : SegmentT Key Value) (q : List (Store Key Value)) (v : Option Nat) : Prop where
  target : ∀ st ∈ q, ∀ o, st.target = some o → Kept (s.applyAll q) v o
  alloc : ∀ loc p, .write loc p ∈ q → Allocated (s.applyAll q) loc
  value : ∀ loc m, .write loc (some m) ∈ q → Kept (s.applyAll q) v (.node m)
  content : ∀ loc p m, .write loc p ∈ q → Allocated s loc → s.read loc = some m →
    Kept (s.applyAll q) v (.node m)
  empty : ∀ bl, .newList bl ∈ q → bl.head = fun _ => none
  acquire : ∀ m, .acquire m ∈ q → ∃ n loc, v = some n ∧ (s.applyAll q).next n = some m ∧
    loc ≠ .next n ∧ (s.applyAll q).read loc = some m ∧ Allocated (s.applyAll q) loc ∧
    Kept (s.applyAll q) v loc.owner
  ordered : Ordered s.bucketList q
  publish : ∀ l, .publish l ∈ q → l = (s.applyAll q).bucketList
  retire : ∀ l, .retire l ∈ q → l ≠ (s.applyAll q).bucketList

/-- From the start of a section to its end: every new node has one link, the
node `a` is acquired once, and a link of `v` is left to release. -/
structure Settled (D : List Obj) (s fin : SegmentT Key Value) (v a : Option Nat) : Prop where
  count : s.nodeCount ≤ fin.nodeCount
  links : ∀ x < fin.nodeCount, links D fin x + hit v x =
    (if x < s.nodeCount then links D s x else 1) + hit a x
  refcount : ∀ x < fin.nodeCount, (fin.node x).refcount =
    (if x < s.nodeCount then (s.node x).refcount else 1) + BitVec.ofNat 16 (hit a x)
  linked : ∀ x < s.nodeCount, a = some x → ∃ n < s.nodeCount, Reach s n ∧ s.next n = some x
  victim : ∀ n, v = some n → n < fin.nodeCount

/-- Links lead to nodes that exist. -/
def Closed (s : SegmentT Key Value) : Prop :=
  ∀ loc m, Allocated s loc → s.read loc = some m → m < s.nodeCount

section Plan

variable {s : SegmentT Key Value} {st : Store Key Value} {q : List (Store Key Value)} {v : Option Nat}

theorem Ordered.tail {cur : Nat} (h : Ordered cur (st :: q)) (hs : s.bucketList = cur) :
    Ordered (s.apply st).bucketList q := by
  subst hs
  cases st with
  | retire l => exact h.2
  | write loc p =>
    have hh : Ordered s.bucketList q := h
    rwa [SegmentT.apply, bucketList_write]
  | _ => exact h

theorem read_apply_cases {loc : Loc} {m : Nat} (he : ∀ bl, st = .newList bl → bl.head = fun _ => none)
    (ha : Allocated (s.apply st) loc) (hr : (s.apply st).read loc = some m) :
    st = .write loc (some m) ∨ Allocated s loc ∧ s.read loc = some m := by
  cases st with
  | newNode k value =>
    cases loc with
    | head l b => exact .inr ⟨ha, hr⟩
    | next n =>
      by_cases hn : n = s.nodeCount
      · simp [SegmentT.read, SegmentT.next, SegmentT.apply, hn] at hr
      · have hlt : n < s.nodeCount + 1 := ha
        exact .inr ⟨Nat.lt_of_le_of_ne (Nat.le_of_lt_succ hlt) hn,
          by simpa [SegmentT.read, SegmentT.next, SegmentT.apply, hn] using hr⟩
  | newList bl =>
    cases loc with
    | head l b =>
      by_cases hl : l = s.listCount
      · simp [SegmentT.read, SegmentT.apply, hl, he bl rfl] at hr
      · simp only [Allocated, SegmentT.apply, Function.update_of_ne hl] at ha
        exact .inr ⟨⟨Nat.lt_of_le_of_ne (Nat.le_of_lt_succ ha.1) hl, ha.2⟩,
          by simpa [SegmentT.read, SegmentT.apply, hl] using hr⟩
    | next n => exact .inr ⟨ha, hr⟩
  | write loc' p =>
    rw [SegmentT.apply, allocated_write] at ha
    rw [SegmentT.apply, read_write] at hr
    split at hr
    · rename_i hl
      rw [hl, hr]
      exact .inl rfl
    · exact .inr ⟨ha, hr⟩
  | acquire n =>
    refine .inr ⟨by cases loc <;> exact ha, ?_⟩
    cases loc with
    | head l b => exact hr
    | next n' =>
      by_cases hn : n' = n <;> simpa [SegmentT.read, SegmentT.next, SegmentT.apply, hn] using hr
  | publish l => exact .inr ⟨by cases loc <;> exact ha, by cases loc <;> exact hr⟩
  | retire l => exact .inr ⟨by cases loc <;> exact ha, by cases loc <;> exact hr⟩
  | setSize n => exact .inr ⟨by cases loc <;> exact ha, by cases loc <;> exact hr⟩
  | setThreshold n => exact .inr ⟨by cases loc <;> exact ha, by cases loc <;> exact hr⟩

theorem Plan.tail (h : Plan s (st :: q) v) : Plan (s.apply st) q v where
  target st' hst := h.target st' (List.mem_cons_of_mem _ hst)
  alloc loc p hw := h.alloc loc p (List.mem_cons_of_mem _ hw)
  value loc m hw := h.value loc m (List.mem_cons_of_mem _ hw)
  empty bl hb := h.empty bl (List.mem_cons_of_mem _ hb)
  acquire m ha := h.acquire m (List.mem_cons_of_mem _ ha)
  ordered := h.ordered.tail rfl
  publish l hl := h.publish l (List.mem_cons_of_mem _ hl)
  retire l hl := h.retire l (List.mem_cons_of_mem _ hl)
  content loc p m hw hal hr := by
    have he : ∀ bl, st = .newList bl → bl.head = fun _ => none :=
      fun bl hbl => h.empty bl (hbl ▸ List.mem_cons_self)
    obtain hst | ⟨hal, hr⟩ := read_apply_cases he hal hr
    · exact h.value loc m (hst ▸ List.mem_cons_self)
    · exact h.content loc p m (List.mem_cons_of_mem _ hw) hal hr

end Plan

section Copies

variable {c : Config Key} {s : SegmentT Key Value} {V W : Set Nat} {f : Key → Option Value}

/-- The stores of the loops of `rehash`, which fill the list `l` with the nodes
from `N` to `M`. -/
def CopyStore (N M l : Nat) (count : BitVec 64) : Store Key Value → Prop
  | .newNode _ _ => True
  | .write (.next n) p => (N ≤ n ∧ n < M) ∧ ∀ m, p = some m → N ≤ m ∧ m < M
  | .write (.head l' b) p => (l' = l ∧ b < count.toNat) ∧ ∀ m, p = some m → N ≤ m ∧ m < M
  | _ => False

theorem copyStores_mem {l N : Nat} (ps : List Nat) (hN : N ≤ s.nodeCount)
    (hpos : 0 < (s.list l).bucketCount.toNat)
    (hheads : ∀ b m, s.read (.head l b) = some m → N ≤ m ∧ m < s.nodeCount) :
    ∀ st ∈ copyStores c l s ps,
      CopyStore N (s.applyAll (copyStores c l s ps)).nodeCount l (s.list l).bucketCount st := by
  induction ps generalizing s with
  | nil => simp [copyStores]
  | cons p ps ih =>
    obtain ⟨hcount, -, hbuckets⟩ := applyAll_copyOne (c := c) (s := s) (l := l) p
    set t := s.applyAll (copyOne c s l p) with ht
    have hle : s.nodeCount + 1 ≤ (t.applyAll (copyStores c l t ps)).nodeCount := by
      rw [← hcount]
      exact nodeCount_le_applyAll _
    have hheads' : ∀ b m, t.read (.head l b) = some m → N ≤ m ∧ m < t.nodeCount := by
      intro b m hr
      rw [hcount]
      have he : t = ((s.apply (.newNode (s.key p) (s.value p))).write (.next s.nodeCount)
        (s.read (headOf c s l (s.key p)))).write (headOf c s l (s.key p)) (some s.nodeCount) := rfl
      rw [he, read_write, read_write, if_neg (by simp : Loc.head l b ≠ .next s.nodeCount)] at hr
      split at hr
      · cases hr
        omega
      · have hh := hheads b m hr
        omega
    have hh := ih (s := t) (by omega) (by rwa [hbuckets]) hheads'
    rw [hbuckets] at hh
    rw [copyStores, applyAll_append, ← ht]
    generalize (t.applyAll (copyStores c l t ps)).nodeCount = M at hle hh ⊢
    simp only [List.mem_append, or_imp, forall_and]
    refine ⟨?_, hh⟩
    simp only [copyOne, List.forall_mem_cons, List.not_mem_nil, false_imp_iff, implies_true, and_true]
    refine ⟨trivial, ⟨⟨hN, by omega⟩, fun m hm => ?_⟩, ⟨⟨rfl, bucketId_lt c hpos _⟩, ?_⟩⟩
    · have hb := hheads _ m hm
      omega
    · rintro m ⟨⟩
      omega

/-- The stores of a rehash, up to the one that retires the old list. -/
def GrowStore (s t : SegmentT Key Value) : Store Key Value → Prop
  | .newList bl => bl.head = fun _ => none
  | .publish l => l = t.bucketList
  | .retire l => l ≠ t.bucketList
  | .acquire _ => False
  | .setSize _ => False
  | .setThreshold _ => True
  | st => CopyStore s.nodeCount t.nodeCount s.listCount (t.list s.listCount).bucketCount st ∧
      t.bucketList = s.listCount ∧ s.listCount < t.listCount

theorem growStores_mem {grow : List (Store Key Value)} (h : Holds c s V W f)
    (hg : growStores c s = some grow) : ∀ st ∈ grow, GrowStore s (s.applyAll grow) st := by
  rw [growStores] at hg
  split at hg
  · obtain ⟨bl, hcount, hbl, rfl⟩ := rehashStores_eq hg
    set start : List (Store Key Value) := [.setThreshold (c.threshold bl.bucketCount), .newList bl]
    set s₀ := s.applyAll start with hs₀
    have hpos : 0 < (s₀.list s.listCount).bucketCount.toNat := h.newList_pos hcount
    have hheads : ∀ b m, s₀.read (.head s.listCount b) = some m →
        s.nodeCount ≤ m ∧ m < s₀.nodeCount := by
      intro b m hr
      simp [hs₀, start, applyAll, SegmentT.apply, SegmentT.read, hbl] at hr
    have hcopy := copyStores_mem (c := c) (s := s₀) s.sources le_rfl hpos hheads
    have hlt := listCount_fillStores (c := c) (s := s) bl
    have hcur : s.bucketList ≠ s.listCount := (h.lists _ h.current).ne
    have hbucket := bucketCount_applyAll (s := s₀) (Nat.lt_succ_self s.listCount)
      (copyStores c s.listCount s₀ s.sources)
    rw [applyAll_append]
    set t := s.applyAll (fillStores c s bl) with ht
    have hte : t = s₀.applyAll (copyStores c s.listCount s₀ s.sources) := applyAll_append _ _
    rw [← hte] at hcopy hbucket
    rw [← hbucket] at hcopy
    have hfin : ∀ st ∈ copyStores c s.listCount s₀ s.sources,
        GrowStore s (t.applyAll [.publish s.listCount, .retire s.bucketList]) st := by
      intro st hst
      have hh := hcopy st hst
      cases st with
      | newNode k v => exact ⟨trivial, rfl, hlt⟩
      | write loc p => exact ⟨hh, rfl, hlt⟩
      | _ => exact hh.elim
    simp only [fillStores, List.mem_append, or_imp, forall_and]
    refine ⟨⟨?_, hfin⟩, ?_⟩
    · simpa [GrowStore] using hbl
    · simpa [GrowStore, applyAll, SegmentT.apply] using hcur
  · cases hg
    simp

end Copies

section Linking

variable {c : Config Key} {s fin : SegmentT Key Value} {V V' W : Set Nat} {ch ch' : Nat → List Nat}
  {f f' : Key → Option Value} {k : Key} {v : Option Nat} {b m n new : Nat} {pre post : List Nat}

theorem Chains.bucket_lt {l : Nat} (h : Chains c s l V ch f) (hm : m ∈ ch b) :
    b < (s.list l).bucketCount.toNat := by
  rw [← h.index b m hm]
  exact bucketId_lt c h.pos _

theorem Chains.reach (h : Chains c s s.bucketList V ch f) (hm : m ∈ ch b) : Reach s m := by
  obtain ⟨pre, post, hch⟩ := List.append_of_mem hm
  have hl := h.linked b
  rw [hch] at hl
  obtain ⟨q, hpre, rfl, -⟩ := Segment.append_iff.1 hl
  exact ⟨b, h.bucket_lt hm, pre, hpre⟩

theorem Chains.mem_of_read {l : Nat} {old : List Nat} (h : Chains c s l V ch f) (pre : List Nat)
    (hch : ch b = pre ++ old) (hr : s.read (lastLoc (.head l b) pre) = some m) : m ∈ old := by
  have hl := h.linked b
  rw [hch] at hl
  obtain ⟨q, hpre, hold⟩ := Segment.append_iff.1 hl
  rw [read_lastLoc hpre] at hr
  subst hr
  cases old with
  | nil => cases hold
  | cons a old =>
    cases hold.1
    exact List.mem_cons_self

theorem Chains.next_mem {l : Nat} (h : Chains c s l V ch f) (hch : ch b = pre ++ n :: post)
    (hn : s.next n = some m) : m ∈ post := by
  have hl := h.linked b
  rw [hch] at hl
  obtain ⟨q, -, rfl, hpost⟩ := Segment.append_iff.1 hl
  rw [hn] at hpost
  cases post with
  | nil => cases hpost
  | cons a post =>
    cases hpost.1
    exact List.mem_cons_self

theorem Holds.mem_of_reach (h : Holds c s V W f) (hm : Reach s m) : m ∈ V := by
  obtain ⟨ch, hc⟩ := h.chains
  obtain ⟨b, -, pre, hpre⟩ := hm
  obtain ⟨post, hch, -⟩ := (hc.linked b).split hpre
  exact hc.mem b m (by simp [hch])

theorem Chains.lastLoc_alloc {l : Nat} {old : List Nat} (h : Chains c s l V ch f)
    (hch : ch b = pre ++ old) (hV : ∀ n ∈ V, n < s.nodeCount) (hl : l < s.listCount)
    (hb : b < (s.list l).bucketCount.toNat) : Allocated s (lastLoc (.head l b) pre) := by
  obtain he | ⟨a, ha, he⟩ := lastLoc_cases (.head l b) pre
  · rw [he]
    exact ⟨hl, hb⟩
  · rw [he]
    exact hV a (h.mem b a (hch ▸ List.mem_append_left _ ha))

theorem nodeCount_applyAll_eq {q : List (Store Key Value)} (h : ∀ k value, .newNode k value ∉ q) :
    (s.applyAll q).nodeCount = s.nodeCount := by
  induction q generalizing s with
  | nil => rfl
  | cons st q ih =>
    refine (ih (s := s.apply st) (fun k value hq => h k value (List.mem_cons_of_mem _ hq))).trans ?_
    cases st with
    | newNode k value => exact absurd List.mem_cons_self (h k value)
    | write loc p => exact nodeCount_write s loc p
    | _ => rfl

theorem acquireStores_same (o : Option Nat) : SameLinks s (s.applyAll (acquireStores o)) := by
  cases o with
  | none => exact ⟨rfl, rfl, rfl, rfl⟩
  | some m =>
    refine ⟨funext fun n => ?_, rfl, rfl, rfl⟩
    by_cases hn : n = m <;> simp [acquireStores, applyAll, SegmentT.apply, SegmentT.next, hn]

theorem mem_acquireStores {o : Option Nat} {st : Store Key Value} :
    st ∈ (acquireStores o : List (Store Key Value)) ↔ ∃ m, o = some m ∧ st = .acquire m := by
  cases o <;> simp [acquireStores]

theorem lastLoc_kept {old : List Nat} (hch : ch b = pre ++ old)
    (hk : ∀ m ∈ ch b, Kept fin v (.node m)) (hl : fin.bucketList = s.bucketList) :
    Kept fin v (lastLoc (.head s.bucketList b) pre).owner := by
  obtain he | ⟨a, ha, he⟩ := lastLoc_cases (.head s.bucketList b) pre
  · rw [he]
    exact hl.symm
  · rw [he]
    exact hk a (hch ▸ List.mem_append_left _ ha)

theorem Kept.of_chains (h : Chains c fin fin.bucketList V ch f) (hm : m ∈ ch b) :
    Kept fin v (.node m) :=
  .inr (h.reach hm)

/-- The chain of one bucket has lost the node `n` only. -/
theorem Kept.of_update {l : List Nat} (h : Chains c fin fin.bucketList V (Function.update ch b l) f)
    (hl : ∀ a ∈ ch b, n ≠ a → a ∈ l) (b' : Nat) (m : Nat) (hm : m ∈ ch b') : Kept fin (some n) (.node m) := by
  by_cases hmn : n = m
  · exact .inl (by rw [hmn])
  · refine Kept.of_chains h (b := b') ?_
    by_cases hbb : b' = b
    · subst hbb
      rw [Function.update_self]
      exact hl m hm hmn
    · rwa [Function.update_of_ne hbb]

variable [DecidableEq Key] {value : Value}

theorem insert_plan (h : Holds c s V W f) (hc : Chains c s s.bucketList V ch f) (hf : f k = none)
    (hnew : new ∉ V) (hlt : new < s.nodeCount) (hk : s.key new = k) (hnone : s.next new = none) :
    let q := insertPrefix c s k new ++ [.write (headOf c s s.bucketList k) (some new)]
    Plan s q none ∧ (∀ b, ∀ m ∈ ch b, Kept (s.applyAll q) none (.node m)) ∧
      Kept (s.applyAll q) none (.node new) ∧ (s.applyAll q).bucketList = s.bucketList := by
  intro q
  set fin := s.applyAll q with hfin
  have hbl : fin.bucketList = s.bucketList := by
    simp [hfin, q, insertPrefix, applyAll, SegmentT.apply]
  have hr := (h.insert_relinked hc hf hnew hlt hk rfl).chains
  have he : fin = (s.applyAll (insertPrefix c s k new)).write (headOf c s s.bucketList k) (some new) :=
    applyAll_append _ _
  rw [← he, ← hbl] at hr
  set b := bucketId c (s.list fin.bucketList).bucketCount k with hb
  have hkept : ∀ b', ∀ m ∈ ch b', Kept fin none (.node m) := by
    intro b' m hm
    refine Kept.of_chains hr (b := b') ?_
    by_cases hbb : b' = b
    · subst hbb
      simp [hm]
    · rwa [Function.update_of_ne hbb]
  have hkn : Kept fin none (.node new) := Kept.of_chains hr (b := b) (by simp)
  have hal : ∀ loc, Allocated s loc → Allocated fin loc := by
    intro loc hloc
    rw [he, allocated_write]
    simp only [insertPrefix, applyAll, List.foldl, SegmentT.apply, allocated_write]
    cases loc <;> exact hloc
  have hhead : Allocated s (headOf c s s.bucketList k) :=
    ⟨h.lists _ h.current, bucketId_lt c hc.pos k⟩
  have hread : ∀ m, s.read (headOf c s s.bucketList k) = some m → Kept fin none (.node m) := by
    intro m hm
    exact hkept _ m (hc.mem_of_read [] rfl hm)
  have hq : q = [.setSize (s.size + 1), .write (.next new) (s.read (headOf c s s.bucketList k)),
    .write (headOf c s s.bucketList k) (some new)] := rfl
  refine ⟨?_, hkept, hkn, hbl⟩
  constructor
  case target =>
    intro st hst o ho
    simp only [hq, List.mem_cons, List.not_mem_nil, or_false] at hst
    obtain rfl | rfl | rfl := hst <;> cases ho
    · exact hkn
    · exact hbl.symm
  case alloc =>
    intro loc p hw
    simp only [hq, List.mem_cons, List.not_mem_nil, or_false, reduceCtorEq, false_or,
      Store.write.injEq] at hw
    obtain ⟨rfl, -⟩ | ⟨rfl, -⟩ := hw
    · exact hal _ hlt
    · exact hal _ hhead
  case value =>
    intro loc m hw
    simp only [hq, List.mem_cons, List.not_mem_nil, or_false, reduceCtorEq, false_or,
      Store.write.injEq] at hw
    obtain ⟨-, hm⟩ | ⟨-, ⟨⟩⟩ := hw
    · exact hread m hm.symm
    · exact hkn
  case content =>
    intro loc p m hw _ hm
    simp only [hq, List.mem_cons, List.not_mem_nil, or_false, reduceCtorEq, false_or,
      Store.write.injEq] at hw
    obtain ⟨rfl, -⟩ | ⟨rfl, -⟩ := hw
    · rw [SegmentT.read, hnone] at hm
      cases hm
    · exact hread m hm
  all_goals simp [hq, Ordered]

theorem replace_plan (h : Holds c s V W f) (hc : Chains c s s.bucketList V ch f)
    (hch : ch b = pre ++ n :: post) (hkn : s.key n = k) (hnew : new ∉ V) (hlt : new < s.nodeCount)
    (hk : s.key new = k) (hnone : s.next new = none) :
    let q := replacePrefix s n new ++ [.write (lastLoc (.head s.bucketList b) pre) (some new)]
    Plan s q (some n) ∧ (∀ b, ∀ m ∈ ch b, Kept (s.applyAll q) (some n) (.node m)) ∧
      Kept (s.applyAll q) (some n) (.node new) ∧ (s.applyAll q).bucketList = s.bucketList := by
  intro q
  set prev := lastLoc (.head s.bucketList b) pre with hprev
  set s₁ := s.applyAll (acquireStores (s.next n)) with hs₁
  set fin := s.applyAll q with hfin
  have hnV : n ∈ V := hc.mem b n (by simp [hch])
  have hnd := hc.nodup_ids b
  rw [hch, List.nodup_middle, List.nodup_cons, List.mem_append, not_or] at hnd
  have hpre : ∀ a ∈ pre, a ∈ ch b := fun a ha => hch ▸ List.mem_append_left _ ha
  have hpost : ∀ a ∈ post, a ∈ ch b := by simp +contextual [hch]
  have hsame := acquireStores_same (s := s) (s.next n)
  have hr := (h.replace_relinked hc hch hkn hnew hlt hk rfl).chains
  have he : fin = (s₁.write (.next new) (s.next n)).write prev (some new) := by
    rw [hfin, applyAll_append, replacePrefix, applyAll_append]
    rfl
  have hbl : fin.bucketList = s.bucketList := by
    rw [he, bucketList_write, bucketList_write, hs₁]
    exact h.bucketList_applyAll (acquireStores_private _)
  have he' : fin = (s.applyAll (replacePrefix s n new)).write prev (some new) := applyAll_append _ _
  rw [← he', ← hbl] at hr
  have hkept : ∀ b', ∀ m ∈ ch b', Kept fin (some n) (.node m) := by
    apply Kept.of_update hr
    intro m hm hmn
    rw [hch, List.mem_append, List.mem_cons] at hm
    rw [List.mem_append, List.mem_cons]
    obtain hm | rfl | hm := hm
    · exact .inl hm
    · exact absurd rfl hmn
    · exact .inr (.inr hm)
  have hknew : Kept fin (some n) (.node new) := Kept.of_chains hr (b := b) (by simp)
  have hal : ∀ loc, Allocated s loc → Allocated fin loc := by
    intro loc hloc
    rw [he, allocated_write, allocated_write, hsame.allocated]
    exact hloc
  have hb := hc.bucket_lt (m := n) (b := b) (by simp [hch])
  have hprevAl : Allocated s prev := hc.lastLoc_alloc hch h.nodes (h.lists _ h.current) hb
  have hprevKept : Kept fin (some n) prev.owner := lastLoc_kept hch (hkept b) hbl
  have hnext : ∀ m, s.next n = some m → Kept fin (some n) (.node m) := fun m hm =>
    hkept b m (hpost m (hc.next_mem hch hm))
  have hpn : Loc.next new ≠ prev := next_ne_lastLoc (fun ha => hnew (hc.mem b new (hpre new ha)))
  have hfn : fin.next new = s.next n := by
    rw [he, next_write, if_neg hpn, next_write, if_pos rfl]
  have hfv : fin.next n = s.next n := by
    have hne : n ≠ new := ne_of_mem_of_not_mem hnV hnew
    rw [he, next_write, if_neg (next_ne_lastLoc hnd.1.1), next_write, if_neg (by simpa using hne),
      hsame.next]
  have hw : ∀ loc p, .write loc p ∈ q ↔
      (loc = .next new ∧ p = s.next n) ∨ (loc = prev ∧ p = some new) := by
    simp [q, replacePrefix, mem_acquireStores, hprev]
  have hq : q = acquireStores (s.next n) ++ [.write (.next new) (s.next n), .write prev (some new)] := by
    simp [q, replacePrefix, hprev]
  refine ⟨?_, hkept, hknew, hbl⟩
  constructor
  case target =>
    intro st hst o ho
    simp only [hq, List.mem_append, mem_acquireStores, List.mem_cons, List.not_mem_nil, or_false] at hst
    obtain ⟨m, hm, rfl⟩ | rfl | rfl := hst <;> cases ho
    · exact hnext m hm
    · exact hknew
    · exact hprevKept
  case alloc =>
    intro loc p hp
    obtain ⟨rfl, -⟩ | ⟨rfl, -⟩ := (hw loc p).1 hp
    · exact hal _ hlt
    · exact hal _ hprevAl
  case value =>
    intro loc m hp
    obtain ⟨-, hm⟩ | ⟨-, ⟨⟩⟩ := (hw loc _).1 hp
    · exact hnext m hm.symm
    · exact hknew
  case content =>
    intro loc p m hp _ hm
    obtain ⟨rfl, -⟩ | ⟨rfl, -⟩ := (hw loc p).1 hp
    · rw [SegmentT.read, hnone] at hm
      cases hm
    · exact hkept b m (hch ▸ List.mem_append_right _ (hc.mem_of_read pre hch hm))
  case acquire =>
    intro m hm
    have hm' : s.next n = some m := by
      simpa [hq, mem_acquireStores, eq_comm] using hm
    exact ⟨n, .next new, rfl, hfv.trans hm', by simpa using (ne_of_mem_of_not_mem hnV hnew).symm,
      hfn.trans hm', hal _ hlt, hknew⟩
  case ordered =>
    rw [hq]
    cases s.next n <;> simp [acquireStores, Ordered]
  all_goals simp [hq, mem_acquireStores]

theorem erase_plan (h : Holds c s V W f) (hc : Chains c s s.bucketList V ch f)
    (hch : ch b = pre ++ n :: post) (hkn : s.key n = k) :
    Plan s (erasePrefix s n ++ [.write (lastLoc (.head s.bucketList b) pre) (s.next n)]) (some n) := by
  set q := erasePrefix s n ++ [.write (lastLoc (.head s.bucketList b) pre) (s.next n)] with hqd
  set prev := lastLoc (.head s.bucketList b) pre with hprev
  set s₁ := s.applyAll (erasePrefix s n) with hs₁
  set fin := s.applyAll q with hfin
  have hnd := hc.nodup_ids b
  rw [hch, List.nodup_middle, List.nodup_cons, List.mem_append, not_or] at hnd
  have hpost : ∀ a ∈ post, a ∈ ch b := by simp +contextual [hch]
  have hsame : SameLinks s s₁ := by
    have hh := acquireStores_same (s := s.apply (.setSize (s.size - 1))) (s.next n)
    exact ⟨hh.next, hh.list, hh.nodeCount, hh.listCount⟩
  have hr := (h.erase_relinked hc hch hkn).chains
  have he : fin = s₁.write prev (s.next n) := applyAll_append _ _
  have hbl : fin.bucketList = s.bucketList := by
    rw [he, bucketList_write]
    exact h.bucketList_applyAll erasePrefix_private
  rw [← hs₁, ← hprev, ← he, ← hbl] at hr
  have hkept : ∀ b', ∀ m ∈ ch b', Kept fin (some n) (.node m) := by
    apply Kept.of_update hr
    intro m hm hmn
    rw [hch, List.mem_append, List.mem_cons] at hm
    rw [List.mem_append]
    obtain hm | rfl | hm := hm
    · exact .inl hm
    · exact absurd rfl hmn
    · exact .inr hm
  have hb := hc.bucket_lt (m := n) (b := b) (by simp [hch])
  have hprevAl : Allocated fin prev := by
    rw [he, allocated_write, hsame.allocated]
    exact hc.lastLoc_alloc hch h.nodes (h.lists _ h.current) hb
  have hprevKept : Kept fin (some n) prev.owner := lastLoc_kept hch (hkept b) hbl
  have hnext : ∀ m, s.next n = some m → Kept fin (some n) (.node m) := fun m hm =>
    hkept b m (hpost m (hc.next_mem hch hm))
  have hpn : Loc.next n ≠ prev := next_ne_lastLoc hnd.1.1
  have hfv : fin.next n = s.next n := by rw [he, next_write, if_neg hpn, hsame.next]
  have hfp : fin.read prev = s.next n := by rw [he, read_write, if_pos rfl]
  have hw : ∀ loc p, .write loc p ∈ q ↔ loc = prev ∧ p = s.next n := by
    simp [hqd, erasePrefix, mem_acquireStores]
  constructor
  case target =>
    intro st hst o ho
    simp only [hqd, erasePrefix, List.cons_append, List.mem_append, mem_acquireStores, List.mem_cons,
      List.not_mem_nil, or_false] at hst
    obtain rfl | ⟨m, hm, rfl⟩ | rfl := hst <;> cases ho
    · exact hnext m hm
    · exact hprevKept
  case alloc =>
    intro loc p hp
    obtain ⟨rfl, -⟩ := (hw loc p).1 hp
    exact hprevAl
  case value =>
    intro loc m hp
    obtain ⟨-, hm⟩ := (hw loc _).1 hp
    exact hnext m hm.symm
  case content =>
    intro loc p m hp _ hm
    obtain ⟨rfl, -⟩ := (hw loc p).1 hp
    exact hkept b m (hch ▸ List.mem_append_right _ (hc.mem_of_read pre hch hm))
  case acquire =>
    intro m hm
    have hm' : s.next n = some m := by
      simpa [hqd, erasePrefix, mem_acquireStores, eq_comm] using hm
    exact ⟨n, prev, rfl, hfv.trans hm', hpn.symm, hfp.trans hm', hprevAl, hprevKept⟩
  case ordered =>
    rw [hqd, erasePrefix]
    cases s.next n <;> simp [acquireStores, Ordered]
  all_goals simp [hqd, erasePrefix, mem_acquireStores]

theorem linkStores_plan (h : Holds c s V W f) (hc : Chains c s s.bucketList V ch f) (hnew : new ∉ V)
    (hlt : new < s.nodeCount) (hk : s.key new = k) (hnone : s.next new = none) :
    let link := linkStores c s k new
    Plan s link.1 link.2 ∧ (∀ b, ∀ m ∈ ch b, Kept (s.applyAll link.1) link.2 (.node m)) ∧
      Kept (s.applyAll link.1) link.2 (.node new) ∧ (s.applyAll link.1).bucketList = s.bucketList := by
  obtain ⟨hs, hf⟩ | ⟨b, pre, n, post, hch, hkn, -, hs⟩ := h.search_cases hc k
  · have he : linkStores c s k new =
        (insertPrefix c s k new ++ [.write (headOf c s s.bucketList k) (some new)], none) := by
      simp [linkStores, hs, insertPrefix]
    rw [he]
    exact insert_plan h hc hf hnew hlt hk hnone
  · have he : linkStores c s k new =
        (replacePrefix s n new ++ [.write (lastLoc (.head s.bucketList b) pre) (some new)], some n) := by
      simp [linkStores, hs, replacePrefix]
    rw [he]
    exact replace_plan h hc hch hkn hnew hlt hk hnone

end Linking

section Sections

variable {c : Config Key} {s : SegmentT Key Value} {V W : Set Nat} {f : Key → Option Value}
  {q grow : List (Store Key Value)} {v : Option Nat}

theorem ordered_append {cur : Nat} (h : ∀ st ∈ grow, ∀ l, st ≠ .publish l ∧ st ≠ .retire l) :
    Ordered cur (grow ++ q) ↔ Ordered cur q := by
  induction grow with
  | nil => rfl
  | cons st grow ih =>
    rw [List.forall_mem_cons] at h
    rw [← ih h.2]
    cases st with
    | publish l => exact absurd rfl (h.1 l).1
    | retire l => exact absurd rfl (h.1 l).2
    | _ => rfl

theorem copyStores_shape {l : Nat} (ps : List Nat) :
    ∀ st ∈ copyStores c l s ps, (∃ k value, st = .newNode k value) ∨ ∃ loc p, st = .write loc p := by
  induction ps generalizing s with
  | nil => simp [copyStores]
  | cons p ps ih =>
    simp only [copyStores, List.mem_append, or_imp, forall_and]
    exact ⟨by simp [copyOne], ih⟩

theorem growStores_ordered (h : Holds c s V W f) (hg : growStores c s = some grow)
    (ho : Ordered (s.applyAll grow).bucketList q) : Ordered s.bucketList (grow ++ q) := by
  rw [growStores] at hg
  split at hg
  · obtain ⟨bl, -, -, rfl⟩ := rehashStores_eq hg
    rw [List.append_assoc, ordered_append]
    · rw [applyAll_append] at ho
      exact ⟨(h.lists _ h.current).ne, ho⟩
    · intro st hst l
      simp only [fillStores, List.mem_append, List.mem_cons, List.not_mem_nil, or_false] at hst
      obtain (rfl | rfl) | hst := hst
      · simp
      · simp
      · obtain ⟨k, value, rfl⟩ | ⟨loc, p, rfl⟩ := copyStores_shape _ _ hst <;> simp
  · cases hg
    exact ho

theorem Plan.newNode {k : Key} {value : Value} (h : Plan (s.apply (.newNode k value)) q v) :
    Plan s (.newNode k value :: q) v where
  target st hst o ho := by
    obtain rfl | hst := List.mem_cons.1 hst
    · cases ho
    · exact h.target st hst o ho
  alloc loc p hw := h.alloc loc p (by simpa using hw)
  value loc m hw := h.value loc m (by simpa using hw)
  content loc p m hw hal hr := by
    refine h.content loc p m (by simpa using hw) ?_ ?_
    · cases loc with
      | head l b => exact hal
      | next n => exact Nat.lt_succ_of_lt hal
    · cases loc with
      | head l b => exact hr
      | next n =>
        have hne : n ≠ s.nodeCount := Nat.ne_of_lt hal
        simpa [SegmentT.read, SegmentT.next, SegmentT.apply, hne] using hr
  empty bl hb := h.empty bl (by simpa using hb)
  acquire m hm := h.acquire m (by simpa using hm)
  ordered := h.ordered
  publish l hl := h.publish l (by simpa using hl)
  retire l hl := h.retire l (by simpa using hl)

/-- The stores of a rehash before the rest of a section. -/
theorem Plan.prepend (h : Holds c s V W f) (hg : growStores c s = some grow)
    (hp : Plan (s.applyAll grow) q v)
    (hk : ∀ n, s.nodeCount ≤ n → n < (s.applyAll grow).nodeCount →
      Kept ((s.applyAll grow).applyAll q) v (.node n))
    (hbl : ((s.applyAll grow).applyAll q).bucketList = (s.applyAll grow).bucketList) :
    Plan s (grow ++ q) v := by
  have hmem := growStores_mem h hg
  obtain ⟨hnode, hlist⟩ := applyAll_fresh (growStores_fresh hg) le_rfl le_rfl
  have hle := nodeCount_le_applyAll (s := s.applyAll grow) q
  set t := s.applyAll grow with ht
  have hfin : s.applyAll (grow ++ q) = t.applyAll q := applyAll_append _ _
  constructor <;> try simp only [hfin, List.mem_append]
  case target =>
    rintro st (hst | hst) o ho
    · have hm := hmem st hst
      cases st with
      | write loc p =>
        cases ho
        cases loc with
        | next n => exact hk n hm.1.1.1 hm.1.1.2
        | head l b => exact hm.1.1.1.trans (hm.2.1.symm.trans hbl.symm)
      | acquire n => exact hm.elim
      | _ => cases ho
    · exact hp.target st hst o ho
  case alloc =>
    rintro loc p (hw | hw)
    · have hm := hmem _ hw
      cases loc with
      | next n => exact hm.1.1.2.trans_le hle
      | head l b =>
        obtain ⟨⟨⟨rfl, hb⟩, -⟩, -, hlt⟩ := hm
        refine ⟨hlt.trans_le (listCount_le_applyAll q), ?_⟩
        rwa [bucketCount_applyAll hlt]
    · exact hp.alloc loc p hw
  case value =>
    rintro loc m (hw | hw)
    · have hm := hmem _ hw
      cases loc with
      | next n => exact hk m (hm.1.2 m rfl).1 (hm.1.2 m rfl).2
      | head l b => exact hk m (hm.1.2 m rfl).1 (hm.1.2 m rfl).2
    · exact hp.value loc m hw
  case content =>
    rintro loc p m (hw | hw) hal hr
    · have hm := hmem _ hw
      cases loc with
      | next n => exact absurd hm.1.1.1 (Nat.not_le.2 hal)
      | head l b => exact absurd hm.1.1.1 (Nat.ne_of_lt hal.1)
    · refine hp.content loc p m hw ?_ ?_
      · cases loc with
        | next n => exact lt_of_lt_of_le hal (nodeCount_le_applyAll grow)
        | head l b => exact ⟨hal.1.trans_le (listCount_le_applyAll grow), by rw [hlist l hal.1]; exact hal.2⟩
      · cases loc with
        | next n => rwa [SegmentT.read, SegmentT.next, hnode n hal]
        | head l b => rwa [SegmentT.read, hlist l hal.1]
  case empty =>
    rintro bl (hb | hb)
    · exact hmem _ hb
    · exact hp.empty bl hb
  case acquire =>
    rintro m (hm | hm)
    · exact (hmem _ hm).elim
    · exact hp.acquire m hm
  case ordered => exact growStores_ordered h hg hp.ordered
  case publish =>
    rintro l (hl | hl)
    · exact (hmem _ hl).trans hbl.symm
    · exact hp.publish l hl
  case retire =>
    rintro l (hl | hl)
    · rw [hbl]
      exact hmem _ hl
    · exact hp.retire l hl

variable [DecidableEq Key]

omit [DecidableEq Key] in
/-- The node of a section is in no chain that was there or that a rehash made. -/
theorem Holds.newNode_notMem {V' : Set Nat} (h : Holds c s V W f)
    (hV : ∀ n ∈ V', n ∈ V ∨ s.nodeCount < n) : s.nodeCount ∉ V' := by
  intro hn
  obtain hn | hn := hV _ hn
  · exact (h.nodes _ hn).ne rfl
  · exact hn.ne rfl

theorem insertSection_plan {k : Key} {value : Value} {sec : List (Store Key Value) × Option Nat}
    (h : Holds c s V W f) (hs : insertSection c s k value = some sec) : Plan s sec.1 sec.2 := by
  obtain ⟨grow, hg, rfl⟩ := Option.map_eq_some_iff.1 hs
  have hnew : Private V W (.newNode k value : Store Key Value) := trivial
  have h₁ := h.apply hnew
  obtain ⟨V', W', ch, h₂, hV, hc, hall, -, -⟩ := growStores_safe h₁ hg
  have hlt : s.nodeCount < (s.apply (.newNode k value)).nodeCount := Nat.lt_succ_self _
  have hnV : s.nodeCount ∉ V' := h.newNode_notMem hV
  have hnode := (applyAll_fresh (growStores_fresh hg) le_rfl le_rfl).1 s.nodeCount hlt
  have hentry : (s.apply (.newNode k value)).node s.nodeCount = ⟨k, value, none, 1⟩ := by
    simp [SegmentT.apply]
  rw [hentry] at hnode
  obtain ⟨hp, hkept, -, hbl⟩ := linkStores_plan (k := k) h₂ hc hnV
    (hlt.trans_le (nodeCount_le_applyAll grow)) (by rw [SegmentT.key, hnode])
    (by rw [SegmentT.next, hnode])
  refine Plan.newNode (Plan.prepend h₁ hg hp (fun n hn hlt' => ?_) hbl)
  obtain ⟨b, hb⟩ := hall n hn hlt'
  exact hkept b n hb

theorem eraseSection_plan (h : Holds c s V W f) (k : Key) :
    Plan s (eraseSection c s k).1 (eraseSection c s k).2 := by
  obtain ⟨ch, hc⟩ := h.chains
  obtain ⟨hs, -⟩ | ⟨b, pre, n, post, hch, hkn, -, hs⟩ := h.search_cases hc k
  · have he : eraseSection c s k = ([], none) := by simp [eraseSection, hs]
    rw [he]
    constructor <;> simp [Ordered]
  · have he : eraseSection c s k =
        (erasePrefix s n ++ [.write (lastLoc (.head s.bucketList b) pre) (s.next n)], some n) := by
      simp [eraseSection, hs, erasePrefix]
    rw [he]
    exact erase_plan h hc hch hkn

omit [DecidableEq Key] in
theorem clearStores_plan (s : SegmentT Key Value) : Plan s s.clearStores none := by
  constructor <;> simp [clearStores, Store.target, Ordered, applyAll, SegmentT.apply]

end Sections

section Settled

variable {c : Config Key} {s : SegmentT Key Value} {V W : Set Nat} {f : Key → Option Value}
  {D : List Obj} {ch : Nat → List Nat} {k : Key} {x n new b : Nat} {pre post : List Nat}

theorem refcount_write (loc : Loc) (p : Option Nat) (x : Nat) :
    ((s.write loc p).node x).refcount = (s.node x).refcount := by
  cases loc with
  | head l b => rfl
  | next n => by_cases hn : x = n <;> simp [SegmentT.write, hn]

theorem refcount_acquireStores (o : Option Nat) (x : Nat) :
    ((s.applyAll (acquireStores o)).node x).refcount =
      (s.node x).refcount + BitVec.ofNat 16 (hit o x) := by
  cases o with
  | none => simp [acquireStores, applyAll]
  | some m =>
    by_cases hx : x = m
    · subst hx
      simp [acquireStores, applyAll, SegmentT.apply]
    · have hne : ¬ m = x := fun he => hx he.symm
      simp [acquireStores, applyAll, SegmentT.apply, hx, hit, hne]

/-- The links and counts that `insert_internal` leaves after the rehash. -/
theorem insert_settled (hn : .next new ∈ locs D s) (hhead : headOf c s s.bucketList k ∈ locs D s)
    (hnone : s.next new = none) (x : Nat) :
    let fin := s.applyAll (insertPrefix c s k new ++ [.write (headOf c s s.bucketList k) (some new)])
    links D fin x = links D s x + hit (some new) x ∧ (fin.node x).refcount = (s.node x).refcount := by
  intro fin
  set s₁ := s.apply (.setSize (s.size + 1)) with hs₁
  have hsame : SameLinks s s₁ := ⟨rfl, rfl, rfl, rfl⟩
  have he : fin = (s₁.write (.next new) (s.read (headOf c s s.bucketList k))).write
    (headOf c s s.bucketList k) (some new) := rfl
  rw [← hsame.locs] at hn hhead
  have hh := links_link (p := s.read (headOf c s s.bucketList k)) hn hhead (by simp [headOf]) hnone x
  rw [hsame.links, hsame.read] at hh
  refine ⟨?_, ?_⟩
  · rw [he]
    omega
  · rw [he, refcount_write, refcount_write]
    rfl

theorem replace_settled (hn : .next new ∈ locs D s) (hprev : lastLoc (.head s.bucketList b) pre ∈ locs D s)
    (hne : lastLoc (.head s.bucketList b) pre ≠ .next new) (hnone : s.next new = none)
    (hread : s.read (lastLoc (.head s.bucketList b) pre) = some n) (x : Nat) :
    let fin := s.applyAll (replacePrefix s n new ++ [.write (lastLoc (.head s.bucketList b) pre) (some new)])
    links D fin x + hit (some n) x = links D s x + hit (s.next n) x + hit (some new) x ∧
      (fin.node x).refcount = (s.node x).refcount + BitVec.ofNat 16 (hit (s.next n) x) := by
  intro fin
  set prev := lastLoc (.head s.bucketList b) pre
  set s₁ := s.applyAll (acquireStores (s.next n)) with hs₁
  have hsame : SameLinks s s₁ := acquireStores_same _
  have he : fin = (s₁.write (.next new) (s.next n)).write prev (some new) := by
    change s.applyAll _ = _
    rw [applyAll_append, replacePrefix, applyAll_append]
    rfl
  rw [← hsame.locs] at hn hprev
  have hh := links_link (p := s.next n) hn hprev hne (by rw [hsame.next, hnone]) x
  rw [hsame.links, hsame.read, hread] at hh
  refine ⟨?_, ?_⟩
  · rw [he]
    exact hh
  · rw [he, refcount_write, refcount_write, hs₁, refcount_acquireStores]

theorem erase_settled (hprev : lastLoc (.head s.bucketList b) pre ∈ locs D s)
    (hread : s.read (lastLoc (.head s.bucketList b) pre) = some n) (x : Nat) :
    let fin := s.applyAll (erasePrefix s n ++ [.write (lastLoc (.head s.bucketList b) pre) (s.next n)])
    links D fin x + hit (some n) x = links D s x + hit (s.next n) x ∧
      (fin.node x).refcount = (s.node x).refcount + BitVec.ofNat 16 (hit (s.next n) x) := by
  intro fin
  set prev := lastLoc (.head s.bucketList b) pre
  set s₀ := s.apply (.setSize (s.size - 1))
  set s₁ := s₀.applyAll (acquireStores (s.next n)) with hs₁
  have hsame : SameLinks s s₁ := by
    have hh := acquireStores_same (s := s₀) (s.next n)
    exact ⟨hh.next, hh.list, hh.nodeCount, hh.listCount⟩
  have he : fin = s₁.write prev (s.next n) := applyAll_append _ _
  rw [← hsame.locs] at hprev
  have hh := links_write (x := x) hprev (s.next n)
  rw [hsame.links, hsame.read, hread] at hh
  refine ⟨?_, ?_⟩
  · rw [he]
    exact hh
  · rw [he, refcount_write, hs₁, refcount_acquireStores]
    rfl

variable [DecidableEq Key]

theorem linkStores_nodeCount (c : Config Key) (s : SegmentT Key Value) (k : Key) (new : Nat) :
    (s.applyAll (linkStores c s k new).1).nodeCount = s.nodeCount := by
  refine nodeCount_applyAll_eq (fun k' value => ?_)
  rw [linkStores]
  split <;> simp [mem_acquireStores]

theorem linkStores_settled (h : Holds c s V W f) (hc : Chains c s s.bucketList V ch f) (hnew : new ∉ V)
    (hlt : new < s.nodeCount) (hnone : s.next new = none)
    (hD : ∀ st ∈ (linkStores c s k new).1, ∀ o, st.target = some o → o ∉ D) :
    ∃ a, (∀ x, links D (s.applyAll (linkStores c s k new).1) x + hit (linkStores c s k new).2 x =
        links D s x + hit a x + hit (some new) x ∧
      ((s.applyAll (linkStores c s k new).1).node x).refcount =
        (s.node x).refcount + BitVec.ofNat 16 (hit a x)) ∧
      (∀ x, a = some x → ∃ b n, n ∈ ch b ∧ x ∈ ch b ∧ s.next n = some x) ∧
      ∀ n, (linkStores c s k new).2 = some n → ∃ b, n ∈ ch b := by
  obtain ⟨hs, hf⟩ | ⟨b, pre, n, post, hch, hkn, -, hs⟩ := h.search_cases hc k
  · have he : linkStores c s k new =
        (insertPrefix c s k new ++ [.write (headOf c s s.bucketList k) (some new)], none) := by
      simp [linkStores, hs, insertPrefix]
    rw [he] at hD ⊢
    have hn : .next new ∈ locs D s :=
      mem_locs.2 ⟨hlt, hD (.write (.next new) (s.read (headOf c s s.bucketList k))) (by simp [insertPrefix]) _ rfl⟩
    have hhead : headOf c s s.bucketList k ∈ locs D s :=
      mem_locs.2 ⟨⟨h.lists _ h.current, bucketId_lt c hc.pos k⟩, hD (.write _ (some new)) (by simp) _ rfl⟩
    refine ⟨none, fun x => ?_, by simp, by simp⟩
    obtain ⟨hl, hr⟩ := insert_settled hn hhead hnone x
    exact ⟨by simpa using hl, by simpa using hr⟩
  · have he : linkStores c s k new =
        (replacePrefix s n new ++ [.write (lastLoc (.head s.bucketList b) pre) (some new)], some n) := by
      simp [linkStores, hs, replacePrefix]
    rw [he] at hD ⊢
    have hb := hc.bucket_lt (m := n) (b := b) (by simp [hch])
    have hn : .next new ∈ locs D s :=
      mem_locs.2 ⟨hlt, hD (.write (.next new) (s.next n)) (by simp [replacePrefix]) _ rfl⟩
    have hprev : lastLoc (.head s.bucketList b) pre ∈ locs D s :=
      mem_locs.2 ⟨hc.lastLoc_alloc hch h.nodes (h.lists _ h.current) hb,
        hD (.write _ (some new)) (by simp) _ rfl⟩
    have hne : lastLoc (.head s.bucketList b) pre ≠ .next new :=
      (next_ne_lastLoc (fun ha => hnew (hc.mem b new (hch ▸ List.mem_append_left _ ha)))).symm
    have hl := hc.linked b
    rw [hch] at hl
    obtain ⟨q, hpre, rfl, -⟩ := Segment.append_iff.1 hl
    refine ⟨s.next n, fun x => replace_settled hn hprev hne hnone (read_lastLoc hpre) x, fun x hx => ?_, ?_⟩
    · exact ⟨b, n, by simp [hch], by simp [hch, hc.next_mem hch hx], hx⟩
    · rintro m ⟨⟩
      exact ⟨b, by simp [hch]⟩

theorem eraseSection_settled (h : Holds c s V W f) (k : Key)
    (hD : ∀ st ∈ (eraseSection c s k).1, ∀ o, st.target = some o → o ∉ D) :
    ∃ a, Settled D s (s.applyAll (eraseSection c s k).1) (eraseSection c s k).2 a := by
  obtain ⟨ch, hc⟩ := h.chains
  obtain ⟨hs, -⟩ | ⟨b, pre, n, post, hch, hkn, -, hs⟩ := h.search_cases hc k
  · have he : eraseSection c s k = ([], none) := by simp [eraseSection, hs]
    rw [he]
    refine ⟨none, le_rfl, fun x hx => ?_, fun x hx => ?_, by simp, by simp⟩
    · have hlt : x < s.nodeCount := hx
      simp [applyAll, hlt]
    · have hlt : x < s.nodeCount := hx
      simp [applyAll, hlt]
  · have he : eraseSection c s k =
        (erasePrefix s n ++ [.write (lastLoc (.head s.bucketList b) pre) (s.next n)], some n) := by
      simp [eraseSection, hs, erasePrefix]
    rw [he] at hD ⊢
    have hnch : n ∈ ch b := by simp [hch]
    have hnlt : n < s.nodeCount := h.nodes _ (hc.mem b n hnch)
    have hcount : (s.applyAll (erasePrefix s n ++
        [.write (lastLoc (.head s.bucketList b) pre) (s.next n)])).nodeCount = s.nodeCount := by
      refine nodeCount_applyAll_eq (fun k value => ?_)
      simp [erasePrefix, mem_acquireStores]
    have hprev : lastLoc (.head s.bucketList b) pre ∈ locs D s :=
      mem_locs.2 ⟨hc.lastLoc_alloc hch h.nodes (h.lists _ h.current) (hc.bucket_lt hnch),
        hD (.write _ (s.next n)) (by simp) _ rfl⟩
    have hl := hc.linked b
    rw [hch] at hl
    obtain ⟨q, hpre, rfl, -⟩ := Segment.append_iff.1 hl
    have hset := erase_settled hprev (read_lastLoc hpre)
    refine ⟨s.next n, hcount.ge, fun x hx => ?_, fun x hx => ?_, fun x hx hn => ?_, ?_⟩
    · rw [if_pos (hcount ▸ hx)]
      exact (hset x).1
    · rw [if_pos (hcount ▸ hx)]
      exact (hset x).2
    · exact ⟨n, hnlt, hc.reach hnch, hn⟩
    · rintro m ⟨⟩
      exact hcount ▸ hnlt

omit [DecidableEq Key] in
/-- The node that `insert` makes is on no chain yet. -/
theorem Holds.reach_newNode {value : Value} (h : Holds c s V W f)
    (hn : Reach (s.apply (.newNode k value)) n) :
    n < s.nodeCount ∧ Reach s n ∧ s.next n = (s.apply (.newNode k value)).next n := by
  obtain ⟨ch, hc⟩ := h.chains
  obtain ⟨b, hb, pre, hpre⟩ := hn
  have hag : Agree s (s.apply (.newNode k value)) V :=
    Private.agree (V := V) (W := W) trivial h.nodes
  have hl : Segment (s.apply (.newNode k value)).next (s.read (.head s.bucketList b)) (ch b) none :=
    (hc.linked b).congr (fun a ha => (hag a (hc.mem b a ha)).1)
  obtain ⟨post, hch, -⟩ := hl.split hpre
  have hV : ∀ a ∈ pre ++ n :: post, a ∈ V := fun a ha => hc.mem b a (hch ▸ ha)
  refine ⟨h.nodes n (hV n (by simp)), ⟨b, hb, pre, hpre.congr fun a ha => ?_⟩, ?_⟩
  · exact (hag a (hV a (by simp [ha]))).1.symm
  · exact (hag n (hV n (by simp))).1.symm

theorem insertSection_settled {value : Value} {sec : List (Store Key Value) × Option Nat}
    (h : Holds c s V W f) (hcl : Closed s) (hs : insertSection c s k value = some sec)
    (hD : ∀ st ∈ sec.1, ∀ o, st.target = some o → o ∉ D) (hnew : ∀ n, s.nodeCount ≤ n → .node n ∉ D)
    (hlist : .list s.listCount ∉ D) : ∃ a, Settled D s (s.applyAll sec.1) sec.2 a := by
  obtain ⟨grow, hg, rfl⟩ := Option.map_eq_some_iff.1 hs
  have h₁ : Holds c (s.apply (.newNode k value)) V W f := h.apply trivial
  set s₁ := s.apply (.newNode k value) with hs₁
  obtain ⟨V', W', ch, h₂, hV, hc, -, hold, -⟩ := growStores_safe h₁ hg
  have hlt : s.nodeCount < s₁.nodeCount := Nat.lt_succ_self _
  have hcount₁ : s₁.nodeCount = s.nodeCount + 1 := rfl
  have hnV : s.nodeCount ∉ V' := h.newNode_notMem hV
  have hnode := (applyAll_fresh (growStores_fresh hg) le_rfl le_rfl).1 s.nodeCount hlt
  set t := s₁.applyAll grow with ht
  have hnone : t.next s.nodeCount = none := by
    rw [SegmentT.next, hnode]
    simp [hs₁, SegmentT.apply]
  have hcount : s₁.nodeCount ≤ t.nodeCount := nodeCount_le_applyAll grow
  obtain ⟨a, hset, ha, hv⟩ := linkStores_settled h₂ hc hnV (hlt.trans_le hcount) hnone
    (fun st hst => hD st (List.mem_append_right _ hst))
  set link := linkStores c t k s.nodeCount
  have hfin : s.applyAll (.newNode k value :: grow ++ link.1) = t.applyAll link.1 := applyAll_append grow _
  have hfc : (t.applyAll link.1).nodeCount = t.nodeCount := linkStores_nodeCount _ _ _ _
  have hzero : ∀ x, s.nodeCount ≤ x → links D s x = 0 := by
    intro x hx
    refine tally_eq_zero fun loc hloc hr => ?_
    exact (hcl loc x (mem_locs.1 hloc).1 hr).not_ge hx
  refine ⟨a, ?_⟩
  simp only [hfin]
  refine ⟨by omega, fun x hx => ?_, fun x hx => ?_, fun x hx hax => ?_, fun n hn => ?_⟩
  · have hl := (hset x).1
    have hgrow : links D t x = links D s₁ x + if s₁.nodeCount ≤ x ∧ x < t.nodeCount then 1 else 0 :=
      links_growStores h₁ hg hlist (fun n hn => hnew n (by omega)) x
    rw [hgrow, hs₁, links_newNode, ← hs₁] at hl
    rw [hl]
    have hself : hit (some s.nodeCount) x = if s.nodeCount = x then 1 else 0 := by simp [hit]
    have hz := hzero x
    rw [hself]
    split_ifs <;> omega
  · have hr := (hset x).2
    have hno : ∀ n, .acquire n ∉ (.newNode k value :: grow : List (Store Key Value)) := by
      intro n hn
      obtain hn | hn := List.mem_cons.1 hn
      · cases hn
      · exact growStores_fresh hg _ hn
    have hb := refcount_applyAll (s := s) (x := x) hno (hfc ▸ hx)
    rw [hr]
    exact congrArg (· + BitVec.ofNat 16 (hit a x)) hb
  · obtain ⟨b, n, hn, hxb, hnext⟩ := ha x hax
    obtain hgr | hgr := hold
    · subst hgr
      obtain ⟨hlt, hre, he⟩ := h.reach_newNode (hc.reach hn)
      exact ⟨n, hlt, hre, he.trans hnext⟩
    · exact absurd (hgr b x hxb) (by omega)
  · obtain ⟨b, hb⟩ := hv n hn
    rw [hfc]
    exact h₂.nodes n (hc.mem b n hb)

omit [DecidableEq Key] in
theorem clearStores_settled (D : List Obj) (s : SegmentT Key Value) :
    Settled D s (s.applyAll s.clearStores) none none := by
  have hl : ∀ x, links D (s.applyAll s.clearStores) x = links D s x := by
    intro x
    have hsame : SameLinks (s.apply (.newList { s.list s.bucketList with head := fun _ => none }))
      (s.applyAll s.clearStores) := ⟨rfl, rfl, rfl, rfl⟩
    rw [hsame.links, links_newList rfl]
  refine ⟨le_rfl, fun x hx => ?_, fun x hx => ?_, by simp, by simp⟩
  · rw [hl, if_pos (by exact hx)]
  · rw [if_pos (by exact hx)]
    simp [clearStores, applyAll, SegmentT.apply]

end Settled

end Wizard.HashMap
