import Wizard.HashMapCounts
import Wizard.HashMapFind

/-! While every node has fewer than `2 ^ 16` links, a node is retired when its
last link is gone and not before, so nothing that is linked is destroyed. -/

namespace Wizard.HashMap.Reclaim

open SegmentT

variable {Key Value : Type}

/-- No node has `2 ^ 16` links. -/
def Bounded (s : State Key Value) : Prop := ∀ x, s.count x < 2 ^ 16

/-- A node is retired once if it has no link, and otherwise not. -/
def Exact (s : State Key Value) : Prop :=
  ∀ x < s.fin.nodeCount, s.seg.retired.count (.node x) = if s.count x = 0 then 1 else 0

section Alive

variable {c : Config Key} {s t : State Key Value} {v v' : Option Nat} {q : List (Store Key Value)}
  {d : List Task} {n l m x : Nat}

theorem Sane.closed_fin (h : Sane c s v) : Closed s.fin := h.closed.applyAll h.scope

theorem Sane.nodeCount_le (s : State Key Value) : s.seg.nodeCount ≤ s.fin.nodeCount :=
  nodeCount_le_applyAll _

theorem Sane.lt_of_count_pos (h : Sane c s v) (hx : 0 < s.count x) : x < s.fin.nodeCount := by
  have hcases : 0 < links s.destroyed s.fin x ∨ 0 < s.tasks.count (.release x) ∨
      0 < s.deferred.count (.release x) := by
    rw [State.count] at hx
    omega
  obtain hp | hp | hp := hcases
  · obtain ⟨loc, hloc, hr⟩ := exists_of_tally_pos hp
    exact h.closed_fin loc x (mem_locs.1 hloc).1 hr
  · exact (h.task x (List.count_pos_iff.1 hp)).trans_le (Sane.nodeCount_le s)
  · rw [h.release] at hp
    exact h.victim x (hit_pos.1 hp)

/-- A node with a link is neither retired nor destroyed. -/
theorem Exact.alive (he : Exact s) (h : Sane c s v) (hx : 0 < s.count x) :
    .node x ∉ s.seg.retired ∧ .node x ∉ s.destroyed := by
  have hno : .node x ∉ s.seg.retired := by
    rw [← List.count_eq_zero, he x (h.lt_of_count_pos hx), if_neg hx.ne']
  exact ⟨hno, fun hd => hno (h.destroyed _ hd)⟩

theorem Exact.count_eq_zero (he : Exact s) (h : Sane c s v) (hr : .node x ∈ s.seg.retired) :
    s.count x = 0 := by
  by_contra hne
  exact (he.alive h (Nat.pos_of_ne_zero hne)).1 hr

theorem links_le_count (s : State Key Value) (x : Nat) : links s.destroyed s.fin x ≤ s.count x := by
  rw [State.count]
  omega

theorem count_pos_of_read (loc : Loc) (hloc : loc ∈ locs s.destroyed s.fin) (hr : s.fin.read loc = some m) :
    0 < s.count m :=
  (tally_pos hloc hr : 0 < links s.destroyed s.fin m).trans_le (links_le_count s m)

theorem Sane.list_alive (h : Sane c s v) : .list s.fin.bucketList ∉ s.destroyed :=
  fun hd => (h.list _ (.inl (h.destroyed _ hd))).2.2 rfl

/-- A chain that starts at a live location leads to nodes with a link. -/
theorem Exact.links_pos_of_segment (he : Exact s) (h : Sane c s v) {pre : List Nat} (loc : Loc)
    (hloc : loc ∈ locs s.destroyed s.fin) (hs : Segment s.fin.next (s.fin.read loc) pre (some m)) :
    0 < links s.destroyed s.fin m := by
  induction pre generalizing loc with
  | nil => exact tally_pos hloc hs
  | cons a pre ih =>
    have ha := count_pos_of_read loc hloc hs.1
    exact ih (.next a) (mem_locs.2 ⟨h.lt_of_count_pos ha, (he.alive h ha).2⟩) hs.2

theorem Exact.links_pos_of_reach (he : Exact s) (h : Sane c s v) (hm : Reach s.fin m) :
    0 < links s.destroyed s.fin m := by
  obtain ⟨b, hb, pre, hs⟩ := hm
  obtain ⟨V, W, f, hh⟩ := h.holds
  exact he.links_pos_of_segment h (.head s.fin.bucketList b)
    (mem_locs.2 ⟨⟨hh.lists _ hh.current, hb⟩, h.list_alive⟩) hs

theorem Exact.count_pos_of_reach (he : Exact s) (h : Sane c s v) (hm : Reach s.fin m) : 0 < s.count m :=
  (he.links_pos_of_reach h hm).trans_le (links_le_count s m)

/-- A node that the section keeps has a link when it ends, or the call of
`release` that follows it gives one up. -/
theorem Exact.pos_of_kept (he : Exact s) (h : Sane c s v) (hm : Kept s.fin v (.node m)) :
    0 < links s.destroyed s.fin m + s.deferred.count (.release m) := by
  obtain hv | hm := hm
  · have hd := h.release m
    rw [hv, hit_self] at hd
    omega
  · have hp := he.links_pos_of_reach h hm
    omega

theorem Exact.count_pos_of_kept (he : Exact s) (h : Sane c s v) (hm : Kept s.fin v (.node m)) :
    0 < s.count m := by
  have hp := he.pos_of_kept h hm
  rw [State.count]
  omega

theorem Exact.kept_alive (he : Exact s) (h : Sane c s v) {o : Obj} (hk : Kept s.fin v o) :
    o ∉ s.seg.retired ∧ o ∉ s.destroyed := by
  cases o with
  | node m => exact he.alive h (he.count_pos_of_kept h hk)
  | list l =>
    obtain rfl : l = s.fin.bucketList := hk
    exact ⟨fun hr => (h.list _ (.inl hr)).2.2 rfl, h.list_alive⟩

/-- Every link in the heap as it is now leads to a node that keeps a link. -/
theorem Exact.covered {loc : Loc} (he : Exact s) (h : Sane c s v) (hloc : loc ∈ locs s.destroyed s.seg)
    (hr : s.seg.read loc = some m) : 0 < links s.destroyed s.fin m + s.deferred.count (.release m) := by
  obtain ⟨ha, hd⟩ := mem_locs.1 hloc
  by_cases hw : ∃ p, .write loc p ∈ s.stores
  · obtain ⟨p, hp⟩ := hw
    exact he.pos_of_kept h (h.plan.content loc p m hp ha hr)
  · rw [not_exists] at hw
    refine Nat.add_pos_left (tally_pos (a := loc) (mem_locs.2 ⟨?_, hd⟩) ((read_applyAll loc ha hw).trans hr)) _
    cases loc with
    | next n => exact lt_of_lt_of_le ha (Sane.nodeCount_le s)
    | head l b =>
      refine ⟨ha.1.trans_le (listCount_le_applyAll _), ?_⟩
      rw [State.fin, bucketCount_applyAll ha.1]
      exact ha.2

theorem Exact.defined (he : Exact s) (h : Sane c s v) : Defined s :=
  fun st hst o ho => (he.kept_alive h (h.plan.target st hst o ho)).2

theorem Exact.old_alive (he : Exact s) (h : Sane c s v) (hl : s.lock = none) {o : Obj}
    (ho : Old s.seg o) : o ∉ s.destroyed := by
  obtain ⟨-, -, hfin⟩ := State.stores_none hl
  cases o with
  | node m =>
    obtain hm | hm := ho
    · rw [← hfin] at hm
      exact (he.alive h (he.count_pos_of_reach h hm)).2
    · exact h.fresh_node hm
  | list l =>
    obtain rfl | rfl := ho
    · rw [← hfin]
      exact h.list_alive
    · exact h.fresh_list

theorem Exact.opens (he : Exact s) (h : Sane c s v) (hl : s.lock = none) (ho : Opens c s.seg q d v') :
    Exact { s with lock := some (q, d) } := by
  obtain ⟨-, -, hfin⟩ := State.stores_none hl
  obtain ⟨a, hs, hcount⟩ := h.count_opens hl ho
    (fun st hst o hto => he.old_alive h hl (ho.target st hst o hto))
  intro x hx
  rw [hcount x hx]
  by_cases hlt : x < s.seg.nodeCount
  · rw [if_pos hlt]
    refine (he x (hfin ▸ hlt)).trans ?_
    by_cases ha : a = some x
    · obtain ⟨n, hn, hre, hnext⟩ := hs.linked x hlt ha
      rw [← hfin] at hre hn hnext
      have hlive := (he.alive h (he.count_pos_of_reach h hre)).2
      have hpos := count_pos_of_read (.next n) (mem_locs.2 ⟨hn, hlive⟩) hnext
      rw [if_neg hpos.ne', if_neg (by omega)]
    · have hz : hit a x = 0 := by simp [hit, ha]
      rw [hz, Nat.add_zero]
  · rw [if_neg hlt, if_neg (by omega)]
    exact List.count_eq_zero.2 (fun hr => hlt (h.node x hr))

/-- The count that `release` finds is one only when the link that it gives up
is the last. -/
theorem refcount_eq_one_iff (hc : Counted s) (he : Exact s) (h : Sane c s v) (hb : Bounded s)
    (ht : .release n ∈ s.tasks) : (s.seg.node n).refcount = 1 ↔ s.count n = 1 := by
  have hpos : 0 < s.count n := by
    have hh := List.count_pos_iff.2 ht
    rw [State.count]
    omega
  have hlt := h.task n ht
  have hh := hc n (h.lt_of_count_pos hpos) (he.alive h hpos).2
  rw [baseCount, if_pos hlt] at hh
  have hbn := hb n
  by_cases hz : acquires n s.stores = 0
  · rw [hz, BitVec.add_zero] at hh
    rw [hh, ← BitVec.toNat_inj, BitVec.toNat_ofNat, Nat.mod_eq_of_lt hbn]
    rfl
  · obtain ⟨n', loc, hv, hnext, hne, hr, hal, hk⟩ := h.plan.acquire n (acquires_pos (Nat.pos_of_ne_zero hz))
    have hone : acquires n s.stores = 1 := by
      have hle := h.acquires n
      omega
    have hlive' : .next n' ∈ locs s.destroyed s.fin :=
      mem_locs.2 ⟨h.victim n' hv, (he.kept_alive h (o := .node n') (Or.inl hv)).2⟩
    have hlive : loc ∈ locs s.destroyed s.fin := mem_locs.2 ⟨hal, (he.kept_alive h hk).2⟩
    have htwo : 2 ≤ links s.destroyed s.fin n := two_le_tally hlive hlive' hne hr hnext
    have htask := List.count_pos_iff.2 ht
    have hthree : 3 ≤ s.count n := by
      rw [State.count]
      omega
    rw [hone] at hh
    have hcount : s.count n = s.count n - 1 + 1 := by omega
    rw [hcount, BitVec.ofNat_add] at hh
    have hone' : (1 : BitVec 16).toNat = 1 := rfl
    rw [(BitVec.add_left_inj _).1 hh, ← BitVec.toNat_inj, BitVec.toNat_ofNat,
      Nat.mod_eq_of_lt (by omega), hone']
    omega

theorem Exact.release (he : Exact s) (hc : Counted s) (h : Sane c s v) (hb : Bounded s)
    (ht : .release n ∈ s.tasks) :
    Exact { s with seg := s.seg.release n, tasks := s.tasks.erase (.release n) } := by
  have hf : Alike s.fin ((s.seg.release n).applyAll s.stores) := (alike_release n).applyAll s.stores
  have hone := refcount_eq_one_iff hc he h hb ht
  have hret : (s.seg.release n).retired =
    if (s.seg.node n).refcount = 1 then .node n :: s.seg.retired else s.seg.retired := rfl
  intro x hx
  have hr := he x (hf.nodeCount ▸ hx)
  have hcount := State.count_release ht (x := x)
  rw [hret]
  by_cases hx : n = x
  · subst hx
    rw [hit_self] at hcount
    rw [if_neg (by omega)] at hr
    by_cases h1 : s.count n = 1
    · rw [if_pos (hone.2 h1), List.count_cons_self, hr, if_pos (by omega)]
    · rw [if_neg (fun hh => h1 (hone.1 hh)), hr, if_neg (by omega)]
  · have hz : hit (some n) x = 0 := by simp [hit, hx]
    rw [hz, Nat.add_zero] at hcount
    rw [hcount, ← hr]
    split
    · exact List.count_cons_of_ne (by simpa using hx)
    · rfl

theorem count_node_apply (seg : SegmentT Key Value) (st : Store Key Value) :
    (seg.apply st).retired.count (.node x) = seg.retired.count (.node x) := by
  cases st with
  | retire l => simp [SegmentT.apply]
  | write loc p => cases loc <;> rfl
  | _ => rfl

theorem Exact.not_target (he : Exact s) (h : Sane c s v) {o : Obj} (ho : o ∈ s.seg.retired) :
    ∀ st ∈ s.stores, st.target ≠ some o :=
  fun st hst ht => (he.kept_alive h (h.plan.target st hst o ht)).1 ho

variable [DecidableEq Key]

theorem Exact.step (he : Exact s) (hc : Counted s) (h : Sane c s v) (hb : Bounded s) (hm : Move c s t) :
    Exact t := by
  cases hm with
  | insert k value sec hl hs =>
    obtain ⟨V, W, f, hh⟩ := h.holds
    rw [(State.stores_none hl).2.2] at hh
    exact he.opens h hl (opens_insert hh h.closed hs)
  | erase k hl =>
    obtain ⟨V, W, f, hh⟩ := h.holds
    rw [(State.stores_none hl).2.2] at hh
    exact he.opens h hl (opens_erase hh h.closed k)
  | clear hl =>
    obtain ⟨V, W, f, hh⟩ := h.holds
    rw [(State.stores_none hl).2.2] at hh
    exact he.opens h hl (opens_clear hh)
  | store st q d hl =>
    intro x hx
    rw [State.fin_store hl] at hx
    rw [State.count_store hl, count_node_apply]
    exact he x hx
  | unlock d hl =>
    intro x hx
    rw [State.count_unlock hl]
    exact he x ((State.stores_some hl).2.2 ▸ hx)
  | release n ht => exact he.release hc h hb ht
  | retire l ht =>
    have ha : Alike s.seg (s.seg.apply (.retire l)) := ⟨⟨rfl, rfl, rfl, rfl⟩, rfl, rfl, rfl⟩
    intro x hx
    rw [State.count_retire, count_node_apply]
    exact he x ((ha.applyAll s.stores).nodeCount ▸ hx)
  | destroyNode n hr hd =>
    intro x hx
    rw [State.count_destroyNode (h.node n hr) hd (he.not_target h hr)]
    exact he x hx
  | destroyList l hr hd =>
    intro x hx
    rw [State.count_destroyList (h.list l (.inl hr)).1 hd (he.not_target h hr)]
    exact he x hx

end Alive

section Runs

variable [DecidableEq Key] [Inhabited Key] [Inhabited Value] {c : Config Key} {s : State Key Value}

omit [DecidableEq Key] in
theorem Init.empty (h : Init c s) : s.fin = s.seg ∧ s.seg.nodeCount = 0 ∧ s.seg.retired = [] ∧
    (∀ l b, s.seg.read (.head l b) = none) ∧ ∀ x, s.count x = 0 := by
  obtain ⟨⟨count, -, hs⟩, hl, ht, hd⟩ := h
  obtain ⟨-, hdef, hfin⟩ := State.stores_none hl
  obtain ⟨bl, hbl, hseg⟩ := Option.map_eq_some_iff.1 hs
  have hhead : bl.head = fun _ => none := by
    rw [BucketList.make] at hbl
    split at hbl
    · cases hbl
      rfl
    · cases hbl
  have hn : s.seg.nodeCount = 0 := by rw [← hseg]
  have hread : ∀ l b, s.seg.read (.head l b) = none := by
    intro l b
    rw [← hseg, SegmentT.read, hhead]
  refine ⟨hfin, hn, by rw [← hseg], hread, fun x => ?_⟩
  rw [State.count, ht, hdef, hfin, List.count_nil, Nat.add_zero]
  refine tally_eq_zero fun loc hloc => ?_
  cases loc with
  | next n => exact absurd (mem_locs.1 hloc).1 (by simp [Allocated, hn])
  | head l b => simp [hread]

omit [DecidableEq Key] in
theorem Init.sane (h : Init c s) : Sane c s none := by
  obtain ⟨hfin, hn, hret, hread, -⟩ := h.empty
  obtain ⟨⟨count, hcount, hs⟩, hl, ht, hd⟩ := h
  obtain ⟨hst, hdef, -⟩ := State.stores_none hl
  obtain ⟨V, W, hh⟩ := (Represents.make hcount hs).holds
  constructor
  case holds => exact ⟨V, W, _, hfin ▸ hh⟩
  case closed =>
    intro loc m ha hr
    cases loc with
    | next n => exact absurd ha (by simp [Allocated, hn])
    | head l b =>
      rw [hread] at hr
      cases hr
  case scope =>
    rw [hst]
    trivial
  case plan => constructor <;> simp [hst, Ordered]
  case acquires => simp [hst, HashMap.acquires]
  case release => simp [hdef]
  case victim => simp
  case task => simp [ht]
  case node => simp [hret]
  case list => simp [hret, ht]
  case late => simp [hst, hdef]
  case destroyed => simp [hd]

theorem sane_counted (h : Reachable (Init c) (Within (Move c) Defined) s) :
    (∃ v, Sane c s v) ∧ Counted s := by
  apply h.invariant
  · intro s hi
    refine ⟨⟨none, hi.sane⟩, fun x hx => ?_⟩
    obtain ⟨hfin, hn, -⟩ := hi.empty
    rw [hfin, hn] at hx
    omega
  · rintro s t - ⟨⟨v, hv⟩, hc⟩ ⟨hm, hd⟩
    exact ⟨hv.step hm, hc.step hv hm hd⟩

/-- What is known while every node has fewer than `2 ^ 16` links. -/
structure Live (c : Config Key) (s : State Key Value) : Prop where
  sane : ∃ v, Sane c s v
  counted : Counted s
  exact : Exact s
  bounded : Bounded s

omit [Inhabited Key] [Inhabited Value] in
theorem Live.step {t : State Key Value} (h : Live c s) (hm : Move c s t) (hb : Bounded t) : Live c t := by
  obtain ⟨v, hv⟩ := h.sane
  obtain ⟨v', hv'⟩ := hv.step hm
  have he := h.exact.step h.counted hv h.bounded hm
  exact ⟨⟨v', hv'⟩, h.counted.step hv hm (he.defined hv'), he, hb⟩

omit [DecidableEq Key] in
theorem Init.live (h : Init c s) : Live c s := by
  obtain ⟨hfin, hn, -, -, hz⟩ := h.empty
  refine ⟨⟨none, h.sane⟩, fun x hx => ?_, fun x hx => ?_, fun x => by simp [hz]⟩ <;>
  · rw [hfin, hn] at hx
    omega

theorem live_of_reachable (h : Reachable (Init c) (Within (Move c) Bounded) s) : Live c s := by
  apply h.invariant
  · exact fun s hi => hi.live
  · exact fun s t _ hl hm => hl.step hm.1 hm.2

omit [DecidableEq Key] [Inhabited Key] [Inhabited Value] in
/-- A live object has no link to a destroyed node. -/
theorem Live.linked (h : Live c s) {loc : Loc} {m : Nat} (ha : Allocated s.seg loc)
    (hd : loc.owner ∉ s.destroyed) (hr : s.seg.read loc = some m) :
    .node m ∉ s.seg.retired ∧ .node m ∉ s.destroyed := by
  obtain ⟨v, hv⟩ := h.sane
  have hp := h.exact.covered hv (mem_locs.2 ⟨ha, hd⟩) hr
  have hcount : 0 < s.count m := by
    rw [State.count]
    omega
  exact h.exact.alive hv hcount

theorem reachable_defined (h : Reachable (Init c) (Within (Move c) Bounded) s) :
    Reachable (Init c) (Within (Move c) Defined) s := by
  apply h.invariant
  · exact fun s hi => .of_init hi
  · intro s t hs hd hm
    have hl := live_of_reachable (hs.tail hm)
    obtain ⟨v, hv⟩ := hl.sane
    exact hd.tail ⟨hm.1, hl.exact.defined hv⟩

/-- Reference counts and links. -/
theorem refcount_eq_links (c : Config Key) :
    (∀ s : State Key Value, Reachable (Init c) (Within (Move c) Defined) s →
      ∀ x < s.seg.nodeCount, .node x ∉ s.destroyed →
        (s.seg.node x).refcount + BitVec.ofNat 16 (acquires x s.stores) = BitVec.ofNat 16 (s.count x)) ∧
    ∀ s : State Key Value, Reachable (Init c) (Within (Move c) Bounded) s →
      Defined s ∧
      (∀ x < s.seg.nodeCount, s.seg.retired.count (.node x) = if s.count x = 0 then 1 else 0) ∧
      (∀ o ∈ s.destroyed, o ∈ s.seg.retired) ∧
      ∀ loc m, Allocated s.seg loc → loc.owner ∉ s.destroyed → s.seg.read loc = some m →
        .node m ∉ s.destroyed := by
  refine ⟨fun s h x hx hd => ?_, fun s h => ?_⟩
  · have hh := (sane_counted h).2 x (hx.trans_le (Sane.nodeCount_le s)) hd
    rwa [baseCount, if_pos hx] at hh
  · have hl := live_of_reachable h
    obtain ⟨v, hv⟩ := hl.sane
    refine ⟨hl.exact.defined hv, fun x hx => ?_, hv.destroyed, fun loc m ha hd hr => (hl.linked ha hd hr).2⟩
    exact hl.exact x (hx.trans_le (Sane.nodeCount_le s))

end Runs

section Examples

variable {c : Config Nat} {b b' : State Nat Nat} {q : List (Store Nat Nat)} {d : List Task}

/-- A heap with one list and few nodes. -/
theorem bounded_of_few (hl : b.fin.listCount = 1) (hc : (b.fin.list 0).bucketCount = 4)
    (hn : b.fin.nodeCount + b.tasks.length + b.deferred.length < 65532) : Bounded b := by
  intro x
  have hheads : (heads b.fin 0).card ≤ 4 := by
    rw [heads, hc]
    exact Finset.card_image_le.trans (by decide)
  have hlists : (((Finset.range b.fin.listCount).filter (.list · ∉ b.destroyed)).biUnion (heads b.fin)).card ≤ 4 := by
    refine (Finset.card_le_card fun loc hloc => ?_).trans hheads
    obtain ⟨l, hl', hloc⟩ := Finset.mem_biUnion.1 hloc
    have hlt := Finset.mem_range.1 (Finset.mem_filter.1 hl').1
    obtain rfl : l = 0 := by omega
    exact hloc
  have hnodes : (((Finset.range b.fin.nodeCount).filter (.node · ∉ b.destroyed)).image Loc.next).card ≤
      b.fin.nodeCount :=
    Finset.card_image_le.trans ((Finset.card_filter_le _ _).trans (Finset.card_range _).le)
  have hlinks : links b.destroyed b.fin x ≤ (locs b.destroyed b.fin).card := tally_le_card
  have hcard := Finset.card_union_le (((Finset.range b.fin.nodeCount).filter (.node · ∉ b.destroyed)).image Loc.next)
    (((Finset.range b.fin.listCount).filter (.list · ∉ b.destroyed)).biUnion (heads b.fin))
  have ht : b.tasks.count (.release x) ≤ b.tasks.length := List.count_le_length
  have hd : b.deferred.count (.release x) ≤ b.deferred.length := List.count_le_length
  rw [State.count]
  rw [locs] at hlinks
  omega

/-- A step that destroys nothing and leaves the counts bounded. -/
def Quiet (c : Config Nat) (b b' : State Nat Nat) : Prop := Move c b b' ∧ b'.destroyed = b.destroyed ∧ Bounded b'

/-- A section that nothing interrupts. The counts stay what they are when it takes the mutex. -/
theorem quiet_section (hm : Move c b { b with lock := some (q, d) }) (hb : Bounded { b with lock := some (q, d) }) :
    Relation.ReflTransGen (Quiet c) b ⟨b.seg.applyAll q, none, b.tasks ++ d, b.destroyed⟩ := by
  have hstores : ∀ (q : List (Store Nat Nat)) (seg : SegmentT Nat Nat),
      Bounded ⟨seg, some (q, d), b.tasks, b.destroyed⟩ →
      Relation.ReflTransGen (Quiet c) b ⟨seg, some (q, d), b.tasks, b.destroyed⟩ →
        Relation.ReflTransGen (Quiet c) b ⟨seg.applyAll q, some ([], d), b.tasks, b.destroyed⟩ ∧
          Bounded ⟨seg.applyAll q, some ([], d), b.tasks, b.destroyed⟩ := by
    intro q
    induction q with
    | nil => exact fun seg hb hr => ⟨hr, hb⟩
    | cons st q ih => exact fun seg hb hr => ih (seg.apply st) hb (hr.tail ⟨.store _ st q d rfl, rfl, hb⟩)
  obtain ⟨hr, hb'⟩ := hstores q b.seg hb (.single ⟨hm, rfl, hb⟩)
  refine hr.tail ⟨.unlock _ d rfl, rfl, fun x => ?_⟩
  have hx := hb' x
  rw [State.count] at hx ⊢
  change links b.destroyed (b.seg.applyAll q) x + b.tasks.count (.release x) + d.count (.release x) < 2 ^ 16 at hx
  change links b.destroyed (b.seg.applyAll q) x + (b.tasks ++ d).count (.release x) + 0 < 2 ^ 16
  rwa [List.count_append, ← Nat.add_assoc, Nat.add_zero]

theorem reachable_of_quiet {init : State Nat Nat → Prop} (h : Reachable init (Within (Move c) Bounded) b)
    (hq : Relation.ReflTransGen (Quiet c) b b') : Reachable init (Within (Move c) Bounded) b' := by
  induction hq with
  | refl => exact h
  | tail _ hs ih => exact ih.tail ⟨hs.1, hs.2.2⟩

/-- A segment of four buckets that nobody has used. -/
def fresh : State Nat Nat where
  seg := Find.fresh.seg
  lock := none
  tasks := []
  destroyed := []

theorem init_fresh : Init (oneShard Nat) fresh := ⟨⟨4, by decide, rfl⟩, rfl, rfl, rfl⟩

/-- The keys 0 and 1 are inserted. -/
def inserted : State Nat Nat where
  seg := (fresh.seg.applyAll [.newNode 0 0, .setSize 1, .write (.next 0) none, .write (.head 0 0) (some 0)]).applyAll
    [.newNode 1 0, .setSize 2, .write (.next 1) (some 0), .write (.head 0 0) (some 1)]
  lock := none
  tasks := []
  destroyed := []

/-- Then the node with the key 0 is replaced and retired. -/
def replaced : State Nat Nat where
  seg := (inserted.seg.applyAll [.newNode 0 1, .write (.next 2) none, .write (.next 1) (some 2)]).release 0
  lock := none
  tasks := []
  destroyed := []

theorem quiet_inserted : Relation.ReflTransGen (Quiet (oneShard Nat)) fresh inserted :=
  (quiet_section (b := fresh) (.insert _ 0 0 ([.newNode 0 0, .setSize 1, .write (.next 0) none,
    .write (.head 0 0) (some 0)], none) rfl rfl) (bounded_of_few rfl rfl (by decide))).trans
    (quiet_section (.insert _ 1 0 ([.newNode 1 0, .setSize 2, .write (.next 1) (some 0),
      .write (.head 0 0) (some 1)], none) rfl rfl) (bounded_of_few rfl rfl (by decide)))

theorem quiet_replaced : Relation.ReflTransGen (Quiet (oneShard Nat)) inserted replaced :=
  (quiet_section (b := inserted) (.insert _ 0 1 ([.newNode 0 1, .write (.next 2) none, .write (.next 1) (some 2)],
    some 0) rfl rfl) (bounded_of_few rfl rfl (by decide))).tail
    ⟨.release _ 0 (by decide), rfl, bounded_of_few rfl rfl (by decide)⟩

theorem reachable_replaced : Reachable (Init (oneShard Nat)) (Within (Move (oneShard Nat)) Bounded) replaced :=
  reachable_of_quiet (reachable_of_quiet (.of_init init_fresh) quiet_inserted) quiet_replaced

/-- The replaced node is destroyed. -/
theorem refcount_eq_links_replaced : ∃ s : State Nat Nat,
    Reachable (Init (oneShard Nat)) (Within (Move (oneShard Nat)) Bounded) s ∧ .node 0 ∈ s.destroyed ∧
      (s.seg.node 1).refcount + BitVec.ofNat 16 (acquires 1 s.stores) = BitVec.ofNat 16 (s.count 1) ∧
      s.seg.retired.count (.node 0) = if s.count 0 = 0 then 1 else 0 := by
  have h := reachable_replaced.tail ⟨.destroyNode _ 0 (by decide) (by decide), bounded_of_few rfl rfl (by decide)⟩
  have hd := reachable_defined h
  exact ⟨_, h, by decide, (refcount_eq_links (oneShard Nat)).1 _ hd 1 (by decide) (by decide),
    ((refcount_eq_links (oneShard Nat)).2 _ h).2.1 0 (by decide)⟩

end Examples

end Wizard.HashMap.Reclaim
