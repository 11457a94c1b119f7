import Wizard.HashMapReclaim

/-! Reference counts against links. -/

namespace Wizard.HashMap.Reclaim

open SegmentT

variable {Key Value : Type}

section Lists

variable {c : Config Key} {s : SegmentT Key Value} {q : List (Store Key Value)} {x : Nat}

theorem bucketList_applyAll_cases (s : SegmentT Key Value) (q : List (Store Key Value)) :
    (s.applyAll q).bucketList = s.bucketList ∨ .publish (s.applyAll q).bucketList ∈ q := by
  induction q generalizing s with
  | nil => exact .inl rfl
  | cons st q ih =>
    obtain hh | hh := ih (s.apply st)
    · cases st with
      | publish l => exact .inr (by rw [show (s.applyAll (.publish l :: q)).bucketList = l from hh]; simp)
      | write loc p => exact .inl (hh.trans (bucketList_write s loc p))
      | _ => exact .inl hh
    · exact .inr (List.mem_cons_of_mem _ hh)

theorem growStores_lists {grow : List (Store Key Value)} (hg : growStores c s = some grow) (l : Nat) :
    (.retire l ∈ grow → l = s.bucketList) ∧ (.publish l ∈ grow → l = s.listCount) := by
  rw [growStores] at hg
  split at hg
  · obtain ⟨bl, -, -, rfl⟩ := rehashStores_eq hg
    have hno : ∀ st ∈ copyStores c s.listCount (s.applyAll [.setThreshold (c.threshold bl.bucketCount),
        .newList bl]) s.sources, st ≠ .retire l ∧ st ≠ .publish l := by
      intro st hst
      obtain ⟨k, value, rfl⟩ | ⟨loc, p, rfl⟩ := copyStores_shape _ _ hst <;> simp
    refine ⟨fun hl => ?_, fun hl => ?_⟩
    · simp only [fillStores, List.mem_append, List.mem_cons, reduceCtorEq, List.not_mem_nil,
        or_false, false_or, Store.retire.injEq] at hl
      exact hl.resolve_left (fun hm => (hno _ hm).1 rfl)
    · simp only [fillStores, List.mem_append, List.mem_cons, reduceCtorEq, List.not_mem_nil,
        or_false, false_or, Store.publish.injEq] at hl
      exact hl.resolve_left (fun hm => (hno _ hm).2 rfl)
  · cases hg
    simp

theorem linkStores_lists [DecidableEq Key] (c : Config Key) (s : SegmentT Key Value) (k : Key) (new l : Nat) :
    .retire l ∉ (linkStores c s k new).1 ∧ .publish l ∉ (linkStores c s k new).1 := by
  rw [linkStores]
  split <;> simp [mem_acquireStores]

end Lists

section Tasks

variable {s : SegmentT Key Value} {x : Nat}

theorem count_releaseOf (o : Option Nat) : (releaseOf o).count (.release x) = hit o x := by
  cases o with
  | none => simp [releaseOf]
  | some n => by_cases hn : n = x <;> simp [releaseOf, hit, hn]

theorem count_releaseHeads (s : SegmentT Key Value) (l : Nat) :
    (releaseHeads s l).count (.release x) = tally (heads s l) s.read x := by
  rw [releaseHeads, List.count_flatMap, tally, heads, Finset.sum_image (by simp),
    ← List.sum_toFinset _ List.nodup_range, List.toFinset_range]
  exact Finset.sum_congr rfl (fun b _ => count_releaseOf _)

theorem mem_releaseOf {t : Task} {o : Option Nat} : t ∈ releaseOf o ↔ ∃ n, o = some n ∧ t = .release n := by
  cases o <;> simp [releaseOf]

theorem mem_releaseHeads {t : Task} {l : Nat} : t ∈ releaseHeads s l ↔
    ∃ b < (s.list l).bucketCount.toNat, ∃ n, s.read (.head l b) = some n ∧ t = .release n := by
  simp [releaseHeads, mem_releaseOf]

end Tasks

section Opens

variable {c : Config Key} {s : SegmentT Key Value} {q : List (Store Key Value)} {v : Option Nat}
  {d : List Task} {D : List Obj}

/-- The object is part of the current chains, or is not made yet. -/
def Old (s : SegmentT Key Value) : Obj → Prop
  | .node m => Reach s m ∨ s.nodeCount ≤ m
  | .list l => l = s.bucketList ∨ l = s.listCount

/-- What a section that starts in the heap `s` brings: its stores `q`, the
calls `d` that follow it, and the node `v` that one of them releases. -/
structure Opens (c : Config Key) (s : SegmentT Key Value) (q : List (Store Key Value)) (d : List Task)
    (v : Option Nat) : Prop where
  holds : ∃ V W f, Holds c (s.applyAll q) V W f
  scope : Scoped s.nodeCount q
  plan : Plan s q v
  acquires : ∀ x, acquires x q ≤ 1
  target : ∀ st ∈ q, ∀ o, st.target = some o → Old s o
  retire : ∀ l, .retire l ∈ q → l < s.listCount
  publish : ∀ l, .publish l ∈ q → l = s.listCount
  release : ∀ x, d.count (.release x) = hit v x
  late : ∀ l, .retire l ∈ d → l < s.listCount ∧ l ≠ (s.applyAll q).bucketList
  settled : ∀ D : List Obj, (∀ st ∈ q, ∀ o, st.target = some o → o ∉ D) →
    (∀ n, s.nodeCount ≤ n → .node n ∉ D) → .list s.listCount ∉ D →
    ∃ a, Settled D s (s.applyAll q) v a

variable {V W : Set Nat} {f : Key → Option Value} {k : Key} {value : Value}

theorem Holds.reach_set (h : Holds c s V W f) : Holds c s {n | Reach s n} W f := by
  obtain ⟨ch, hc⟩ := h.chains
  exact ⟨fun n hn => h.nodes n (h.mem_of_reach hn), h.lists, h.current, ch, hc.pos, hc.linked,
    fun b n hn => hc.reach hn, hc.index, hc.nodup, hc.content⟩

theorem lastLoc_owner {l b : Nat} (pre : List Nat) :
    (lastLoc (.head l b) pre).owner = .list l ∨ ∃ a ∈ pre, (lastLoc (.head l b) pre).owner = .node a := by
  obtain he | ⟨a, ha, he⟩ := lastLoc_cases (.head l b) pre
  · exact .inl (by rw [he]; rfl)
  · exact .inr ⟨a, ha, by rw [he]; rfl⟩

variable [DecidableEq Key]

/-- The stores that link a node in go to it and to the current chains. -/
theorem linkStores_target {ch : Nat → List Nat} {new : Nat} (h : Holds c s V W f)
    (hc : Chains c s s.bucketList V ch f) :
    ∀ st ∈ (linkStores c s k new).1, ∀ o, st.target = some o →
      o = .node new ∨ o = .list s.bucketList ∨ ∃ m ∈ V, o = .node m := by
  intro st hst o ho
  obtain ⟨hs, -⟩ | ⟨b, pre, n, post, hch, -, -, hs⟩ := h.search_cases hc k
  · simp only [linkStores, hs, List.mem_cons, List.not_mem_nil, or_false] at hst
    obtain rfl | rfl | rfl := hst <;> cases ho
    · exact .inl rfl
    · exact .inr (.inl rfl)
  · simp only [linkStores, hs, List.mem_append, mem_acquireStores, List.mem_cons, List.not_mem_nil,
      or_false] at hst
    obtain ⟨m, hm, rfl⟩ | rfl | rfl := hst <;> cases ho
    · exact .inr (.inr ⟨m, hc.mem b m (by simp [hch, hc.next_mem hch hm]), rfl⟩)
    · exact .inl rfl
    · obtain he | ⟨a, ha, he⟩ := lastLoc_owner (l := s.bucketList) (b := b) pre
      · exact .inr (.inl he)
      · exact .inr (.inr ⟨a, hc.mem b a (by simp [hch, ha]), he⟩)

theorem insertSection_target {sec : List (Store Key Value) × Option Nat} (h : Holds c s V W f)
    (hs : insertSection c s k value = some sec) : ∀ st ∈ sec.1, ∀ o, st.target = some o → Old s o := by
  obtain ⟨grow, hg, rfl⟩ := Option.map_eq_some_iff.1 hs
  have h₁ : Holds c (s.apply (.newNode k value)) _ W f := (Holds.reach_set h).apply trivial
  obtain ⟨V', W', ch, h₂, hV, hc, -⟩ := growStores_safe h₁ hg
  have hmem := growStores_mem h₁ hg
  have hcount : (s.apply (.newNode k value)).nodeCount = s.nodeCount + 1 := rfl
  intro st hst o ho
  obtain hst | hst := List.mem_append.1 hst
  · obtain rfl | hst := List.mem_cons.1 hst
    · cases ho
    · have hm := hmem st hst
      cases st with
      | write loc p =>
        cases ho
        cases loc with
        | next n =>
          have hle : s.nodeCount + 1 ≤ n := hm.1.1.1
          exact .inr (by omega)
        | head l b => exact .inr hm.1.1.1
      | acquire n => exact hm.elim
      | _ => cases ho
  · obtain rfl | rfl | ⟨m, hm, rfl⟩ := linkStores_target h₂ hc st hst o ho
    · exact .inr le_rfl
    · obtain hb | hb := bucketList_applyAll_cases (s.apply (.newNode k value)) grow
      · exact .inl hb
      · exact .inr ((growStores_lists hg _).2 hb)
    · obtain hm | hm := hV m hm
      · exact .inl hm
      · exact .inr (by omega)

theorem eraseSection_target (h : Holds c s V W f) (k : Key) :
    ∀ st ∈ (eraseSection c s k).1, ∀ o, st.target = some o → Old s o := by
  obtain ⟨ch, hc⟩ := h.chains
  intro st hst o ho
  obtain ⟨hs, -⟩ | ⟨b, pre, n, post, hch, -, -, hs⟩ := h.search_cases hc k
  · simp [eraseSection, hs] at hst
  · simp only [eraseSection, hs, List.cons_append, List.mem_append, mem_acquireStores, List.mem_cons,
      List.not_mem_nil, or_false] at hst
    obtain rfl | ⟨m, hm, rfl⟩ | rfl := hst <;> cases ho
    · exact .inl (hc.reach (b := b) (by simp [hch, hc.next_mem hch hm]))
    · obtain he | ⟨a, ha, he⟩ := lastLoc_owner (l := s.bucketList) (b := b) pre <;> rw [he]
      · exact .inl rfl
      · exact .inl (hc.reach (b := b) (by simp [hch, ha]))

theorem opens_insert {sec : List (Store Key Value) × Option Nat} (h : Holds c s V W f) (hcl : Closed s)
    (hs : insertSection c s k value = some sec) : Opens c s sec.1 (releaseOf sec.2) sec.2 := by
  obtain ⟨V', W', hend⟩ := (insertSection_safe h hs).holds_end
  obtain ⟨hscoped, hacq⟩ := insertSection_scoped h hcl hs
  have hlists : ∀ l, (.retire l ∈ sec.1 → l < s.listCount) ∧ (.publish l ∈ sec.1 → l = s.listCount) := by
    obtain ⟨grow, hg, rfl⟩ := Option.map_eq_some_iff.1 hs
    intro l
    obtain ⟨hr, hp⟩ := growStores_lists hg l
    obtain ⟨hr', hp'⟩ := linkStores_lists c ((s.apply (.newNode k value)).applyAll grow) k s.nodeCount l
    refine ⟨fun hl => ?_, fun hl => ?_⟩
    · have hl' := (List.mem_append.1 hl).resolve_right hr'
      rw [hr (by simpa using hl')]
      exact h.lists _ h.current
    · have hl' := (List.mem_append.1 hl).resolve_right hp'
      exact hp (by simpa using hl')
  constructor
  case holds => exact ⟨V', W', _, hend⟩
  case scope => exact hscoped
  case plan => exact insertSection_plan h hs
  case acquires => exact hacq
  case target => exact insertSection_target h hs
  case retire => exact fun l => (hlists l).1
  case publish => exact fun l => (hlists l).2
  case release => exact fun x => count_releaseOf _
  case late => simp [mem_releaseOf]
  case settled => exact fun D hD hnew hlist => insertSection_settled h hcl hs hD hnew hlist

theorem opens_erase (h : Holds c s V W f) (hcl : Closed s) (k : Key) :
    Opens c s (eraseSection c s k).1 (releaseOf (eraseSection c s k).2) (eraseSection c s k).2 := by
  obtain ⟨V', W', hend⟩ := (eraseSection_safe h k).holds_end
  obtain ⟨hscoped, hacq⟩ := eraseSection_scoped h hcl k
  have hlists : ∀ l, .retire l ∉ (eraseSection c s k).1 ∧ .publish l ∉ (eraseSection c s k).1 := by
    intro l
    rw [eraseSection]
    split <;> simp [mem_acquireStores]
  constructor
  case holds => exact ⟨V', W', _, hend⟩
  case scope => exact hscoped
  case plan => exact eraseSection_plan h k
  case acquires => exact hacq
  case target => exact eraseSection_target h k
  case retire => exact fun l hl => absurd hl (hlists l).1
  case publish => exact fun l hl => absurd hl (hlists l).2
  case release => exact fun x => count_releaseOf _
  case late => simp [mem_releaseOf]
  case settled => exact fun D hD _ _ => eraseSection_settled h k hD

omit [DecidableEq Key] in
theorem opens_clear (h : Holds c s V W f) : Opens c s s.clearStores [.retire s.bucketList] none := by
  have hlt := h.lists _ h.current
  constructor
  case holds =>
    obtain ⟨ch, hc⟩ := h.chains
    refine ⟨∅, {s.listCount}, fun _ => none, ⟨by simp, ?_, ?_, fun _ => [], ?_⟩⟩
    · simp [clearStores, applyAll, SegmentT.apply]
    · simp [clearStores, applyAll, SegmentT.apply]
    · have hpos := hc.pos
      constructor <;> simp [clearStores, applyAll, SegmentT.apply, SegmentT.read, Segment, hpos]
  case scope => exact ⟨rfl, trivial⟩
  case plan => exact clearStores_plan s
  case acquires => simp [clearStores, HashMap.acquires]
  case target => simp [clearStores, Store.target]
  case retire => simp [clearStores]
  case publish => simp [clearStores]
  case release => simp
  case late =>
    intro l hl
    obtain rfl : l = s.bucketList := by simpa using hl
    exact ⟨hlt, by simpa [clearStores, applyAll, SegmentT.apply] using hlt.ne⟩
  case settled => exact fun D _ _ _ => ⟨none, clearStores_settled D s⟩

end Opens

section Sane

/-- What holds in every state, however large the counts have grown. -/
structure Sane (c : Config Key) (s : State Key Value) (v : Option Nat) : Prop where
  holds : ∃ V W f, Holds c s.fin V W f
  closed : Closed s.seg
  scope : Scoped s.seg.nodeCount s.stores
  plan : Plan s.seg s.stores v
  acquires : ∀ x, acquires x s.stores ≤ 1
  release : ∀ x, s.deferred.count (.release x) = hit v x
  victim : ∀ n, v = some n → n < s.fin.nodeCount
  task : ∀ n, .release n ∈ s.tasks → n < s.seg.nodeCount
  node : ∀ n, .node n ∈ s.seg.retired → n < s.seg.nodeCount
  list : ∀ l, .list l ∈ s.seg.retired ∨ .retire l ∈ s.tasks →
    l < s.seg.listCount ∧ l ≠ s.seg.bucketList ∧ l ≠ s.fin.bucketList
  late : ∀ l, .retire l ∈ s.stores ∨ .retire l ∈ s.deferred →
    l < s.seg.listCount ∧ l ≠ s.fin.bucketList
  destroyed : ∀ o ∈ s.destroyed, o ∈ s.seg.retired

variable {c : Config Key} {s t : State Key Value} {v : Option Nat} {st : Store Key Value}
  {q : List (Store Key Value)} {d : List Task} {n l : Nat}

theorem State.stores_none (hl : s.lock = none) : s.stores = [] ∧ s.deferred = [] ∧ s.fin = s.seg := by
  simp [State.stores, State.deferred, State.fin, hl, applyAll]

theorem State.stores_some (hl : s.lock = some (q, d)) :
    s.stores = q ∧ s.deferred = d ∧ s.fin = s.seg.applyAll q := by
  simp [State.stores, State.deferred, State.fin, hl]

theorem Opens.victim {seg : SegmentT Key Value} (ho : Opens c seg q d v) (hn : v = some n) :
    n < (seg.applyAll q).nodeCount := by
  obtain ⟨a, hs⟩ := ho.settled [] (by simp) (by simp) (by simp)
  exact hs.victim n hn

theorem Opens.bucketList {seg : SegmentT Key Value} (ho : Opens c seg q d v) :
    (seg.applyAll q).bucketList = seg.bucketList ∨ (seg.applyAll q).bucketList = seg.listCount := by
  obtain hh | hh := bucketList_applyAll_cases seg q
  · exact .inl hh
  · exact .inr (ho.publish _ hh)

theorem Sane.opens {v' : Option Nat} (h : Sane c s v) (hl : s.lock = none) (ho : Opens c s.seg q d v') :
    Sane c { s with lock := some (q, d) } v' := by
  obtain ⟨-, -, hfin⟩ := State.stores_none hl
  constructor
  case holds => exact ho.holds
  case closed => exact h.closed
  case scope => exact ho.scope
  case plan => exact ho.plan
  case acquires => exact ho.acquires
  case release => exact ho.release
  case victim => exact fun n hn => ho.victim hn
  case task => exact h.task
  case node => exact h.node
  case list =>
    intro l hm
    obtain ⟨hlt, hne, -⟩ := h.list l hm
    refine ⟨hlt, hne, ?_⟩
    change l ≠ (s.seg.applyAll q).bucketList
    obtain hb | hb := ho.bucketList <;> rw [hb]
    · exact hne
    · exact hlt.ne
  case late =>
    rintro l (hm | hm)
    · exact ⟨ho.retire l hm, ho.plan.retire l hm⟩
    · exact ho.late l hm
  case destroyed => exact h.destroyed

theorem retired_apply (seg : SegmentT Key Value) (st : Store Key Value) (o : Obj) :
    o ∈ (seg.apply st).retired ↔ o ∈ seg.retired ∨ ∃ l, st = .retire l ∧ o = .list l := by
  cases st with
  | retire l => simp [SegmentT.apply, or_comm]
  | write loc p => cases loc <;> simp [SegmentT.apply, SegmentT.write]
  | _ => simp [SegmentT.apply]

theorem bucketList_apply (seg : SegmentT Key Value) (st : Store Key Value) :
    (seg.apply st).bucketList = seg.bucketList ∨ st = .publish (seg.apply st).bucketList := by
  cases st with
  | publish l => exact .inr rfl
  | write loc p => exact .inl (bucketList_write seg loc p)
  | _ => exact .inl rfl

theorem Sane.store (h : Sane c s v) (hl : s.lock = some (st :: q, d)) :
    Sane c { s with seg := s.seg.apply st, lock := some (q, d) } v := by
  obtain ⟨hst, hd, hfin⟩ := State.stores_some hl
  have hfin' : s.fin = (s.seg.apply st).applyAll q := hfin
  obtain ⟨hh, hcl, hsc, hp, hacq, hrel, hvic, htask, hnode, hlist, hlate, hdes⟩ := h
  rw [hst] at hsc hp hacq hlate
  rw [hd] at hrel hlate
  rw [hfin'] at hh hvic hlist hlate
  have hbl := bucketList_apply s.seg st
  have hsub : ∀ o, o ∈ s.seg.retired → o ∈ (s.seg.apply st).retired :=
    fun o ho => (retired_apply _ _ _).2 (.inl ho)
  constructor
  case holds => exact hh
  case closed => exact hcl.apply hsc
  case scope => exact hsc.tail
  case plan => exact hp.tail
  case acquires =>
    intro x
    have hx := hacq x
    change HashMap.acquires x q ≤ 1
    refine le_trans ?_ hx
    cases st <;> simp [HashMap.acquires]
  case release => exact hrel
  case victim => exact hvic
  case task => exact fun n hn => (htask n hn).trans_le nodeCount_le_apply
  case node =>
    intro n hn
    obtain hn | ⟨l, -, hn⟩ := (retired_apply _ _ _).1 hn
    · exact (hnode n hn).trans_le nodeCount_le_apply
    · cases hn
  case list =>
    intro l hm
    have hl' : (.list l ∈ s.seg.retired ∨ .retire l ∈ s.tasks) ∨ st = .retire l := by
      obtain hm | hm := hm
      · obtain hm | ⟨l', he, hm⟩ := (retired_apply _ _ _).1 hm
        · exact .inl (.inl hm)
        · cases hm
          exact .inr he
      · exact .inl (.inr hm)
    change l < (s.seg.apply st).listCount ∧ l ≠ (s.seg.apply st).bucketList ∧
      l ≠ ((s.seg.apply st).applyAll q).bucketList
    obtain hm | rfl := hl'
    · obtain ⟨hlt, hne, hnf⟩ := hlist l hm
      refine ⟨hlt.trans_le listCount_le_apply, ?_, hnf⟩
      obtain hb | hb := hbl
      · rwa [hb]
      · have hpub := hp.publish _ (List.mem_cons.2 (.inl hb.symm))
        rw [hpub]
        exact hnf
    · obtain ⟨hlt, hnf⟩ := hlate l (.inl List.mem_cons_self)
      exact ⟨hlt, hp.ordered.1, hnf⟩
  case late =>
    rintro l (hm | hm)
    · obtain ⟨hlt, hnf⟩ := hlate l (.inl (List.mem_cons_of_mem _ hm))
      exact ⟨hlt.trans_le listCount_le_apply, hnf⟩
    · obtain ⟨hlt, hnf⟩ := hlate l (.inr hm)
      exact ⟨hlt.trans_le listCount_le_apply, hnf⟩
  case destroyed => exact fun o ho => hsub o (hdes o ho)

theorem Sane.unlock (h : Sane c s v) (hl : s.lock = some ([], d)) :
    Sane c { s with lock := none, tasks := s.tasks ++ d } none := by
  obtain ⟨hst, hd, hfin⟩ := State.stores_some hl
  obtain ⟨hh, hcl, hsc, hp, hacq, hrel, hvic, htask, hnode, hlist, hlate, hdes⟩ := h
  have hfin' : s.fin = s.seg := hfin
  rw [hst] at hlate
  rw [hd] at hrel hlate
  rw [hfin'] at hh hvic hlist hlate
  constructor
  case holds => exact hh
  case closed => exact hcl
  case scope => trivial
  case plan => constructor <;> simp [State.stores, Ordered]
  case acquires => simp [State.stores, HashMap.acquires]
  case release => simp [State.deferred]
  case victim => simp
  case task =>
    intro n hn
    obtain hn | hn := List.mem_append.1 hn
    · exact htask n hn
    · refine hvic n (hit_pos.1 ?_)
      rw [← hrel n]
      exact List.count_pos_iff.2 hn
  case node => exact hnode
  case list =>
    intro l hm
    obtain hm | hm := hm
    · exact hlist l (.inl hm)
    · obtain hm | hm := List.mem_append.1 hm
      · exact hlist l (.inr hm)
      · obtain ⟨hlt, hne⟩ := hlate l (.inr hm)
        exact ⟨hlt, hne, hne⟩
  case late => simp [State.stores, State.deferred]
  case destroyed => exact hdes

/-- A call from after the unlock retires what it stands for. -/
theorem Sane.task_step (h : Sane c s v) {seg : SegmentT Key Value} (ha : Alike s.seg seg) (task : Task)
    (hsub : ∀ o ∈ s.seg.retired, o ∈ seg.retired)
    (hret : ∀ o ∈ seg.retired, o ∈ s.seg.retired ∨
      (∃ n, o = .node n ∧ .release n ∈ s.tasks) ∨ ∃ l, o = .list l ∧ .retire l ∈ s.tasks) :
    Sane c { s with seg := seg, tasks := s.tasks.erase task } v := by
  have hf : Alike s.fin (seg.applyAll s.stores) := ha.applyAll s.stores
  constructor
  case holds =>
    obtain ⟨V, W, f, hh⟩ := h.holds
    exact ⟨V, W, f, hf.holds hh⟩
  case closed => exact ha.closed h.closed
  case scope => exact ha.nodeCount ▸ h.scope
  case plan => exact ha.plan h.plan
  case acquires => exact h.acquires
  case release => exact h.release
  case victim => exact fun m hm => hf.nodeCount ▸ h.victim m hm
  case task => exact fun m hm => ha.nodeCount ▸ h.task m (List.mem_of_mem_erase hm)
  case node =>
    intro m hm
    change m < seg.nodeCount
    rw [ha.nodeCount]
    obtain hm | ⟨n, he, ht⟩ | ⟨l, he, -⟩ := hret _ hm
    · exact h.node m hm
    · cases he
      exact h.task m ht
    · cases he
  case list =>
    intro l hm
    change l < seg.listCount ∧ l ≠ seg.bucketList ∧ l ≠ (seg.applyAll s.stores).bucketList
    rw [ha.listCount, ha.bucketList, hf.bucketList]
    refine h.list l ?_
    obtain hm | hm := hm
    · obtain hm | ⟨n, he, -⟩ | ⟨l', he, ht⟩ := hret _ hm
      · exact .inl hm
      · cases he
      · cases he
        exact .inr ht
    · exact .inr (List.mem_of_mem_erase hm)
  case late =>
    intro l hm
    change l < seg.listCount ∧ l ≠ (seg.applyAll s.stores).bucketList
    rw [ha.listCount, hf.bucketList]
    exact h.late l hm
  case destroyed => exact fun o ho => hsub o (h.destroyed o ho)

theorem Sane.release_step (h : Sane c s v) (ht : .release n ∈ s.tasks) :
    Sane c { s with seg := s.seg.release n, tasks := s.tasks.erase (.release n) } v := by
  refine h.task_step (alike_release n) (.release n) (fun o ho => ?_) fun o ho => ?_
  · simp only [SegmentT.release]
    split
    · exact List.mem_cons_of_mem _ ho
    · exact ho
  · simp only [SegmentT.release] at ho
    split at ho
    · exact (List.mem_cons.1 ho).symm.imp_right fun he => .inl ⟨n, he, ht⟩
    · exact .inl ho

theorem Sane.retire_step (h : Sane c s v) (ht : .retire l ∈ s.tasks) :
    Sane c { s with seg := s.seg.apply (.retire l), tasks := s.tasks.erase (.retire l) } v := by
  have ha : Alike s.seg (s.seg.apply (.retire l)) := ⟨⟨rfl, rfl, rfl, rfl⟩, rfl, rfl, rfl⟩
  refine h.task_step ha (.retire l) (fun o ho => ?_) fun o ho => ?_
  · exact (retired_apply _ _ _).2 (.inl ho)
  obtain ho | ⟨l', he, ho⟩ := (retired_apply _ _ _).1 ho
  · exact .inl ho
  · cases he
    exact .inr (.inr ⟨l, ho, ht⟩)

/-- A destructor leaves calls of `release` to nodes that exist. -/
theorem Sane.destroy {o : Obj} {r : List Task} (h : Sane c s v) (ho : o ∈ s.seg.retired)
    (hr : ∀ task ∈ r, ∃ m < s.seg.nodeCount, task = .release m) :
    Sane c { s with destroyed := o :: s.destroyed, tasks := s.tasks ++ r } v := by
  obtain ⟨hh, hcl, hsc, hp, hacq, hrel, hvic, htask, hnode, hlist, hlate, hdes⟩ := h
  refine ⟨hh, hcl, hsc, hp, hacq, hrel, hvic, fun n hn => ?_, hnode, fun l hm => ?_, hlate, fun o' ho' => ?_⟩
  · obtain hn | hn := List.mem_append.1 hn
    · exact htask n hn
    · obtain ⟨m, hm, ⟨⟩⟩ := hr _ hn
      exact hm
  · refine hlist l (hm.imp_right fun hm => ?_)
    obtain hm | hm := List.mem_append.1 hm
    · exact hm
    · obtain ⟨m, -, hm⟩ := hr _ hm
      cases hm
  · obtain rfl | ho' := List.mem_cons.1 ho'
    · exact ho
    · exact hdes o' ho'

theorem releaseOf_lt (h : Sane c s v) (hn : n < s.seg.nodeCount) :
    ∀ task ∈ releaseOf (s.seg.next n), ∃ m < s.seg.nodeCount, task = .release m := by
  intro task ht
  obtain ⟨m, hm, rfl⟩ := mem_releaseOf.1 ht
  exact ⟨m, h.closed (.next n) m hn hm, rfl⟩

theorem releaseHeads_lt (h : Sane c s v) (hl : l < s.seg.listCount) :
    ∀ task ∈ releaseHeads s.seg l, ∃ m < s.seg.nodeCount, task = .release m := by
  intro task ht
  obtain ⟨b, hb, m, hm, rfl⟩ := mem_releaseHeads.1 ht
  exact ⟨m, h.closed (.head l b) m ⟨hl, hb⟩ hm, rfl⟩

variable [DecidableEq Key]

theorem Sane.step (h : Sane c s v) (hm : Move c s t) : ∃ v', Sane c t v' := by
  cases hm with
  | insert k value sec hl hs =>
    obtain ⟨V, W, f, hh⟩ := h.holds
    rw [(State.stores_none hl).2.2] at hh
    exact ⟨_, h.opens hl (opens_insert hh h.closed hs)⟩
  | erase k hl =>
    obtain ⟨V, W, f, hh⟩ := h.holds
    rw [(State.stores_none hl).2.2] at hh
    exact ⟨_, h.opens hl (opens_erase hh h.closed k)⟩
  | clear hl =>
    obtain ⟨V, W, f, hh⟩ := h.holds
    rw [(State.stores_none hl).2.2] at hh
    exact ⟨_, h.opens hl (opens_clear hh)⟩
  | store st q d hl => exact ⟨_, h.store hl⟩
  | unlock d hl => exact ⟨_, h.unlock hl⟩
  | release n ht => exact ⟨_, h.release_step ht⟩
  | retire l ht => exact ⟨_, h.retire_step ht⟩
  | destroyNode n hr hd => exact ⟨_, h.destroy hr (releaseOf_lt h (h.node n hr))⟩
  | destroyList l hr hd => exact ⟨_, h.destroy hr (releaseHeads_lt h (h.list l (.inl hr)).1)⟩

end Sane

section Destroy

variable {s : SegmentT Key Value} {q : List (Store Key Value)} {D : List Obj} {n l : Nat}

theorem links_destroyNode (hn : n < s.nodeCount) (hD : .node n ∉ D) (x : Nat) :
    links (.node n :: D) s x + hit (s.next n) x = links D s x := by
  have he : locs (.node n :: D) s = (locs D s).erase (.next n) := by
    ext loc
    rw [Finset.mem_erase, mem_locs, mem_locs]
    cases loc <;> simp [Loc.owner]
    tauto
  have hh := tally_erase (f := s.read) (y := x) (mem_locs.2 ⟨hn, hD⟩ : .next n ∈ locs D s)
  rw [links, he, links, ← hh, Nat.add_comm]
  rfl

theorem links_destroyList (hl : l < s.listCount) (hD : .list l ∉ D) (x : Nat) :
    links (.list l :: D) s x + tally (heads s l) s.read x = links D s x := by
  have he : locs (.list l :: D) s = locs D s \ heads s l := by
    ext loc
    rw [Finset.mem_sdiff, mem_locs, mem_locs, mem_heads]
    cases loc with
    | next n => simp [Loc.owner]
    | head l' b =>
      by_cases hll : l' = l
      · subst hll
        simp +contextual [Loc.owner, Allocated]
      · simp [Loc.owner, hll]
  have hsub : heads s l ⊆ locs D s := by
    intro loc hloc
    obtain ⟨b, hb, rfl⟩ := mem_heads.1 hloc
    exact mem_locs.2 ⟨⟨hl, hb⟩, hD⟩
  rw [links, he]
  exact tally_sdiff hsub

/-- A location keeps its content through stores that go elsewhere. -/
theorem read_applyAll (loc : Loc) (ha : Allocated s loc) (hw : ∀ p, .write loc p ∉ q) :
    (s.applyAll q).read loc = s.read loc := by
  induction q generalizing s with
  | nil => rfl
  | cons st q ih =>
    have hal : Allocated (s.apply st) loc := by
      cases loc with
      | next n => exact lt_of_lt_of_le ha nodeCount_le_apply
      | head l b =>
        refine ⟨ha.1.trans_le listCount_le_apply, ?_⟩
        have hb := bucketCount_applyAll ha.1 [st]
        exact lt_of_lt_of_eq ha.2 (congrArg BitVec.toNat hb).symm
    refine (ih (s := s.apply st) hal (fun p hp => hw p (List.mem_cons_of_mem _ hp))).trans ?_
    cases st with
    | newNode k v =>
      cases loc with
      | head l b => rfl
      | next n =>
        have hne : n ≠ s.nodeCount := Nat.ne_of_lt ha
        simp [SegmentT.read, SegmentT.next, SegmentT.apply, hne]
    | newList bl =>
      cases loc with
      | head l b =>
        have hne : l ≠ s.listCount := ha.1.ne
        simp [SegmentT.read, SegmentT.apply, hne]
      | next n => rfl
    | write loc' p =>
      rw [SegmentT.apply, read_write, if_neg]
      rintro rfl
      exact hw p List.mem_cons_self
    | acquire m =>
      cases loc with
      | head l b => rfl
      | next n => by_cases hn : n = m <;> simp [SegmentT.read, SegmentT.next, SegmentT.apply, hn]
    | _ => cases loc <;> rfl

end Destroy

section Counted

variable {c : Config Key} {s t : State Key Value} {v v' : Option Nat} {st : Store Key Value}
  {q : List (Store Key Value)} {d : List Task} {n l x : Nat}

/-- The counts that the nodes will have when the calls of `acquire` that are
left are made are the numbers of their links, modulo `2 ^ 16`. -/
def Counted (s : State Key Value) : Prop :=
  ∀ x < s.fin.nodeCount, .node x ∉ s.destroyed →
    baseCount s.seg x + BitVec.ofNat 16 (acquires x s.stores) = BitVec.ofNat 16 (s.count x)

theorem Sane.fresh_node (h : Sane c s v) (hn : s.seg.nodeCount ≤ n) : .node n ∉ s.destroyed :=
  fun hd => (h.node n (h.destroyed _ hd)).not_ge hn

theorem Sane.fresh_list (h : Sane c s v) : .list s.seg.listCount ∉ s.destroyed :=
  fun hd => (h.list _ (.inl (h.destroyed _ hd))).1.ne rfl

theorem Sane.count_task (h : Sane c s v) (hn : s.seg.nodeCount ≤ n) : s.tasks.count (.release n) = 0 :=
  List.count_eq_zero.2 (fun ht => (h.task n ht).not_ge hn)

theorem Sane.count_opens (h : Sane c s v) (hl : s.lock = none) (ho : Opens c s.seg q d v')
    (hD : ∀ st ∈ q, ∀ o, st.target = some o → o ∉ s.destroyed) :
    ∃ a, Settled s.destroyed s.seg (s.seg.applyAll q) v' a ∧
      ∀ x < (s.seg.applyAll q).nodeCount, State.count { s with lock := some (q, d) } x =
        (if x < s.seg.nodeCount then s.count x else 1) + hit a x := by
  obtain ⟨-, hdef, hfin⟩ := State.stores_none hl
  obtain ⟨a, hs⟩ := ho.settled s.destroyed hD (fun n hn => h.fresh_node hn) h.fresh_list
  refine ⟨a, hs, fun x hx => ?_⟩
  have hlinks := hs.links x hx
  change links s.destroyed (s.seg.applyAll q) x + s.tasks.count (.release x) + d.count (.release x) = _
  rw [ho.release, State.count, hdef, hfin, List.count_nil]
  split
  · rename_i hlt
    rw [if_pos hlt] at hlinks
    omega
  · rename_i hlt
    rw [if_neg hlt] at hlinks
    have hz := h.count_task (Nat.not_lt.1 hlt)
    omega

theorem Counted.opens (hc : Counted s) (h : Sane c s v) (hl : s.lock = none) (ho : Opens c s.seg q d v')
    (hD : ∀ st ∈ q, ∀ o, st.target = some o → o ∉ s.destroyed) :
    Counted { s with lock := some (q, d) } := by
  obtain ⟨hst, -, hfin⟩ := State.stores_none hl
  obtain ⟨a, hs, hcount⟩ := h.count_opens hl ho hD
  intro x hx hd
  have hx' : x < (s.seg.applyAll q).nodeCount := hx
  rw [hcount x hx]
  have hb := baseCount_applyAll (x := x) ho.scope
  rw [baseCount, if_pos hx', hs.refcount x hx] at hb
  refine hb.symm.trans ?_
  rw [BitVec.ofNat_add]
  congr 1
  split
  · rename_i hlt
    have hh := hc x (hfin ▸ hlt) hd
    rw [hst, baseCount, if_pos hlt] at hh
    simpa [acquires] using hh
  · rfl

theorem State.fin_store (hl : s.lock = some (st :: q, d)) :
    State.fin { s with seg := s.seg.apply st, lock := some (q, d) } = s.fin :=
  (State.stores_some hl).2.2.symm

theorem State.count_store (hl : s.lock = some (st :: q, d)) :
    State.count { s with seg := s.seg.apply st, lock := some (q, d) } x = s.count x := by
  obtain ⟨-, hdef, hfin⟩ := State.stores_some hl
  rw [State.count, State.count, State.fin_store hl, hdef]
  rfl

theorem Counted.store (hc : Counted s) (h : Sane c s v) (hl : s.lock = some (st :: q, d)) :
    Counted { s with seg := s.seg.apply st, lock := some (q, d) } := by
  intro x hx hd
  rw [State.fin_store hl] at hx
  have hsc := h.scope
  have hh := hc x hx hd
  rw [(State.stores_some hl).1] at hsc hh
  rw [State.count_store hl, ← hh]
  exact baseCount_apply hsc

theorem State.count_unlock (hl : s.lock = some ([], d)) :
    State.count { s with lock := none, tasks := s.tasks ++ d } x = s.count x := by
  obtain ⟨-, hdef, hfin⟩ := State.stores_some hl
  rw [State.count, State.count, hdef, hfin]
  change links s.destroyed s.seg x + (s.tasks ++ d).count (.release x) + 0 = _
  rw [List.count_append, Nat.add_zero, Nat.add_assoc]
  rfl

theorem Counted.unlock (hc : Counted s) (hl : s.lock = some ([], d)) :
    Counted { s with lock := none, tasks := s.tasks ++ d } := by
  obtain ⟨hst, -, hfin⟩ := State.stores_some hl
  intro x hx hd
  have hh := hc x (hfin ▸ hx) hd
  rw [hst] at hh
  rw [State.count_unlock hl]
  exact hh

theorem State.count_release (ht : .release n ∈ s.tasks) :
    State.count { s with seg := s.seg.release n, tasks := s.tasks.erase (.release n) } x + hit (some n) x =
      s.count x := by
  have hf : Alike s.fin ((s.seg.release n).applyAll s.stores) := (alike_release n).applyAll s.stores
  have hcount : (s.tasks.erase (.release n)).count (.release x) + hit (some n) x = s.tasks.count (.release x) := by
    by_cases hn : n = x
    · subst hn
      have hpos := List.count_pos_iff.2 ht
      rw [List.count_erase_self, hit_self]
      omega
    · have hz : hit (some n) x = 0 := by simp [hit, hn]
      rw [List.count_erase_of_ne (by simpa using Ne.symm hn), hz, Nat.add_zero]
  change links s.destroyed ((s.seg.release n).applyAll s.stores) x + (s.tasks.erase (.release n)).count _ +
    s.deferred.count _ + _ = _
  rw [hf.links, State.count]
  omega

theorem Counted.release (hc : Counted s) (h : Sane c s v) (ht : .release n ∈ s.tasks) :
    Counted { s with seg := s.seg.release n, tasks := s.tasks.erase (.release n) } := by
  have hf : Alike s.fin ((s.seg.release n).applyAll s.stores) := (alike_release n).applyAll s.stores
  intro x hx hd
  have hh := hc x (hf.nodeCount ▸ hx) hd
  rw [← State.count_release ht (x := x), BitVec.ofNat_add, ← baseCount_release (h.task n ht) x,
    BitVec.add_assoc, BitVec.add_comm (BitVec.ofNat 16 (hit (some n) x)), ← BitVec.add_assoc] at hh
  exact (BitVec.add_left_inj _).1 hh

theorem State.count_retire :
    State.count { s with seg := s.seg.apply (.retire l), tasks := s.tasks.erase (.retire l) } x = s.count x := by
  have ha : Alike s.seg (s.seg.apply (.retire l)) := ⟨⟨rfl, rfl, rfl, rfl⟩, rfl, rfl, rfl⟩
  have hf := ha.applyAll s.stores
  change links s.destroyed ((s.seg.apply (.retire l)).applyAll s.stores) x +
    (s.tasks.erase (.retire l)).count _ + s.deferred.count _ = _
  rw [hf.links, List.count_erase_of_ne (by simp)]
  rfl

theorem Counted.retire (hc : Counted s) (l : Nat) :
    Counted { s with seg := s.seg.apply (.retire l), tasks := s.tasks.erase (.retire l) } := by
  have ha : Alike s.seg (s.seg.apply (.retire l)) := ⟨⟨rfl, rfl, rfl, rfl⟩, rfl, rfl, rfl⟩
  intro x hx hd
  rw [State.count_retire]
  exact hc x ((ha.applyAll s.stores).nodeCount ▸ hx) hd

theorem State.count_destroyNode (hn : n < s.seg.nodeCount) (hd : .node n ∉ s.destroyed)
    (hq : ∀ st ∈ s.stores, st.target ≠ some (.node n)) :
    State.count { s with destroyed := .node n :: s.destroyed, tasks := s.tasks ++ releaseOf (s.seg.next n) } x =
      s.count x := by
  have hread : s.fin.next n = s.seg.next n :=
    read_applyAll (.next n) hn (fun p hp => hq _ hp rfl)
  have hl := links_destroyNode (s := s.fin) (hn.trans_le (nodeCount_le_applyAll _)) hd x
  change links (.node n :: s.destroyed) s.fin x + (s.tasks ++ releaseOf (s.seg.next n)).count _ +
    s.deferred.count _ = _
  rw [List.count_append, count_releaseOf, State.count]
  rw [hread] at hl
  omega

theorem State.count_destroyList (hlt : l < s.seg.listCount) (hd : .list l ∉ s.destroyed)
    (hq : ∀ st ∈ s.stores, st.target ≠ some (.list l)) :
    State.count { s with destroyed := .list l :: s.destroyed, tasks := s.tasks ++ releaseHeads s.seg l } x =
      s.count x := by
  have hbucket : (s.fin.list l).bucketCount = (s.seg.list l).bucketCount := bucketCount_applyAll hlt _
  have hheads : tally (heads s.fin l) s.fin.read x = tally (heads s.seg l) s.seg.read x := by
    rw [heads, hbucket]
    refine tally_congr fun loc hloc => ?_
    obtain ⟨b, hb, rfl⟩ := mem_heads.1 hloc
    exact read_applyAll (.head l b) ⟨hlt, hb⟩ (fun p hp => hq _ hp rfl)
  have hl := links_destroyList (s := s.fin) (hlt.trans_le (listCount_le_applyAll _)) hd x
  change links (.list l :: s.destroyed) s.fin x + (s.tasks ++ releaseHeads s.seg l).count _ +
    s.deferred.count _ = _
  rw [List.count_append, count_releaseHeads, State.count]
  rw [hheads] at hl
  omega

theorem Counted.destroyNode (hc : Counted s) (h : Sane c s v) (hr : .node n ∈ s.seg.retired)
    (hd : .node n ∉ s.destroyed) (hq : ∀ st ∈ s.stores, st.target ≠ some (.node n)) :
    Counted { s with destroyed := .node n :: s.destroyed, tasks := s.tasks ++ releaseOf (s.seg.next n) } := by
  intro x hx hdx
  rw [State.count_destroyNode (h.node n hr) hd hq]
  exact hc x hx (fun hdx' => hdx (List.mem_cons_of_mem _ hdx'))

theorem Counted.destroyList (hc : Counted s) (h : Sane c s v) (hr : .list l ∈ s.seg.retired)
    (hd : .list l ∉ s.destroyed) (hq : ∀ st ∈ s.stores, st.target ≠ some (.list l)) :
    Counted { s with destroyed := .list l :: s.destroyed, tasks := s.tasks ++ releaseHeads s.seg l } := by
  intro x hx hdx
  rw [State.count_destroyList (h.list l (.inl hr)).1 hd hq]
  exact hc x hx (fun hdx' => hdx (List.mem_cons_of_mem _ hdx'))

variable [DecidableEq Key]

theorem Counted.step (hc : Counted s) (h : Sane c s v) (hm : Move c s t) (hd : Defined t) : Counted t := by
  cases hm with
  | insert k value sec hl hs =>
    obtain ⟨V, W, f, hh⟩ := h.holds
    rw [(State.stores_none hl).2.2] at hh
    exact hc.opens h hl (opens_insert hh h.closed hs) hd
  | erase k hl =>
    obtain ⟨V, W, f, hh⟩ := h.holds
    rw [(State.stores_none hl).2.2] at hh
    exact hc.opens h hl (opens_erase hh h.closed k) hd
  | clear hl =>
    obtain ⟨V, W, f, hh⟩ := h.holds
    rw [(State.stores_none hl).2.2] at hh
    exact hc.opens h hl (opens_clear hh) hd
  | store st q d hl => exact hc.store h hl
  | unlock d hl => exact hc.unlock hl
  | release n ht => exact hc.release h ht
  | retire l ht => exact hc.retire l
  | destroyNode n hr hn =>
    exact hc.destroyNode h hr hn (fun st hst he => hd st hst _ he List.mem_cons_self)
  | destroyList l hr hn =>
    exact hc.destroyList h hr hn (fun st hst he => hd st hst _ he List.mem_cons_self)

end Counted

end Wizard.HashMap.Reclaim
