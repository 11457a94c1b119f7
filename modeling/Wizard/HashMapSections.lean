import Wizard.HashMapChains

/-! The mutex sections store by store. Until its last store a section writes
only what no reader can see, apart from publishing the bucket list that a
rehash has filled. -/

namespace Wizard.HashMap

open SegmentT

variable {Key Value : Type}

/-- The current bucket list holds `f`. Readers can see the nodes of `V` and the
bucket lists of `W`. -/
structure Holds (c : Config Key) (s : SegmentT Key Value) (V W : Set Nat) (f : Key → Option Value) :
    Prop where
  nodes : ∀ n ∈ V, n < s.nodeCount
  lists : ∀ l ∈ W, l < s.listCount
  current : s.bucketList ∈ W
  chains : ∃ ch, Chains c s s.bucketList V ch f

/-- The stores of a section that starts with the map `f` and ends with `f'`,
which the last of them puts in place. -/
inductive Safe (c : Config Key) : SegmentT Key Value → Set Nat → Set Nat → (Key → Option Value) →
    List (Store Key Value) → (Key → Option Value) → Prop
  | done {s V W f} (h : Holds c s V W f) : Safe c s V W f [] f
  | step {s V V' W W' f f' st rest} (h : Holds c s V W f) (hr : rest ≠ []) (hW : W ⊆ W')
      (hs : Serves c s (s.apply st) V V' W f) (ht : Safe c (s.apply st) V' W' f rest f') :
      Safe c s V W f (st :: rest) f'
  | last {s V V' W f f' st} (h : Holds c s V W f) (hs : Serves c s (s.apply st) V V' W f')
      (ht : Holds c (s.apply st) V' W f') : Safe c s V W f [st] f'

/-- A store that readers cannot see. -/
def Private (V W : Set Nat) : Store Key Value → Prop
  | .write (.head l _) _ => l ∉ W
  | .write (.next n) _ => n ∉ V
  | .publish _ => False
  | _ => True

section Private

variable {c : Config Key} {s : SegmentT Key Value} {V W : Set Nat} {f f' : Key → Option Value}
  {st : Store Key Value} {q rest : List (Store Key Value)}

theorem Private.agree (hp : Private V W st) (hn : ∀ n ∈ V, n < s.nodeCount) : Agree s (s.apply st) V := by
  intro n hV
  have hlt := hn n hV
  cases st with
  | newNode k v =>
    have hne : n ≠ s.nodeCount := by omega
    simp [SegmentT.apply, next, key, value, hne]
  | write loc p =>
    refine ⟨?_, by simp [SegmentT.apply], by simp [SegmentT.apply]⟩
    rw [SegmentT.apply, next_write, if_neg]
    rintro rfl
    exact hp hV
  | acquire m => by_cases hm : n = m <;> simp [SegmentT.apply, next, key, value, hm]
  | publish l => exact hp.elim
  | newList bl => exact ⟨rfl, rfl, rfl⟩
  | retire l => exact ⟨rfl, rfl, rfl⟩
  | setSize m => exact ⟨rfl, rfl, rfl⟩
  | setThreshold m => exact ⟨rfl, rfl, rfl⟩

theorem Private.list_eq (hp : Private V W st) {l : Nat} (hl : l ∈ W) (hlt : l < s.listCount) :
    (s.apply st).list l = s.list l := by
  cases st with
  | newList bl =>
    have hne : l ≠ s.listCount := by omega
    simp [SegmentT.apply, hne]
  | write loc p =>
    cases loc with
    | head l' b =>
      have hne : l ≠ l' := by
        rintro rfl
        exact hp hl
      simp [SegmentT.apply, SegmentT.write, hne]
    | next n => rfl
  | publish l => exact hp.elim
  | newNode k v => rfl
  | acquire m => rfl
  | retire l => rfl
  | setSize m => rfl
  | setThreshold m => rfl

theorem Private.bucketList (hp : Private V W st) : (s.apply st).bucketList = s.bucketList := by
  cases st with
  | write loc p => simp [SegmentT.apply]
  | publish l => exact hp.elim
  | _ => rfl

theorem applyAll_append (q q' : List (Store Key Value)) :
    s.applyAll (q ++ q') = (s.applyAll q).applyAll q' :=
  List.foldl_append

theorem nodeCount_le_apply : s.nodeCount ≤ (s.apply st).nodeCount := by
  cases st <;> simp [SegmentT.apply]

theorem listCount_le_apply : s.listCount ≤ (s.apply st).listCount := by
  cases st <;> simp [SegmentT.apply]

theorem nodeCount_le_applyAll (q : List (Store Key Value)) : s.nodeCount ≤ (s.applyAll q).nodeCount := by
  induction q generalizing s with
  | nil => rfl
  | cons st q ih => exact nodeCount_le_apply.trans ih

theorem listCount_le_applyAll (q : List (Store Key Value)) : s.listCount ≤ (s.applyAll q).listCount := by
  induction q generalizing s with
  | nil => rfl
  | cons st q ih => exact listCount_le_apply.trans ih

/-- The key and the value of a node never change. -/
theorem entry_apply {n : Nat} (hn : n < s.nodeCount) (st : Store Key Value) :
    (s.apply st).key n = s.key n ∧ (s.apply st).value n = s.value n := by
  cases st with
  | newNode k v =>
    have hne : n ≠ s.nodeCount := by omega
    simp [SegmentT.apply, key, value, hne]
  | write loc p => simp [SegmentT.apply]
  | acquire m => by_cases hm : n = m <;> simp [SegmentT.apply, key, value, hm]
  | _ => exact ⟨rfl, rfl⟩

theorem entry_applyAll {n : Nat} (hn : n < s.nodeCount) (q : List (Store Key Value)) :
    (s.applyAll q).key n = s.key n ∧ (s.applyAll q).value n = s.value n := by
  induction q generalizing s with
  | nil => exact ⟨rfl, rfl⟩
  | cons st q ih =>
    obtain ⟨hk, hv⟩ := ih (s := s.apply st) (hn.trans_le nodeCount_le_apply)
    obtain ⟨hk', hv'⟩ := entry_apply hn st
    exact ⟨hk.trans hk', hv.trans hv'⟩

theorem Holds.apply (h : Holds c s V W f) (hp : Private V W st) : Holds c (s.apply st) V W f := by
  obtain ⟨ch, hc⟩ := h.chains
  refine ⟨fun n hn => (h.nodes n hn).trans_le nodeCount_le_apply,
    fun l hl => (h.lists l hl).trans_le listCount_le_apply, ?_, ch, ?_⟩ <;> rw [hp.bucketList]
  · exact h.current
  · exact hc.congr (hp.agree h.nodes) (hp.list_eq h.current (h.lists _ h.current)) subset_rfl

theorem Holds.applyAll (h : Holds c s V W f) (hq : ∀ st ∈ q, Private V W st) :
    Holds c (s.applyAll q) V W f := by
  induction q generalizing s with
  | nil => exact h
  | cons st q ih =>
    rw [List.forall_mem_cons] at hq
    exact ih (h.apply hq.1) hq.2

/-- Stores that readers cannot see leave the nodes and the lists as they are. -/
theorem agree_applyAll (hV : ∀ n ∈ V, n < s.nodeCount) (hW : ∀ l ∈ W, l < s.listCount)
    (hq : ∀ st ∈ q, Private V W st) :
    Agree s (s.applyAll q) V ∧ ∀ l ∈ W, (s.applyAll q).list l = s.list l := by
  induction q generalizing s with
  | nil => exact ⟨fun n _ => ⟨rfl, rfl, rfl⟩, fun l _ => rfl⟩
  | cons st q ih =>
    rw [List.forall_mem_cons] at hq
    obtain ⟨ha, hl⟩ := ih (fun n hn => (hV n hn).trans_le nodeCount_le_apply)
      (fun l hl => (hW l hl).trans_le listCount_le_apply) hq.2
    have ha' := hq.1.agree hV
    refine ⟨fun n hn => ?_, fun l hlW => ?_⟩
    · exact ⟨(ha n hn).1.trans (ha' n hn).1, (ha n hn).2.1.trans (ha' n hn).2.1,
        (ha n hn).2.2.trans (ha' n hn).2.2⟩
    · exact (hl l hlW).trans (hq.1.list_eq hlW (hW l hlW))

theorem Holds.agree (h : Holds c s V W f) (hq : ∀ st ∈ q, Private V W st) :
    Agree s (s.applyAll q) V ∧ ∀ l ∈ W, (s.applyAll q).list l = s.list l :=
  agree_applyAll h.nodes h.lists hq

theorem Holds.bucketList_applyAll (h : Holds c s V W f) (hq : ∀ st ∈ q, Private V W st) :
    (s.applyAll q).bucketList = s.bucketList := by
  induction q generalizing s with
  | nil => rfl
  | cons st q ih =>
    rw [List.forall_mem_cons] at hq
    exact (ih (h.apply hq.1) hq.2).trans hq.1.bucketList

theorem Holds.headOf_applyAll (h : Holds c s V W f) (hq : ∀ st ∈ q, Private V W st) (k : Key) :
    headOf c (s.applyAll q) s.bucketList k = headOf c s s.bucketList k := by
  rw [headOf, (h.agree hq).2 _ h.current, headOf]

theorem Safe.prepend (h : Holds c s V W f) (hq : ∀ st ∈ q, Private V W st) (hr : rest ≠ [])
    (hs : Safe c (s.applyAll q) V W f rest f') : Safe c s V W f (q ++ rest) f' := by
  induction q generalizing s with
  | nil => exact hs
  | cons st q ih =>
    rw [List.forall_mem_cons] at hq
    have ha := hq.1.agree h.nodes
    refine .step h (by simp [hr]) subset_rfl ?_ (ih (h.apply hq.1) hq.2 hs)
    exact .of_agree ha (fun l hl => hq.1.list_eq hl (h.lists l hl)) subset_rfl f

/-- Private stores, then the store that relinks a chain. -/
theorem Safe.relink {V' : Set Nat} {ch : Nat → List Nat} {loc : Loc} {p : Option Nat} (h : Holds c s V W f)
    (hq : ∀ st ∈ q, Private V W st) (hV : ∀ n ∈ V', n < (s.applyAll q).nodeCount)
    (hr : Relinked c (s.applyAll q) ((s.applyAll q).write loc p) s.bucketList V V' ch f') :
    Safe c s V W f (q ++ [.write loc p]) f' := by
  have hh := h.applyAll hq
  have hb := h.bucketList_applyAll hq
  refine .prepend h hq (by simp) (.last hh (hr.serves W) ⟨?_, ?_, ?_, ?_⟩)
  · simpa [SegmentT.apply] using hV
  · simpa [SegmentT.apply] using hh.lists
  · simpa [SegmentT.apply] using hh.current
  · exact ⟨ch, by simpa [SegmentT.apply, hb] using hr.chains⟩

theorem Safe.holds (h : Safe c s V W f q f') : Holds c s V W f := by
  cases h <;> assumption

theorem Safe.holds_end (h : Safe c s V W f q f') : ∃ V' W', Holds c (s.applyAll q) V' W' f' := by
  induction h with
  | done h => exact ⟨_, _, h⟩
  | step h hr hW hs ht ih => exact ih
  | last h hs ht => exact ⟨_, _, ht⟩

end Private

section Sections

variable [DecidableEq Key] {c : Config Key} {s : SegmentT Key Value} {V W : Set Nat}
  {f : Key → Option Value} {k : Key} {v : Value}

omit [DecidableEq Key] in
theorem Holds.length_le {ch : Nat → List Nat} (h : Holds c s V W f)
    (hc : Chains c s s.bucketList V ch f) (b : Nat) : (ch b).length ≤ s.nodeCount := by
  have hsub : ch b ⊆ List.range s.nodeCount := by
    intro n hn
    exact List.mem_range.2 (h.nodes n (hc.mem b n hn))
  simpa using ((hc.nodup_ids b).subperm hsub).length_le

theorem Holds.find_eq (h : Holds c s V W f) (k : Key) : s.find c k = f k := by
  obtain ⟨ch, hc⟩ := h.chains
  have hl := hc.linked (bucketId c (s.list s.bucketList).bucketCount k)
  have hf := (Finds.of_segment (k := k) hl (hc.mem _)).unique (hc.finds k)
  rw [← hf, SegmentT.find, headOf, findNode_of_segment hl (h.length_le hc _), lookup]

/-- The loop of the writers finds the key in its chain, or no key is there. -/
theorem Holds.search_cases {ch : Nat → List Nat} (h : Holds c s V W f)
    (hc : Chains c s s.bucketList V ch f) (k : Key) :
    (s.search k (headOf c s s.bucketList k) s.nodeCount = none ∧ f k = none) ∨
    ∃ b pre n post, ch b = pre ++ n :: post ∧ s.key n = k ∧ f k ≠ none ∧
      s.search k (headOf c s s.bucketList k) s.nodeCount =
        some (lastLoc (.head s.bucketList b) pre, n) := by
  have hl := hc.linked (bucketId c (s.list s.bucketList).bucketCount k)
  cases hs : s.search k (headOf c s s.bucketList k) s.nodeCount with
  | none =>
    refine .inl ⟨rfl, hc.eq_none_iff.2 ?_⟩
    exact search_eq_none hs hl (h.length_le hc _)
  | some r =>
    obtain ⟨prev, n⟩ := r
    obtain ⟨pre, hpre, rfl, hk, -⟩ := search_eq_some hs
    obtain ⟨post, hch, -⟩ := hl.split hpre
    refine .inr ⟨_, pre, n, post, hch, hk, fun hf => ?_, rfl⟩
    exact hc.eq_none_iff.1 hf n (by simp [hch]) hk

omit [DecidableEq Key] in
theorem acquireStores_private (o : Option Nat) :
    ∀ st ∈ (acquireStores o : List (Store Key Value)), Private V W st := by
  cases o <;> simp [acquireStores, Private]

/-- The stores before the one that links a new node in at the head. -/
def insertPrefix (c : Config Key) (s : SegmentT Key Value) (k : Key) (new : Nat) :
    List (Store Key Value) :=
  [.setSize (s.size + 1), .write (.next new) (s.read (headOf c s s.bucketList k))]

/-- The stores before the one that puts a new node in the place of `n`. -/
def replacePrefix (s : SegmentT Key Value) (n new : Nat) : List (Store Key Value) :=
  acquireStores (s.next n) ++ [.write (.next new) (s.next n)]

/-- The stores before the one that unlinks `n`. -/
def erasePrefix (s : SegmentT Key Value) (n : Nat) : List (Store Key Value) :=
  .setSize (s.size - 1) :: acquireStores (s.next n)

section Prefixes

variable {new n b : Nat} {pre post : List Nat} {ch : Nat → List Nat}

omit [DecidableEq Key] in
theorem insertPrefix_private (hnew : new ∉ V) : ∀ st ∈ insertPrefix c s k new, Private V W st := by
  simpa [insertPrefix, Private] using hnew

omit [DecidableEq Key] in
theorem replacePrefix_private (hnew : new ∉ V) : ∀ st ∈ replacePrefix s n new, Private V W st := by
  simpa [replacePrefix, Private, or_imp, forall_and] using ⟨acquireStores_private (s.next n), hnew⟩

omit [DecidableEq Key] in
theorem erasePrefix_private : ∀ st ∈ erasePrefix s n, Private V W st :=
  List.forall_mem_cons.2 ⟨trivial, acquireStores_private (s.next n)⟩

theorem Holds.insert_relinked (h : Holds c s V W f) (hc : Chains c s s.bucketList V ch f)
    (hf : f k = none) (hnew : new ∉ V) (hlt : new < s.nodeCount) (hk : s.key new = k)
    (hv : s.value new = v) :
    Relinked c (s.applyAll (insertPrefix c s k new))
      ((s.applyAll (insertPrefix c s k new)).write (headOf c s s.bucketList k) (some new))
      s.bucketList V (insert new V)
      (Function.update ch (bucketId c (s.list s.bucketList).bucketCount k)
        (new :: ch (bucketId c (s.list s.bucketList).bucketCount k)))
      (Function.update f k (some v)) := by
  have hq := insertPrefix_private (c := c) (s := s) (k := k) (W := W) hnew
  obtain ⟨ha, hl⟩ := h.agree hq
  obtain ⟨hkey, hval⟩ := entry_applyAll hlt (insertPrefix c s k new)
  rw [hk] at hkey
  rw [hv] at hval
  have hhead := h.headOf_applyAll hq k
  have hnext : (s.applyAll (insertPrefix c s k new)).next new =
      (s.applyAll (insertPrefix c s k new)).read (headOf c s s.bucketList k) := by
    have hne : headOf c s s.bucketList k ≠ .next new := by simp [headOf]
    simp only [insertPrefix, SegmentT.applyAll, List.foldl, SegmentT.apply, next_write, read_write, if_true,
      if_neg hne]
    rfl
  have hr := (hc.congr ha (hl _ h.current) subset_rfl).insertHead (n := new)
    (by rwa [hkey]) (by rwa [hkey, hhead]) (Set.subset_insert new V) (Set.mem_insert new V)
  rwa [hkey, hval, hhead, hl _ h.current] at hr

theorem Holds.replace_relinked (h : Holds c s V W f) (hc : Chains c s s.bucketList V ch f)
    (hch : ch b = pre ++ n :: post) (hkn : s.key n = k) (hnew : new ∉ V) (hlt : new < s.nodeCount)
    (hk : s.key new = k) (hv : s.value new = v) :
    Relinked c (s.applyAll (replacePrefix s n new))
      ((s.applyAll (replacePrefix s n new)).write (lastLoc (.head s.bucketList b) pre) (some new))
      s.bucketList V (insert new V) (Function.update ch b (pre ++ new :: post))
      (Function.update f k (some v)) := by
  obtain ⟨ha, hl⟩ := h.agree (replacePrefix_private hnew)
  obtain ⟨hkey, hval⟩ := entry_applyAll hlt (replacePrefix s n new)
  have hn := ha n (hc.mem b n (by simp [hch]))
  have hnext : (s.applyAll (replacePrefix s n new)).next new =
      (s.applyAll (replacePrefix s n new)).next n := by
    rw [hn.1]
    simp [replacePrefix, SegmentT.applyAll, SegmentT.apply, next_write]
  have hr := (hc.congr ha (hl _ h.current) subset_rfl).replace (m := new) hch
    (by rw [hkey, hn.2.1, hk, hkn]) hnext (Set.subset_insert new V) (Set.mem_insert new V)
  rwa [hkey, hval, hk, hv] at hr

theorem Holds.erase_relinked (h : Holds c s V W f) (hc : Chains c s s.bucketList V ch f)
    (hch : ch b = pre ++ n :: post) (hkn : s.key n = k) :
    Relinked c (s.applyAll (erasePrefix s n))
      ((s.applyAll (erasePrefix s n)).write (lastLoc (.head s.bucketList b) pre) (s.next n))
      s.bucketList V V (Function.update ch b (pre ++ post)) (Function.update f k none) := by
  obtain ⟨ha, hl⟩ := h.agree erasePrefix_private
  have hn := ha n (hc.mem b n (by simp [hch]))
  have hr := (hc.congr ha (hl _ h.current) subset_rfl).erase hch
  rwa [hn.1, hn.2.1, hkn] at hr

end Prefixes

theorem linkStores_chains {new : Nat} (h : Holds c s V W f) (hnew : new ∉ V) (hlt : new < s.nodeCount)
    (hk : s.key new = k) (hv : s.value new = v) :
    ∃ ch, Chains c (s.applyAll (linkStores c s k new).1) s.bucketList (insert new V) ch
      (Function.update f k (some v)) := by
  obtain ⟨ch, hc⟩ := h.chains
  obtain ⟨hs, hf⟩ | ⟨b, pre, n, post, hch, hkn, -, hs⟩ := h.search_cases hc k
  · simp only [linkStores, hs]
    exact ⟨_, (h.insert_relinked hc hf hnew hlt hk hv).chains⟩
  · have hr := h.replace_relinked hc hch hkn hnew hlt hk hv
    have he : s.applyAll (linkStores c s k new).1 =
        (s.applyAll (replacePrefix s n new)).write (lastLoc (.head s.bucketList b) pre) (some new) := by
      simp [linkStores, hs, replacePrefix, applyAll, SegmentT.apply]
    rw [he]
    exact ⟨_, hr.chains⟩

theorem eraseSection_chains (h : Holds c s V W f) (k : Key) :
    ∃ ch, Chains c (s.applyAll (eraseSection c s k).1) s.bucketList V ch (Function.update f k none) := by
  obtain ⟨ch, hc⟩ := h.chains
  obtain ⟨hs, hf⟩ | ⟨b, pre, n, post, hch, hkn, -, hs⟩ := h.search_cases hc k
  · simp only [eraseSection, hs]
    rw [← hf, Function.update_eq_self]
    exact ⟨ch, hc⟩
  · have hr := h.erase_relinked hc hch hkn
    have he : s.applyAll (eraseSection c s k).1 =
        (s.applyAll (erasePrefix s n)).write (lastLoc (.head s.bucketList b) pre) (s.next n) := by
      simp [eraseSection, hs, erasePrefix, applyAll, SegmentT.apply]
    rw [he]
    exact ⟨_, hr.chains⟩

theorem linkStores_safe {new : Nat} (h : Holds c s V W f) (hnew : new ∉ V) (hlt : new < s.nodeCount)
    (hk : s.key new = k) (hv : s.value new = v) :
    Safe c s V W f (linkStores c s k new).1 (Function.update f k (some v)) := by
  have hV : ∀ q : List (Store Key Value), ∀ n ∈ insert new V, n < (s.applyAll q).nodeCount := by
    rintro q n (rfl | hn)
    · exact hlt.trans_le (nodeCount_le_applyAll q)
    · exact (h.nodes n hn).trans_le (nodeCount_le_applyAll q)
  obtain ⟨ch, hc⟩ := h.chains
  obtain ⟨hs, hf⟩ | ⟨b, pre, n, post, hch, hkn, -, hs⟩ := h.search_cases hc k
  · simp only [linkStores, hs]
    exact .relink (q := insertPrefix c s k new) h (insertPrefix_private hnew) (hV _)
      (h.insert_relinked hc hf hnew hlt hk hv)
  · have hh := Safe.relink h (replacePrefix_private hnew) (hV _)
      (h.replace_relinked hc hch hkn hnew hlt hk hv)
    simpa [linkStores, hs, replacePrefix] using hh

theorem eraseSection_safe (h : Holds c s V W f) (k : Key) :
    Safe c s V W f (eraseSection c s k).1 (Function.update f k none) := by
  obtain ⟨ch, hc⟩ := h.chains
  obtain ⟨hs, hf⟩ | ⟨b, pre, n, post, hch, hkn, -, hs⟩ := h.search_cases hc k
  · simp only [eraseSection, hs]
    rw [← hf, Function.update_eq_self]
    exact .done h
  · simp only [eraseSection, hs]
    exact .relink (q := erasePrefix s n) h erasePrefix_private (h.applyAll erasePrefix_private).nodes
      (h.erase_relinked hc hch hkn)

end Sections

section Rehash

variable {c : Config Key} {s : SegmentT Key Value} {V W : Set Nat} {f : Key → Option Value} {l : Nat}

theorem copyStores_private (hV : ∀ n ∈ V, n < s.nodeCount) (hl : l ∉ W) (ps : List Nat) :
    ∀ st ∈ copyStores c l s ps, Private V W st := by
  induction ps generalizing s with
  | nil => simp [copyStores]
  | cons p ps ih =>
    have hn : s.nodeCount ∉ V := fun h => (hV _ h).ne rfl
    have hone : ∀ st ∈ copyOne c s l p, Private V W st := by
      simp [copyOne, Private, headOf, hl, hn]
    have hV' : ∀ n ∈ V, n < (s.applyAll (copyOne c s l p)).nodeCount :=
      fun n hm => (hV n hm).trans_le (nodeCount_le_applyAll _)
    simp only [copyStores, List.mem_append, or_imp, forall_and]
    exact ⟨hone, ih hV'⟩

variable [DecidableEq Key]

theorem copyOne_chains {ch : Nat → List Nat} {U : Set Nat} {p : Nat} (h : Chains c s l U ch f)
    (hU : ∀ n ∈ U, n < s.nodeCount) (hf : f (s.key p) = none) :
    ∃ ch', Chains c (s.applyAll (copyOne c s l p)) l (insert s.nodeCount U) ch'
      (Function.update f (s.key p) (some (s.value p))) ∧
      ∀ n, n = s.nodeCount ∨ (∃ b, n ∈ ch b) → ∃ b, n ∈ ch' b := by
  set s₁ := s.applyAll [.newNode (s.key p) (s.value p),
    .write (.next s.nodeCount) (s.read (headOf c s l (s.key p)))] with hs₁
  have hlist : s₁.list l = s.list l := by simp [hs₁, applyAll, SegmentT.apply, SegmentT.write]
  have ha : Agree s s₁ U := by
    intro n hn
    have hne : n ≠ s.nodeCount := (hU n hn).ne
    simp [hs₁, applyAll, SegmentT.apply, next, key, value, hne, SegmentT.write]
  have hkey : s₁.key s.nodeCount = s.key p := by simp [hs₁, applyAll, SegmentT.apply, key, SegmentT.write]
  have hval : s₁.value s.nodeCount = s.value p := by
    simp [hs₁, applyAll, SegmentT.apply, value, SegmentT.write]
  have hhead : headOf c s₁ l (s.key p) = headOf c s l (s.key p) := by rw [headOf, hlist, headOf]
  have hnext : s₁.next s.nodeCount = s₁.read (headOf c s l (s.key p)) := by
    simp [hs₁, applyAll, SegmentT.apply, next, SegmentT.write, headOf, SegmentT.read]
  have hc := h.congr ha hlist (Set.subset_insert s.nodeCount U)
  have hr := hc.insertHead (n := s.nodeCount) (by rwa [hkey]) (by rwa [hkey, hhead]) subset_rfl
    (Set.mem_insert _ _)
  rw [hkey, hval, hhead] at hr
  refine ⟨_, hr.chains, fun n hn => ?_⟩
  set b := bucketId c (s₁.list l).bucketCount (s.key p)
  obtain rfl | ⟨b', hb'⟩ := hn
  · exact ⟨b, by simp⟩
  · refine ⟨b', ?_⟩
    by_cases hbb : b' = b
    · subst hbb
      simp [hb']
    · rwa [Function.update_of_ne hbb]

omit [DecidableEq Key] in
theorem nodeCount_copyOne (p : Nat) : (s.applyAll (copyOne c s l p)).nodeCount = s.nodeCount + 1 := by
  simp [copyOne, applyAll, SegmentT.apply]

theorem lookup_congr {s' : SegmentT Key Value} {ps : List Nat}
    (h : ∀ p ∈ ps, s'.key p = s.key p ∧ s'.value p = s.value p) (k : Key) :
    lookup s' ps k = lookup s ps k := by
  induction ps with
  | nil => rfl
  | cons p ps ih =>
    rw [List.forall_mem_cons] at h
    rw [lookup_cons, lookup_cons, h.1.1, h.1.2, ih h.2]

/-- The loops of `rehash` add what the sources hold to the new list. -/
theorem copyStores_chains {ch : Nat → List Nat} {U : Set Nat} {ps : List Nat} (h : Chains c s l U ch f)
    (hU : ∀ n ∈ U, n < s.nodeCount) (hps : ∀ p ∈ ps, p < s.nodeCount) (hnd : (ps.map s.key).Nodup)
    (hf : ∀ p ∈ ps, f (s.key p) = none) :
    ∃ ch', Chains c (s.applyAll (copyStores c l s ps)) l
      (U ∪ {n | s.nodeCount ≤ n ∧ n < (s.applyAll (copyStores c l s ps)).nodeCount}) ch'
      (fun k => (lookup s ps k).or (f k)) ∧
      ∀ n, (s.nodeCount ≤ n ∧ n < (s.applyAll (copyStores c l s ps)).nodeCount) ∨ (∃ b, n ∈ ch b) →
        ∃ b, n ∈ ch' b := by
  induction ps generalizing s f ch U with
  | nil =>
    refine ⟨ch, ?_, fun n hn => hn.resolve_left (fun hh => hh.2.not_ge hh.1)⟩
    have he : U ∪ {n | s.nodeCount ≤ n ∧ n < s.nodeCount} = U :=
      Set.union_eq_left.2 (fun n hn => absurd hn.1 hn.2.not_ge)
    simpa [copyStores, applyAll, lookup, he] using h
  | cons p ps ih =>
    rw [List.forall_mem_cons] at hps hf
    rw [List.map_cons, List.nodup_cons] at hnd
    obtain ⟨ch₁, h₁, hall₁⟩ := copyOne_chains h hU hf.1
    have hcount := nodeCount_copyOne (c := c) (s := s) (l := l) p
    have hle := nodeCount_le_applyAll (s := s) (copyOne c s l p)
    have he := fun n (hn : n ∈ ps) => entry_applyAll (hps.2 n hn) (copyOne c s l p)
    have hmap : ps.map (s.applyAll (copyOne c s l p)).key = ps.map s.key :=
      List.map_congr_left (fun n hn => (he n hn).1)
    have hne : ∀ n ∈ ps, s.key n ≠ s.key p := fun n hn hh => hnd.1 (List.mem_map.2 ⟨n, hn, hh⟩)
    have hf' : ∀ n ∈ ps, Function.update f (s.key p) (some (s.value p))
        ((s.applyAll (copyOne c s l p)).key n) = none := by
      intro n hn
      rw [(he n hn).1, Function.update_of_ne (hne n hn)]
      exact hf.2 n hn
    have hU' : ∀ n ∈ insert s.nodeCount U, n < (s.applyAll (copyOne c s l p)).nodeCount := by
      rintro n (rfl | hn)
      · omega
      · exact (hU n hn).trans_le hle
    obtain ⟨ch', h', hall'⟩ := ih h₁ hU' (fun n hn => (hps.2 n hn).trans_le hle) (hmap ▸ hnd.2) hf'
    have hend : (fun k => (lookup s (p :: ps) k).or (f k)) = fun k =>
        (lookup (s.applyAll (copyOne c s l p)) ps k).or
          (Function.update f (s.key p) (some (s.value p)) k) := by
      funext k
      rw [lookup_cons, lookup_congr he]
      by_cases hk : s.key p = k
      · subst hk
        simp [lookup_eq_none hne]
      · rw [if_neg hk, Function.update_of_ne (Ne.symm hk)]
    have hmore := nodeCount_le_applyAll (s := s.applyAll (copyOne c s l p))
      (copyStores c l (s.applyAll (copyOne c s l p)) ps)
    rw [copyStores, applyAll_append, hend]
    refine ⟨ch', ?_, fun n hn => hall' n ?_⟩
    · convert h' using 1
      ext n
      simp only [Set.mem_union, Set.mem_insert_iff, Set.mem_ofPred_eq]
      constructor
      · rintro (hn | hn)
        · exact .inl (.inr hn)
        · by_cases hnew : n = s.nodeCount
          · exact .inl (.inl hnew)
          · exact .inr ⟨by omega, hn.2⟩
      · rintro ((rfl | hn) | hn)
        · exact .inr ⟨le_rfl, by omega⟩
        · exact .inl hn
        · exact .inr ⟨by omega, hn.2⟩
    · obtain hn | hn := hn
      · by_cases hnew : n = s.nodeCount
        · exact .inr (hall₁ n (.inl hnew))
        · exact .inl ⟨by omega, hn.2⟩
      · exact .inr (hall₁ n (.inr hn))

/-- The loops of `rehash` meet every entry once. -/
theorem Holds.sources (h : Holds c s V W f) :
    (∀ p ∈ s.sources, p ∈ V) ∧ (s.sources.map s.key).Nodup ∧ ∀ k, lookup s s.sources k = f k := by
  obtain ⟨ch, hc⟩ := h.chains
  have he : s.sources = (List.range s.bucketCount.toNat).flatMap ch := by
    refine List.flatMap_congr (fun b _ => ?_)
    exact (hc.linked b).walk_of_length_le (h.length_le hc b)
  have hnd : (s.sources.map s.key).Nodup := by
    rw [he, List.map_flatMap, List.nodup_flatMap]
    refine ⟨fun b _ => hc.nodup b, List.nodup_range.imp (fun {b b'} hb => ?_)⟩
    intro k hk hk'
    obtain ⟨n, hn, rfl⟩ := List.mem_map.1 hk
    obtain ⟨n', hn', hkn⟩ := List.mem_map.1 hk'
    exact hb (by rw [← hc.index b n hn, ← hc.index b' n' hn', hkn])
  refine ⟨fun p hp => ?_, hnd, fun k => Option.ext (fun v => ?_)⟩
  · rw [he] at hp
    obtain ⟨b, -, hp⟩ := List.mem_flatMap.1 hp
    exact hc.mem b p hp
  · rw [lookup_eq_some_iff hnd, hc.content, he]
    refine exists_congr (fun n => ?_)
    rw [and_congr_left_iff]
    rintro ⟨rfl, -⟩
    rw [List.mem_flatMap]
    constructor
    · rintro ⟨b, -, hn⟩
      rwa [hc.index b n hn]
    · intro hn
      exact ⟨_, List.mem_range.2 (bucketId_lt c hc.pos _), hn⟩

/-- What `rehash` does before it publishes the new list. -/
def fillStores (c : Config Key) (s : SegmentT Key Value) (bl : BucketList) : List (Store Key Value) :=
  let start := [.setThreshold (c.threshold bl.bucketCount), .newList bl]
  start ++ copyStores c s.listCount (s.applyAll start) s.sources

omit [DecidableEq Key] in
theorem rehashStores_eq {count : BitVec 64} {grow : List (Store Key Value)}
    (hg : rehashStores c s count = some grow) :
    ∃ bl : BucketList, bl.bucketCount = count ∧ bl.head = (fun _ => none) ∧
      grow = fillStores c s bl ++ [.publish s.listCount, .retire s.bucketList] := by
  obtain ⟨bl, hbl, rfl⟩ := Option.map_eq_some_iff.1 hg
  rw [BucketList.make] at hbl
  split at hbl
  · rename_i hsmall
    cases hbl
    exact ⟨⟨count, fun _ => none, hsmall⟩, rfl, rfl, rfl⟩
  · cases hbl

omit [DecidableEq Key] in
theorem fillStores_private (h : Holds c s V W f) (bl : BucketList) :
    ∀ st ∈ fillStores c s bl, Private V W st := by
  have hstart : ∀ st ∈ ([.setThreshold (c.threshold bl.bucketCount), .newList bl] :
      List (Store Key Value)), Private V W st := by simp [Private]
  simp only [fillStores, List.mem_append, or_imp, forall_and]
  exact ⟨hstart, copyStores_private (h.applyAll hstart).nodes (fun hl => (h.lists _ hl).ne rfl) _⟩

theorem fillStores_chains {bl : BucketList} (h : Holds c s V W f) (hpos : 0 < bl.bucketCount.toNat)
    (hbl : bl.head = fun _ => none) :
    ∃ ch, Chains c (s.applyAll (fillStores c s bl)) s.listCount
      {n | s.nodeCount ≤ n ∧ n < (s.applyAll (fillStores c s bl)).nodeCount} ch f ∧
      ∀ n, s.nodeCount ≤ n → n < (s.applyAll (fillStores c s bl)).nodeCount → ∃ b, n ∈ ch b := by
  set start : List (Store Key Value) := [.setThreshold (c.threshold bl.bucketCount), .newList bl]
  obtain ⟨hsV, hsnd, hsf⟩ := h.sources
  have hc₀ : Chains c (s.applyAll start) s.listCount ∅ (fun _ => []) (fun _ => none) := by
    refine ⟨?_, ?_, ?_, ?_, ?_, ?_⟩
    · simpa [start, applyAll, SegmentT.apply] using hpos
    · simp [start, applyAll, SegmentT.apply, SegmentT.read, hbl, Segment]
    all_goals simp
  obtain ⟨ch, hc, hall⟩ := copyStores_chains hc₀ (by simp) (fun p hp => h.nodes p (hsV p hp)) hsnd (by simp)
  have hf : (fun k => (lookup (s.applyAll start) s.sources k).or none) = f := by
    funext k
    rw [Option.or_none]
    exact hsf k
  rw [hf, ← applyAll_append, Set.empty_union] at hc
  rw [← applyAll_append] at hall
  exact ⟨ch, hc, fun n hn hlt => hall n (.inl ⟨hn, hlt⟩)⟩

omit [DecidableEq Key] in
theorem listCount_fillStores (bl : BucketList) :
    s.listCount < (s.applyAll (fillStores c s bl)).listCount := by
  rw [fillStores, applyAll_append]
  exact listCount_le_applyAll (s := s.applyAll [.setThreshold (c.threshold bl.bucketCount), .newList bl]) _

/-- A section may begin with the stores of a rehash. -/
theorem rehashStores_safe {count : BitVec 64} {grow : List (Store Key Value)} (h : Holds c s V W f)
    (hg : rehashStores c s count = some grow) (hpos : 0 < count.toNat) :
    ∃ V' W' ch, Holds c (s.applyAll grow) V' W' f ∧ (∀ n ∈ V', n ∈ V ∨ s.nodeCount ≤ n) ∧
      Chains c (s.applyAll grow) (s.applyAll grow).bucketList V' ch f ∧
      (∀ n, s.nodeCount ≤ n → n < (s.applyAll grow).nodeCount → ∃ b, n ∈ ch b) ∧
      (grow = [] ∨ ∀ b, ∀ n ∈ ch b, s.nodeCount ≤ n) ∧
      ∀ rest f', rest ≠ [] → Safe c (s.applyAll grow) V' W' f rest f' →
        Safe c s V W f (grow ++ rest) f' := by
  obtain ⟨bl, rfl, hbl, rfl⟩ := rehashStores_eq hg
  have hq := fillStores_private h bl
  obtain ⟨ch, hc, hall⟩ := fillStores_chains h hpos hbl
  have hlt := listCount_fillStores (c := c) (s := s) bl
  have h₂ := h.applyAll hq
  set q := fillStores c s bl
  set t := s.applyAll q with ht
  set V' := V ∪ {n | s.nodeCount ≤ n ∧ n < t.nodeCount}
  have hc' : Chains c (t.apply (.publish s.listCount)) s.listCount V' ch f :=
    hc.congr (fun n _ => ⟨rfl, rfl, rfl⟩) rfl Set.subset_union_right
  have h₃ : Holds c (t.apply (.publish s.listCount)) V' (insert s.listCount W) f := by
    refine ⟨?_, ?_, Set.mem_insert _ _, ch, ?_⟩
    · rintro n (hn | hn)
      · exact h₂.nodes n hn
      · exact hn.2
    · rintro l (rfl | hl)
      · exact hlt
      · exact h₂.lists l hl
    · exact hc'
  have hpub : Serves c t (t.apply (.publish s.listCount)) V V' W f := by
    refine .of_agree ?_ ?_ Set.subset_union_left f
    · exact fun n _ => ⟨rfl, rfl, rfl⟩
    · exact fun l _ => rfl
  have he : s.applyAll (q ++ [.publish s.listCount, .retire s.bucketList]) =
    (t.apply (.publish s.listCount)).apply (.retire s.bucketList) := applyAll_append _ _
  have hprivate : Private V' (insert s.listCount W) (.retire s.bucketList : Store Key Value) := trivial
  refine ⟨V', _, ch, he ▸ h₃.apply hprivate, ?_, ?_, ?_, .inr fun b n hn => (hc.mem b n hn).1,
    fun rest f' hr hsafe => ?_⟩
  · rintro n (hn | hn)
    · exact .inl hn
    · exact .inr hn.1
  · rw [he]
    exact hc'.congr (fun n _ => ⟨rfl, rfl, rfl⟩) rfl subset_rfl
  · rw [he]
    exact hall
  · rw [he] at hsafe
    rw [List.append_assoc]
    have hret : Safe c (t.apply (.publish s.listCount)) V' (insert s.listCount W) f
        (.retire s.bucketList :: rest) f' := by
      refine .step h₃ hr subset_rfl (.of_agree ?_ ?_ subset_rfl f) hsafe
      · exact fun n _ => ⟨rfl, rfl, rfl⟩
      · exact fun l _ => rfl
    exact .prepend h hq (by simp) (.step h₂ (by simp) (Set.subset_insert _ _) hpub hret)

omit [DecidableEq Key] in
theorem Holds.bucketCount_shift_pos (h : Holds c s V W f) : 0 < (s.bucketCount <<< 1).toNat := by
  obtain ⟨ch, hc⟩ := h.chains
  have hpos : 0 < s.bucketCount.toNat := hc.pos
  have hlt : s.bucketCount.toNat < 2 ^ 31 := (s.list s.bucketList).small
  rw [BitVec.toNat_shiftLeft, Nat.shiftLeft_eq]
  omega

omit [DecidableEq Key] in
/-- The bucket list that `insert` grows into has a bucket. -/
theorem Holds.newList_pos {bl : BucketList} (h : Holds c s V W f) (hcount : bl.bucketCount = s.bucketCount <<< 1) :
    0 < ((s.applyAll [.setThreshold (c.threshold bl.bucketCount), .newList bl]).list
      s.listCount).bucketCount.toNat := by
  have hpos := h.bucketCount_shift_pos
  rw [← hcount] at hpos
  simpa [SegmentT.applyAll, SegmentT.apply] using hpos

theorem growStores_safe {grow : List (Store Key Value)} (h : Holds c s V W f)
    (hg : growStores c s = some grow) :
    ∃ V' W' ch, Holds c (s.applyAll grow) V' W' f ∧ (∀ n ∈ V', n ∈ V ∨ s.nodeCount ≤ n) ∧
      Chains c (s.applyAll grow) (s.applyAll grow).bucketList V' ch f ∧
      (∀ n, s.nodeCount ≤ n → n < (s.applyAll grow).nodeCount → ∃ b, n ∈ ch b) ∧
      (grow = [] ∨ ∀ b, ∀ n ∈ ch b, s.nodeCount ≤ n) ∧
      ∀ rest f', rest ≠ [] → Safe c (s.applyAll grow) V' W' f rest f' →
        Safe c s V W f (grow ++ rest) f' := by
  rw [growStores] at hg
  split at hg
  · exact rehashStores_safe h hg h.bucketCount_shift_pos
  · cases hg
    obtain ⟨ch, hc⟩ := h.chains
    exact ⟨V, W, ch, h, fun n hn => .inl hn, hc, fun n hn hlt => absurd hn hlt.not_ge, .inl rfl,
      fun rest f' _ hs => hs⟩

theorem linkStores_ne_nil (c : Config Key) (s : SegmentT Key Value) (k : Key) (new : Nat) :
    (linkStores c s k new).1 ≠ [] := by
  rw [linkStores]
  split <;> simp

theorem insertSection_safe {k : Key} {v : Value} {sec : List (Store Key Value) × Option Nat}
    (h : Holds c s V W f) (hs : insertSection c s k v = some sec) :
    Safe c s V W f sec.1 (Function.update f k (some v)) := by
  obtain ⟨grow, hg, rfl⟩ := Option.map_eq_some_iff.1 hs
  have hnew : ∀ st ∈ ([.newNode k v] : List (Store Key Value)), Private V W st := by simp [Private]
  have h₁ := h.applyAll hnew
  obtain ⟨V', W', -, h₂, hV, -, -, -, hsafe⟩ := growStores_safe h₁ hg
  have hlt : s.nodeCount < (s.apply (.newNode k v)).nodeCount := Nat.lt_succ_self _
  obtain ⟨hk, hv⟩ := entry_applyAll hlt grow
  have hlink := linkStores_safe (k := k) (v := v) h₂ (fun hn => ?_)
    (hlt.trans_le (nodeCount_le_applyAll grow)) ?_ ?_
  · have hne := linkStores_ne_nil c ((s.apply (.newNode k v)).applyAll grow) k s.nodeCount
    exact Safe.prepend (q := [.newNode k v]) h hnew (by simp [hne]) (hsafe _ _ hne hlink)
  · obtain hn | hn := hV _ hn
    · exact (h.nodes _ hn).ne rfl
    · exact hlt.not_ge hn
  · exact hk.trans (by simp [SegmentT.apply, key])
  · exact hv.trans (by simp [SegmentT.apply, value])

end Rehash

end Wizard.HashMap
