import Wizard.SkipListLayers

/-! The loops over the predecessors, layer by layer. -/

namespace Wizard.SkipList

variable {T : Type} {s t u : SkipList T} {ids pre post l : List Nat} {i n new old : Nat}

/-- Only links differ. -/
structure Relinked [Inhabited T] (s t : SkipList T) : Prop where
  heightOf : t.heightOf = s.heightOf
  dataOf : t.dataOf = s.dataOf
  head : t.head = s.head
  nodeCount : t.nodeCount = s.nodeCount
  size : t.size = s.size

section Loops

variable [Inhabited T] {P : Nat → Nat} {prevs : List Nat}

theorem Relinked.refl (s : SkipList T) : Relinked s s :=
  ⟨rfl, rfl, rfl, rfl, rfl⟩

theorem Relinked.trans (h : Relinked s t) (h' : Relinked t u) : Relinked s u :=
  ⟨h'.heightOf.trans h.heightOf, h'.dataOf.trans h.dataOf, h'.head.trans h.head,
    h'.nodeCount.trans h.nodeCount, h'.size.trans h.size⟩

theorem relinked_put (s : SkipList T) (n i : Nat) (p : Option Nat) : Relinked s (s.put n i p) :=
  ⟨heightOf_put, dataOf_put, rfl, rfl, rfl⟩

/-- A loop over the layers changes each one once. -/
theorem ite_lt_succ {α : Type} {j m : Nat} (f : α → α) (a : α) :
    (if j < m then f (if j = m then f a else a) else if j = m then f a else a) = if j < m + 1 then f a else a := by
  by_cases hj : j < m
  · rw [if_pos hj, if_neg hj.ne, if_pos (by omega)]
  · by_cases he : j = m
    · rw [if_neg hj, if_pos he, if_pos (by omega)]
    · rw [if_neg hj, if_neg he, if_neg (by omega)]

theorem linkNode_eq (new : Nat) {m : Nat} (hP : ∀ i < m, prevs[i]? = some (P i)) (hi : ∀ i < m, i < s.heightOf (P i))
    (hn : m ≤ s.heightOf new) : ∃ t, s.linkNode new prevs m = some t ∧ Relinked s t ∧ ∀ j, t.link j = if j < m
      then Function.update (Function.update (s.link j) new (s.link j (P j))) (P j) (some new) else s.link j := by
  induction m generalizing s with
  | zero => exact ⟨s, rfl, .refl s, fun j => rfl⟩
  | succ m ih =>
    have hm := hi m (by omega)
    set s₁ := s.put new m (s.link m (P m)) with hs₁
    set s₂ := s₁.put (P m) m (some new) with hs₂
    have h₁ := relinked_put s new m (s.link m (P m))
    have h₂ := h₁.trans (relinked_put s₁ (P m) m (some new))
    have hlink : ∀ j, s₂.link j = if j = m
        then Function.update (Function.update (s.link j) new (s.link j (P j))) (P j) (some new) else s.link j := by
      intro j
      rw [hs₂, link_put (by rw [h₁.heightOf]; exact hm), hs₁, link_put (by omega)]
      by_cases hj : j = m
      · subst hj
        simp
      · simp [hj]
    obtain ⟨t, ht, hr, hl⟩ := ih (s := s₂) (fun i hi => hP i (by omega))
      (fun i hi' => by rw [h₂.heightOf]; exact hi i (by omega))
      (by rw [h₂.heightOf]; omega)
    refine ⟨t, ?_, h₂.trans hr, fun j => ?_⟩
    · rw [linkNode, hP m (by omega)]
      simp only [Option.bind_eq_bind, Option.bind_some, skip_eq hm]
      rw [setSkip_eq (show m < s.heightOf new by omega), Option.bind_some, ← hs₁,
        setSkip_eq (by rw [h₁.heightOf]; exact hm), Option.bind_some, ht]
    · rw [hl j, hlink j]
      exact ite_lt_succ
        (fun l : Nat → Option Nat => Function.update (Function.update l new (l (P j))) (P j) (some new)) _

theorem unlinkNode_eq {m : Nat} (hP : ∀ i < m, prevs[i]? = some (P i)) (hi : ∀ i < m, i < s.heightOf (P i))
    (hn : m ≤ s.heightOf n) : ∃ t, s.unlinkNode n prevs m = some t ∧ Relinked s t ∧ ∀ j, t.link j = if j < m
      then Function.update (s.link j) (P j) (s.link j n) else s.link j := by
  induction m generalizing s with
  | zero => exact ⟨s, rfl, .refl s, fun j => rfl⟩
  | succ m ih =>
    have hm := hi m (by omega)
    set s₁ := s.put (P m) m (s.link m n) with hs₁
    have h₁ := relinked_put s (P m) m (s.link m n)
    have hlink : ∀ j, s₁.link j = if j = m then Function.update (s.link j) (P j) (s.link j n) else s.link j := by
      intro j
      rw [hs₁, link_put hm]
      by_cases hj : j = m
      · subst hj
        rfl
      · rw [if_neg hj, if_neg hj]
    obtain ⟨t, ht, hr, hl⟩ := ih (s := s₁) (fun i hi => hP i (by omega))
      (fun i hi' => by rw [h₁.heightOf]; exact hi i (by omega)) (by rw [h₁.heightOf]; omega)
    refine ⟨t, ?_, h₁.trans hr, fun j => ?_⟩
    · rw [unlinkNode, hP m (by omega)]
      simp only [Option.bind_eq_bind, Option.bind_some, skip_eq (show m < s.heightOf n by omega)]
      rw [setSkip_eq hm, Option.bind_some, ht]
    · rw [hl j, hlink j]
      exact ite_lt_succ (fun l : Nat → Option Nat => Function.update l (P j) (l n)) _

theorem copySkipPointer_eq (new old : Nat) {m : Nat} (hnew : m ≤ s.heightOf new) (hold : m ≤ s.heightOf old) :
    ∃ t, s.copySkipPointer new old m = some t ∧ Relinked s t ∧ ∀ j, t.link j = if j < m
      then Function.update (s.link j) new (s.link j old) else s.link j := by
  induction m with
  | zero => exact ⟨s, rfl, .refl s, fun j => rfl⟩
  | succ m ih =>
    obtain ⟨t, ht, hr, hl⟩ := ih (by omega) (by omega)
    have hm : m < t.heightOf new := by
      rw [hr.heightOf]
      omega
    have hm' : m < t.heightOf old := by
      rw [hr.heightOf]
      omega
    refine ⟨t.put new m (t.link m old), ?_, hr.trans (relinked_put t new m _), fun j => ?_⟩
    · rw [copySkipPointer] at ht
      rw [copySkipPointer, List.range_succ, List.foldlM_append, ht]
      simp [skip_eq hm', setSkip_eq hm]
    · rw [link_put hm, hl j]
      by_cases hj : j = m
      · subst hj
        simp [hl]
      · by_cases hlt : j < m
        · rw [if_neg hj, if_pos hlt, if_pos (by omega)]
        · rw [if_neg hj, if_neg hlt, if_neg (by omega)]

end Loops

theorem onLayer_middle (pre post : List Nat) (n i : Nat) : s.onLayer (pre ++ n :: post) i =
    if i < s.heightOf n then s.onLayer pre i ++ n :: s.onLayer post i else s.onLayer (pre ++ post) i := by
  by_cases hn : i < s.heightOf n <;> simp [onLayer, hn]

theorem sublist_onLayer (ids : List Nat) (i : Nat) : (s.head :: s.onLayer ids i).Sublist (s.head :: ids) :=
  List.filter_sublist.cons_cons s.head

section Operations

variable [LinearOrder T] [Inhabited T] {x : T}

theorem Layered.fresh (h : Layered s ids) : s.nodeCount ∉ s.head :: ids :=
  fun hn => (h.bound _ hn).ne rfl

omit [LinearOrder T] [Inhabited T] in
theorem pred_ne {m : Nat} (hm : m ∉ s.head :: (pre ++ post)) (i : Nat) :
    s.pred pre i ≠ m := by
  refine ne_of_mem_of_not_mem ?_ hm
  obtain hh | hh := List.mem_cons.1 (s.pred_mem pre i)
  · rw [hh]
    exact List.mem_cons_self
  · exact List.mem_cons_of_mem _ (List.mem_append_left _ (mem_onLayer.1 hh).1)

omit [LinearOrder T] [Inhabited T] in
theorem getElem?_preds {m : Nat} (hi : i < m) : ((List.range m).map (s.pred pre))[i]? = some (s.pred pre i) := by
  simp [hi]

/-- A new node of height `m` goes between the nodes below `x` and the others. -/
theorem Layered.insertNode {m : Nat} (h : Layered s (pre ++ post)) (hpre : ∀ n ∈ pre, s.dataOf n < x)
    (hpost : ∀ n ∈ post, ¬ s.dataOf n < x) (hpos : 0 < m) (hm : m ≤ s.heightOf s.head) (hb : m < 256) :
    ∃ t, (s.create m x).linkNode s.nodeCount ((List.range (s.heightOf s.head)).map (s.pred pre)) m = some t ∧
      Layered { t with size := t.size + 1 } (pre ++ s.nodeCount :: post) ∧
      t.dataOf = Function.update s.dataOf s.nodeCount x ∧ t.heightOf t.head = s.heightOf s.head := by
  have hfresh := h.fresh
  have hne : ∀ n ∈ s.head :: (pre ++ post), n ≠ s.nodeCount := fun n hn => ne_of_mem_of_not_mem hn hfresh
  have hheight := s.heightOf_create m x
  rw [Nat.mod_eq_of_lt hb] at hheight
  have hold : ∀ n ≠ s.nodeCount, (s.create m x).heightOf n = s.heightOf n := by
    intro n hn
    rw [hheight, Function.update_of_ne hn]
  have hP := fun i => pred_ne hfresh i
  have hi : ∀ i < m, i < (s.create m x).heightOf (s.pred pre i) := by
    intro i hi
    rw [hold _ (hP i)]
    exact pred_tall le_rfl (by omega)
  have hnew : (s.create m x).heightOf s.nodeCount = m := by rw [hheight, Function.update_self]
  obtain ⟨t, ht, hr, hl⟩ := linkNode_eq s.nodeCount (P := s.pred pre)
    (fun i hi => getElem?_preds (hi.trans_le hm)) hi hnew.ge
  have hdata : t.dataOf = Function.update s.dataOf s.nodeCount x := hr.dataOf.trans (s.dataOf_create m x)
  have hhead : t.head = s.head := hr.head
  have hcount : t.nodeCount = s.nodeCount + 1 := hr.nodeCount
  have hsame : ∀ n ∈ s.head :: (pre ++ post), t.heightOf n = s.heightOf n ∧ t.dataOf n = s.dataOf n := by
    intro n hn
    rw [hr.heightOf, hdata, hold n (hne n hn), Function.update_of_ne (hne n hn)]
    exact ⟨rfl, rfl⟩
  have hhead' := (hsame s.head List.mem_cons_self).1
  have hnew' : t.heightOf s.nodeCount = m := by rw [hr.heightOf, hnew]
  have hdnew : t.dataOf s.nodeCount = x := by rw [hdata, Function.update_self]
  refine ⟨t, ht, ⟨?_, ?_, ?_, ?_, ?_, ?_, ?_⟩, hdata, by rw [hhead, hhead']⟩
  · intro n hn
    change n ∈ t.head :: _ at hn
    change n < t.nodeCount
    rw [hhead] at hn
    rw [hcount]
    have hcases : n = s.nodeCount ∨ n ∈ s.head :: (pre ++ post) := by
      simp only [List.mem_cons, List.mem_append] at hn ⊢
      tauto
    obtain rfl | hn := hcases
    · omega
    · have := h.bound n hn
      omega
  · change (t.head :: (pre ++ s.nodeCount :: post)).Nodup
    have hnd := List.nodup_cons.2 ⟨hfresh, h.nodup⟩
    rw [hhead]
    simp only [List.nodup_cons, List.mem_cons, List.mem_append, List.nodup_append, not_or] at hnd ⊢
    grind
  · change 0 < t.heightOf t.head
    rw [hhead, hhead']
    exact h.top
  · intro n hn
    change 0 < t.heightOf n ∧ t.heightOf n ≤ t.heightOf t.head
    rw [hhead, hhead']
    obtain hn | hn := List.mem_append.1 hn
    · rw [(hsame n (by simp [hn])).1]
      exact h.tall n (by simp [hn])
    · obtain rfl | hn := List.mem_cons.1 hn
      · rw [hnew']
        exact ⟨hpos, hm⟩
      · rw [(hsame n (by simp [hn])).1]
        exact h.tall n (by simp [hn])
  · change (pre ++ s.nodeCount :: post).Pairwise (fun n m => t.dataOf n ≤ t.dataOf m)
    have hs := h.sorted.imp_of_mem (S := fun n m => t.dataOf n ≤ t.dataOf m) (fun {n m} hn hm hnm => by
      rwa [(hsame n (List.mem_cons_of_mem _ hn)).2, (hsame m (List.mem_cons_of_mem _ hm)).2])
    rw [List.pairwise_append] at hs ⊢
    refine ⟨hs.1, List.pairwise_cons.2 ⟨fun n hn => ?_, hs.2.1⟩, fun n hn k hk => ?_⟩
    · rw [hdnew, (hsame n (by simp [hn])).2]
      exact not_lt.1 (hpost n hn)
    · obtain rfl | hk := List.mem_cons.1 hk
      · rw [hdnew, (hsame n (by simp [hn])).2]
        exact (hpre n hn).le
      · exact hs.2.2 n hn k hk
  · intro i hlt
    change i < t.heightOf t.head at hlt
    change Segment (t.link i) (some t.head) (t.head :: t.onLayer (pre ++ s.nodeCount :: post) i) none
    rw [hhead, hhead'] at hlt
    have hlinked := h.linked i hlt
    have hon : ∀ l : List Nat, (∀ n ∈ l, n ∈ pre ++ post) → t.onLayer l i = s.onLayer l i :=
      fun l hl => onLayer_congr (fun n hn => (hsame n (List.mem_cons_of_mem _ (hl n hn))).1)
    rw [onLayer_middle, hnew', hl i, hhead]
    split
    · rename_i him
      rw [onLayer_append] at hlinked
      rw [hon pre (fun n hn => List.mem_append_left _ hn), hon post (fun n hn => List.mem_append_right _ hn)]
      have hnd := (sublist_onLayer (pre ++ post) i).nodup h.nodup
      have hnotin : s.nodeCount ∉ s.head :: s.onLayer (pre ++ post) i :=
        fun hn => hfresh ((sublist_onLayer (pre ++ post) i).subset hn)
      rw [onLayer_append] at hnd hnotin
      have hins := hlinked.insertAfter (List.nodup_cons.2 ⟨hnotin, hnd⟩)
      rw [link_create, Function.update_idem, Function.update_of_ne (hP i)]
      exact hins
    · rw [hon _ (fun n hn => hn), link_create]
      refine hlinked.congr (fun n hn => Function.update_of_ne (hne n ?_) _ _)
      exact (sublist_onLayer (pre ++ post) i).subset hn
  · change t.size + 1 = (pre ++ s.nodeCount :: post).length
    have hsize : t.size = s.size := hr.size
    rw [hsize, h.size]
    simp only [List.length_append, List.length_cons]
    omega

/-- The first node that is not below `x` is taken out. -/
theorem Layered.removeNode (h : Layered s (pre ++ n :: post)) : ∃ t,
    s.unlinkNode n ((List.range (s.heightOf s.head)).map (s.pred pre)) (s.heightOf n) = some t ∧
      t.destroy n = some (t.drop n) ∧ Layered { t.drop n with size := (t.drop n).size - 1 } (pre ++ post) ∧
      (∀ m ∈ pre ++ post, (t.drop n).dataOf m = s.dataOf m) ∧ (t.drop n).heightOf t.head = s.heightOf s.head := by
  obtain ⟨hn0, hnle⟩ := h.tall n (by simp)
  have hnot : n ∉ s.head :: (pre ++ post) := by
    have hnd := h.nodup
    simp only [List.nodup_cons, List.mem_cons, List.mem_append, List.nodup_append, not_or] at hnd ⊢
    grind
  have hne : ∀ m ∈ s.head :: (pre ++ post), m ≠ n := fun m hm => ne_of_mem_of_not_mem hm hnot
  have hsub : (s.head :: (pre ++ post)).Sublist (s.head :: (pre ++ n :: post)) :=
    ((List.sublist_cons_self n post).append_left pre).cons_cons s.head
  obtain ⟨t, ht, hr, hl⟩ := unlinkNode_eq (P := s.pred pre) (m := s.heightOf n)
    (fun i hi => getElem?_preds (hi.trans_le hnle)) (fun i hi => pred_tall le_rfl (hi.trans_le hnle)) le_rfl
  have hhead : t.head = s.head := hr.head
  have hheight : ∀ m ∈ s.head :: (pre ++ post), (t.drop n).heightOf m = s.heightOf m := by
    intro m hm
    rw [heightOf_drop, Function.update_of_ne (hne m hm), hr.heightOf]
  have hdata : ∀ m ∈ pre ++ post, (t.drop n).dataOf m = s.dataOf m := by
    intro m hm
    rw [dataOf_drop (hne m (List.mem_cons_of_mem _ hm)), hr.dataOf]
  have hhead' := hheight s.head List.mem_cons_self
  refine ⟨t, ht, destroy_eq (i := 0) (by rwa [hr.heightOf]), ⟨?_, ?_, ?_, ?_, ?_, ?_, ?_⟩, hdata,
    by rw [hhead, hhead']⟩
  · intro m hm
    change m ∈ t.head :: _ at hm
    change m < t.nodeCount
    rw [hhead] at hm
    rw [hr.nodeCount]
    exact h.bound m (hsub.subset hm)
  · change (t.head :: (pre ++ post)).Nodup
    rw [hhead]
    exact hsub.nodup h.nodup
  · change 0 < (t.drop n).heightOf t.head
    rw [hhead, hhead']
    exact h.top
  · intro m hm
    change 0 < (t.drop n).heightOf m ∧ (t.drop n).heightOf m ≤ (t.drop n).heightOf t.head
    rw [hhead, hhead', hheight m (List.mem_cons_of_mem _ hm)]
    exact h.tall m ((List.sublist_cons_self n post).append_left pre |>.subset hm)
  · change (pre ++ post).Pairwise (fun n' m => (t.drop n).dataOf n' ≤ (t.drop n).dataOf m)
    refine (h.sorted.sublist ((List.sublist_cons_self n post).append_left pre)).imp_of_mem (fun {a b} ha hb hab => ?_)
    rwa [hdata a ha, hdata b hb]
  · intro i hlt
    change i < (t.drop n).heightOf t.head at hlt
    change Segment ((t.drop n).link i) (some t.head) (t.head :: (t.drop n).onLayer (pre ++ post) i) none
    rw [hhead, hhead'] at hlt
    have hlinked := h.linked i hlt
    have hnd := (sublist_onLayer (pre ++ n :: post) i).nodup h.nodup
    rw [onLayer_congr (fun m hm => hheight m (List.mem_cons_of_mem _ hm)), hhead, link_drop, hl i]
    have hcut : Segment (if i < s.heightOf n then Function.update (s.link i) (s.pred pre i) (s.link i n)
        else s.link i) (some s.head) (s.head :: s.onLayer (pre ++ post) i) none := by
      rw [onLayer_middle] at hlinked hnd
      split
      · rename_i hi
        rw [if_pos hi] at hlinked hnd
        rw [onLayer_append]
        exact hlinked.eraseAfter hnd
      · rename_i hi
        rwa [if_neg hi] at hlinked
    refine hcut.congr (fun m hm => Function.update_of_ne (hne m ?_) _ _)
    exact (sublist_onLayer (pre ++ post) i).subset hm
  · change t.size - 1 = (pre ++ post).length
    have hsize := h.size
    rw [hr.size, hsize]
    simp only [List.length_append, List.length_cons]
    omega

/-- A taller head with the links of the old one. -/
theorem Layered.growHeight (h : Layered s ids) {m : Nat} (hm : m < 256) : ∃ t, s.growHeight m = some t ∧
    Layered t ids ∧ (∀ n ∈ ids, t.dataOf n = s.dataOf n) ∧
      t.heightOf t.head = max (s.heightOf s.head) m := by
  have hheight : s.height = some (s.heightOf s.head) := nodeHeight_eq h.top
  by_cases hle : m ≤ s.heightOf s.head
  · refine ⟨s, ?_, h, fun n hn => rfl, by rw [max_eq_left hle]⟩
    simp [SkipList.growHeight, hheight, hle]
  · have hfresh := h.fresh
    have hne : ∀ n ∈ s.head :: ids, n ≠ s.nodeCount := fun n hn => ne_of_mem_of_not_mem hn hfresh
    have hids : ∀ n ∈ ids, n ≠ s.head := fun n hn => ne_of_mem_of_not_mem hn (List.nodup_cons.1 h.nodup).1
    have hcreate := s.heightOf_create m (default : T)
    rw [Nat.mod_eq_of_lt hm] at hcreate
    have hnew : (s.create m default).heightOf s.nodeCount = m := by rw [hcreate, Function.update_self]
    have hold : ∀ n ∈ s.head :: ids, (s.create m default).heightOf n = s.heightOf n := by
      intro n hn
      rw [hcreate, Function.update_of_ne (hne n hn)]
    have hhead := hold s.head List.mem_cons_self
    obtain ⟨t, ht, hr, hl⟩ := copySkipPointer_eq s.nodeCount s.head (s := s.create m default)
      (m := s.heightOf s.head) (by omega) hhead.ge
    set u := ({ t with head := s.nodeCount } : SkipList T).drop s.head with hu
    have hheight' : ∀ n ∈ ids, u.heightOf n = s.heightOf n := by
      intro n hn
      rw [hu, heightOf_drop, Function.update_of_ne (hids n hn)]
      exact (congrFun hr.heightOf n).trans (hold n (List.mem_cons_of_mem _ hn))
    have htop : u.heightOf s.nodeCount = m := by
      rw [hu, heightOf_drop, Function.update_of_ne (hne s.head List.mem_cons_self).symm]
      exact (congrFun hr.heightOf s.nodeCount).trans hnew
    have hdata : ∀ n ∈ ids, u.dataOf n = s.dataOf n := by
      intro n hn
      rw [hu, dataOf_drop (hids n hn)]
      change t.dataOf n = _
      rw [hr.dataOf, dataOf_create, Function.update_of_ne (hne n (List.mem_cons_of_mem _ hn))]
    refine ⟨u, ?_, ⟨?_, ?_, ?_, ?_, ?_, ?_, ?_⟩, hdata, ?_⟩
    · have hlive : 0 < ({ t with head := s.nodeCount } : SkipList T).heightOf s.head := by
        change 0 < t.heightOf s.head
        rw [hr.heightOf, hhead]
        exact h.top
      simp only [SkipList.growHeight, hheight, Option.bind_eq_bind, Option.bind_some, if_neg hle, ht,
        destroy_eq hlive, hu]
    · intro n hn
      change n ∈ s.nodeCount :: ids at hn
      change n < t.nodeCount
      have hcount : t.nodeCount = s.nodeCount + 1 := hr.nodeCount
      obtain rfl | hn := List.mem_cons.1 hn
      · omega
      · have hlt := h.bound n (List.mem_cons_of_mem _ hn)
        omega
    · exact List.nodup_cons.2 ⟨fun hn => hfresh (List.mem_cons_of_mem _ hn), (List.nodup_cons.1 h.nodup).2⟩
    · change 0 < u.heightOf s.nodeCount
      omega
    · intro n hn
      change 0 < u.heightOf n ∧ u.heightOf n ≤ u.heightOf s.nodeCount
      have hn' := h.tall n hn
      rw [hheight' n hn, htop]
      omega
    · refine h.sorted.imp_of_mem (fun {a b} ha hb hab => ?_)
      rwa [hdata a ha, hdata b hb]
    · intro i hi
      change i < u.heightOf s.nodeCount at hi
      change Segment (u.link i) (some s.nodeCount) (s.nodeCount :: u.onLayer ids i) none
      rw [onLayer_congr hheight']
      have hlink : ∀ n ≠ s.head, u.link i n = t.link i n := by
        intro n hn
        rw [hu, link_drop, Function.update_of_ne hn]
        rfl
      have hnode : ∀ n ∈ s.onLayer ids i, u.link i n = s.link i n := by
        intro n hn
        have hn' := (mem_onLayer.1 hn).1
        have hnn := hne n (List.mem_cons_of_mem _ hn')
        rw [hlink n (hids n hn'), hl i]
        split
        · rw [Function.update_of_ne hnn, link_create, Function.update_of_ne hnn]
        · rw [link_create, Function.update_of_ne hnn]
      refine ⟨rfl, ?_⟩
      rw [hlink _ (hne s.head List.mem_cons_self).symm, hl i]
      by_cases hi' : i < s.heightOf s.head
      · rw [if_pos hi', Function.update_self, link_create, Function.update_of_ne (hne s.head List.mem_cons_self)]
        exact (h.linked i hi').2.congr hnode
      · rw [if_neg hi', link_create, Function.update_self,
          onLayer_eq_nil (fun n hn => (h.tall n hn).2.trans (not_lt.1 hi'))]
        rfl
    · change t.size = ids.length
      have hsize : t.size = s.size := hr.size
      rw [hsize, h.size]
    · change u.heightOf s.nodeCount = _
      rw [htop, max_eq_right (not_le.1 hle).le]

end Operations

end Wizard.SkipList
