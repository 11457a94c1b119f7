import Wizard.SkipListSplice

/-! Sequences of operations against a sorted multiset. -/

namespace Wizard.SkipList

variable {T : Type} [LinearOrder T] [Inhabited T] {c : Config} {s t : SkipList T} {M : Multiset T} {x : T}
  {ids : List Nat} {h r : Nat}

inductive Op (T : Type) where
  | insert (x : T) (force : Bool) (r : Nat)
  | remove (x : T)
  | find (x : T)

def Op.step (c : Config) (s : SkipList T) : Op T → Option (Bool × SkipList T)
  | insert x force r => s.insert c x force r
  | remove x => s.remove x
  | find x => (s.find x).map (fun b => (b, s))

def run (c : Config) : SkipList T → List (Op T) → Option (List Bool × SkipList T)
  | s, [] => some ([], s)
  | s, op :: ops => do
    let (b, s) ← op.step c s
    let (bs, s) ← run c s ops
    return (b :: bs, s)

def Op.key : Op T → T
  | insert x _ _ => x
  | remove x => x
  | find x => x

/-- What an operation leaves in the multiset. Each one returns whether its key
was there. -/
def Op.replay (M : Multiset T) : Op T → Multiset T
  | insert x force _ => if x ∈ M ∧ ¬ force then M else x ::ₘ M
  | remove x => M.erase x
  | find _ => M

def answers : Multiset T → List (Op T) → List Bool
  | _, [] => []
  | M, op :: ops => decide (op.key ∈ M) :: answers (op.replay M) ops

def layer (s : SkipList T) (i : Nat) : List Nat :=
  walk (s.link i) (s.link i s.head) s.nodeCount

def elements (s : SkipList T) : List T := (s.layer 0).map s.dataOf

/-- The list shows the multiset on layer 0, and every layer thins out the one
below it by the heights. -/
structure Shows (s : SkipList T) (M : Multiset T) : Prop where
  size : s.size = Multiset.card M
  elements : s.elements = M.sort (· ≤ ·)
  layers : ∀ i, i + 1 < s.heightOf s.head →
    s.layer (i + 1) = (s.layer i).filter (fun n => i + 1 < s.heightOf n)
  grow : ∀ m < 256, ∃ t, s.growHeight m = some t ∧ t.elements = s.elements

structure Represents (s : SkipList T) (M : Multiset T) : Prop where
  layered : ∃ ids, Layered s ids ∧ (ids.map s.dataOf : Multiset T) = M
  low : s.heightOf s.head < 64

omit [LinearOrder T] [Inhabited T] in
theorem getHeight_le (r : Nat) (hh : 0 < h) : 0 < getHeight r h ∧ getHeight r h ≤ h := by
  rw [getHeight]
  split <;> omega

theorem Layered.layer_eq (hl : Layered s ids) {i : Nat} (hi : i < s.heightOf s.head) :
    s.layer i = s.onLayer ids i := by
  have hle : (s.onLayer ids i).length ≤ ids.length := List.length_filter_le _ _
  exact (hl.linked i hi).2.walk_of_length_le (hle.trans hl.length_lt.le)

theorem Layered.elements_eq (hl : Layered s ids) : s.elements = ids.map s.dataOf := by
  rw [elements, hl.layer_eq hl.top, onLayer_zero (fun n hn => (hl.tall n hn).1)]

theorem Represents.shows (hr : Represents s M) : Shows s M := by
  obtain ⟨ids, hl, rfl⟩ := hr.layered
  refine ⟨?_, ?_, fun i hi => ?_, fun m hm => ?_⟩
  · simp [hl.size]
  · rw [hl.elements_eq]
    have hperm : (ids.map s.dataOf).Perm ((ids.map s.dataOf : Multiset T).sort (· ≤ ·)) :=
      Multiset.coe_eq_coe.1 (Multiset.sort_eq _ _).symm
    refine hperm.eq_of_pairwise' ?_ (Multiset.pairwise_sort _ _)
    exact List.pairwise_map.2 hl.sorted
  · rw [hl.layer_eq hi, hl.layer_eq (by omega), onLayer_succ]
  · obtain ⟨t, ht, hl', hdata, -⟩ := hl.growHeight hm
    refine ⟨t, ht, ?_⟩
    rw [hl'.elements_eq, hl.elements_eq]
    exact List.map_congr_left hdata

theorem Represents.search (hr : Represents s M) (x : T) : ∃ pre post, Layered s (pre ++ post) ∧
    ((pre ++ post).map s.dataOf : Multiset T) = M ∧ (∀ n ∈ pre, s.dataOf n < x) ∧ (∀ n ∈ post, ¬ s.dataOf n < x) ∧
    s.searchEqualOrGreater x = some (post.head?, (List.range (s.heightOf s.head)).map (s.pred pre)) ∧
    s.isExist x post.head? = some (decide (x ∈ M)) := by
  obtain ⟨ids, hl, rfl⟩ := hr.layered
  obtain ⟨pre, post, rfl, hpre, hpost⟩ := hl.exists_split x
  refine ⟨pre, post, hl, rfl, hpre, hpost, hl.search_eq hpre hpost, ?_⟩
  rw [hl.isExist_eq hpre hpost]
  rfl

theorem Represents.find (hr : Represents s M) (x : T) : s.find x = some (decide (x ∈ M)) := by
  obtain ⟨pre, post, -, -, -, -, hs, he⟩ := hr.search x
  simp [SkipList.find, searchNode, hs, he]

theorem Represents.growIfFull (hr : Represents s M) : ∃ t, s.growIfFull c = some t ∧ Represents t M := by
  obtain ⟨ids, hl, rfl⟩ := hr.layered
  have hlow := hr.low
  have hmax := c.maxHeight.isLt
  have hheight : s.height = some (s.heightOf s.head) := nodeHeight_eq hl.top
  have hlimit : getSizeLimit c (s.heightOf s.head) = some (c.sizeLimit ⟨s.heightOf s.head, hlow⟩) := dif_pos hlow
  simp only [SkipList.growIfFull, hheight, hlimit, Option.bind_eq_bind, Option.bind_some]
  split
  · obtain ⟨t, ht, hl', hdata, htop⟩ := hl.growHeight (m := s.heightOf s.head + 1) (by omega)
    refine ⟨t, ht, ⟨ids, hl', ?_⟩, by omega⟩
    rw [List.map_congr_left hdata]
  · exact ⟨s, rfl, ⟨ids, hl, rfl⟩, hlow⟩

theorem Represents.insert (hr : Represents s M) (x : T) (force : Bool) (r : Nat) :
    ∃ t, s.insert c x force r = some (decide (x ∈ M), t) ∧
      Represents t (if x ∈ M ∧ ¬ force then M else x ::ₘ M) := by
  obtain ⟨s₁, hgrow, hr₁⟩ := hr.growIfFull (c := c)
  obtain ⟨pre, post, hl, hM, hpre, hpost, hs, he⟩ := hr₁.search x
  have hheight : s₁.height = some (s₁.heightOf s₁.head) := nodeHeight_eq hl.top
  obtain ⟨hpos, hle⟩ := getHeight_le r hl.top
  have hlow := hr₁.low
  by_cases hx : x ∈ M ∧ ¬ force
  · refine ⟨s₁, ?_, by rwa [if_pos hx]⟩
    simp [SkipList.insert, hgrow, hheight, hs, he, hx.1, hx.2]
  · obtain ⟨t, ht, hl', hdata, htop⟩ := hl.insertNode hpre hpost hpos hle (by omega)
    refine ⟨{ t with size := t.size + 1 }, ?_, ⟨_, hl', ?_⟩, ?_⟩
    · have hc : x ∉ M ∨ force = true := by
        by_contra hno
        rw [not_or, not_not] at hno
        exact hx hno
      obtain hc | hc := hc <;> simp [SkipList.insert, hgrow, hheight, hs, he, ht, hc]
    · have hne : ∀ n ∈ pre ++ post, t.dataOf n = s₁.dataOf n := by
        intro n hn
        rw [hdata, Function.update_of_ne (ne_of_mem_of_not_mem (List.mem_cons_of_mem _ hn) hl.fresh)]
      have hmap : (pre ++ s₁.nodeCount :: post).map t.dataOf =
          pre.map s₁.dataOf ++ x :: post.map s₁.dataOf := by
        rw [List.map_append, List.map_cons, List.map_congr_left (fun n hn => hne n (List.mem_append_left _ hn)),
          List.map_congr_left (fun n hn => hne n (List.mem_append_right _ hn)), hdata, Function.update_self]
      rw [if_neg hx, ← hM]
      change ((pre ++ s₁.nodeCount :: post).map t.dataOf : Multiset T) = _
      rw [hmap, List.map_append, Multiset.cons_coe]
      exact Multiset.coe_eq_coe.2 List.perm_middle
    · change t.heightOf t.head < 64
      omega

theorem Represents.remove (hr : Represents s M) (x : T) :
    ∃ t, s.remove x = some (decide (x ∈ M), t) ∧ Represents t (M.erase x) := by
  obtain ⟨pre, post, hl, hM, hpre, hpost, hs, he⟩ := hr.search x
  cases post with
  | nil =>
    have hx : x ∉ M := by simpa [isExist] using he
    refine ⟨s, ?_, by rwa [Multiset.erase_of_notMem hx]⟩
    simp [SkipList.remove, hs, hx]
  | cons n post =>
    have htall := (hl.tall n (by simp)).1
    have hd : s.data n = some (s.dataOf n) := data_eq htall
    have hx : s.dataOf n = x ↔ x ∈ M := by
      have he' := he
      simp only [isExist, List.head?_cons, hd, Option.bind_eq_bind, Option.bind_some, pure, Option.some.injEq,
        decide_eq_decide] at he'
      exact he'
    by_cases hn : s.dataOf n = x
    · obtain ⟨t, ht, hdestroy, hl', hdata, htop⟩ := hl.removeNode
      refine ⟨{ t.drop n with size := (t.drop n).size - 1 }, ?_, ⟨_, hl', ?_⟩, ?_⟩
      · simp [SkipList.remove, hs, hd, hn, nodeHeight_eq htall, ht, hdestroy, hx.1 hn]
      · change ((pre ++ post).map (t.drop n).dataOf : Multiset T) = _
        rw [List.map_congr_left hdata, ← hM, ← hn]
        have hperm : ((pre ++ n :: post).map s.dataOf : Multiset T) = s.dataOf n ::ₘ ↑((pre ++ post).map s.dataOf) := by
          rw [Multiset.cons_coe]
          exact Multiset.coe_eq_coe.2 (List.perm_middle.map s.dataOf)
        rw [hperm, Multiset.erase_cons_head]
      · change (t.drop n).heightOf t.head < 64
        rw [htop]
        exact hr.low
    · have hno : x ∉ M := fun hm => hn (hx.2 hm)
      refine ⟨s, ?_, by rwa [Multiset.erase_of_notMem hno]⟩
      simp [SkipList.remove, hs, hd, hn, hno]

theorem Represents.step (hr : Represents s M) (op : Op T) :
    ∃ t, op.step c s = some (decide (op.key ∈ M), t) ∧ Represents t (op.replay M) := by
  cases op with
  | insert x force r => exact hr.insert x force r
  | remove x => exact hr.remove x
  | find x => exact ⟨s, congrArg (Option.map (fun b => (b, s))) (hr.find x), hr⟩

theorem Represents.run (hr : Represents s M) (ops : List (Op T)) :
    ∃ t, s.run c ops = some (answers M ops, t) ∧ Represents t (ops.foldl Op.replay M) := by
  induction ops generalizing s M with
  | nil => exact ⟨s, rfl, hr⟩
  | cons op ops ih =>
    obtain ⟨t, ht, hr'⟩ := hr.step (c := c) op
    obtain ⟨u, hu, hr''⟩ := ih hr'
    exact ⟨u, by simp [SkipList.run, ht, hu, answers], hr''⟩

omit [LinearOrder T] in
theorem heightOf_make (h256 : h < 256) : (SkipList.make h : SkipList T).heightOf 0 = h := by
  rw [SkipList.make, heightOf_create, Function.update_self, Nat.mod_eq_of_lt h256]

theorem Layered.make (h0 : 0 < h) (h256 : h < 256) : Layered (SkipList.make h : SkipList T) [] := by
  refine ⟨?_, ?_, ?_, ?_, ?_, ?_, ?_⟩
  · simp [SkipList.make, create]
  · simp
  · change 0 < (SkipList.make h : SkipList T).heightOf 0
    rwa [heightOf_make h256]
  · simp
  · simp
  · intro i hi
    refine ⟨rfl, ?_⟩
    change (SkipList.make h : SkipList T).link i 0 = none
    rw [SkipList.make, link_create, Function.update_self]
  · rfl

theorem Represents.make (h0 : 0 < h) (h64 : h < 64) : Represents (SkipList.make h : SkipList T) 0 := by
  refine ⟨⟨[], Layered.make h0 (by omega), rfl⟩, ?_⟩
  change (SkipList.make h : SkipList T).heightOf 0 < 64
  rwa [heightOf_make (by omega)]

end Wizard.SkipList
