import Wizard.SkipList

/-! The layers of a skip list, and the search from the top layer down. Layer `i`
links the nodes of height above `i` in the order of layer 0. -/

namespace Wizard.SkipList

variable {T : Type} {s t : SkipList T} {ids pre post l : List Nat} {i n cur : Nat}

def onLayer (s : SkipList T) (ids : List Nat) (i : Nat) : List Nat :=
  ids.filter (fun n => i < s.heightOf n)

/-- The last of the nodes `pre` on layer `i`, or the head. -/
def pred (s : SkipList T) (pre : List Nat) (i : Nat) : Nat :=
  (s.onLayer pre i).getLastD s.head

theorem mem_onLayer : n ∈ s.onLayer ids i ↔ n ∈ ids ∧ i < s.heightOf n := by
  simp [onLayer]

theorem onLayer_append (pre post : List Nat) (i : Nat) :
    s.onLayer (pre ++ post) i = s.onLayer pre i ++ s.onLayer post i :=
  List.filter_append pre post

theorem onLayer_zero (h : ∀ n ∈ ids, 0 < s.heightOf n) : s.onLayer ids 0 = ids := by
  simpa [onLayer] using h

theorem onLayer_eq_nil (h : ∀ n ∈ ids, s.heightOf n ≤ i) : s.onLayer ids i = [] := by
  simpa [onLayer] using h

theorem onLayer_succ (ids : List Nat) (i : Nat) :
    s.onLayer ids (i + 1) = (s.onLayer ids i).filter (fun n => i + 1 < s.heightOf n) := by
  rw [onLayer, onLayer, List.filter_filter]
  refine List.filter_congr (fun n _ => ?_)
  by_cases hn : i + 1 < s.heightOf n <;> simp [hn]
  omega

theorem onLayer_congr (h : ∀ n ∈ ids, t.heightOf n = s.heightOf n) : t.onLayer ids i = s.onLayer ids i := by
  refine List.filter_congr (fun n hn => ?_)
  rw [h n hn]

theorem pred_mem (pre : List Nat) (i : Nat) : s.pred pre i ∈ s.head :: s.onLayer pre i :=
  List.getLastD_mem_cons

theorem pred_tall {j : Nat} (hij : i ≤ j) (hi : i < s.heightOf s.head) : i < s.heightOf (s.pred pre j) := by
  obtain hh | hh := List.mem_cons.1 (s.pred_mem pre j)
  · rwa [hh]
  · exact hij.trans_lt (mem_onLayer.1 hh).2

theorem getLastD_append_cons (u a : List Nat) (b x : Nat) : (u ++ b :: a).getLastD x = a.getLastD b := by
  induction u generalizing x with
  | nil => rw [List.nil_append, List.getLastD_cons]
  | cons y u ih => rw [List.cons_append, List.getLastD_cons, ih]

/-- From the predecessor on layer `i + 1` the way on layer `i` leads through the
last of the nodes before. -/
theorem exists_way (hl : Segment (s.link i) (some s.head) (s.head :: (s.onLayer pre i ++ l)) none) :
    ∃ a, Segment (s.link i) (s.link i (s.pred pre (i + 1))) (a ++ l) none ∧
      a.getLastD (s.pred pre (i + 1)) = s.pred pre i ∧ a <:+ s.onLayer pre i := by
  obtain hh | hh := List.mem_cons.1 (s.pred_mem pre (i + 1))
  · rw [hh]
    exact ⟨s.onLayer pre i, hl.2, rfl, List.suffix_rfl⟩
  · rw [onLayer_succ] at hh
    obtain ⟨u, a, he⟩ := List.append_of_mem (List.mem_filter.1 hh).1
    have hseg := hl.2
    rw [he, List.append_assoc] at hseg
    obtain ⟨m, -, -, hrest⟩ := Segment.append_iff.1 hseg
    have hlast : s.pred pre i = a.getLastD (s.pred pre (i + 1)) := by
      rw [pred, he, getLastD_append_cons]
    exact ⟨a, hrest, hlast.symm, u ++ [s.pred pre (i + 1)], by rw [he, List.append_assoc]; rfl⟩

section Search

variable [LinearOrder T] [Inhabited T] {x : T}

theorem advance_eq {a : List Nat} {fuel : Nat} (h : Segment (s.link i) (s.link i cur) (a ++ l) none)
    (hcur : i < s.heightOf cur) (hi : ∀ n ∈ a ++ l, i < s.heightOf n) (ha : ∀ n ∈ a, s.dataOf n < x)
    (hl : ∀ n ∈ l, ¬ s.dataOf n < x) (hf : a.length < fuel) :
    s.advance x i fuel cur = some (a.getLastD cur, l.head?) := by
  induction a generalizing cur fuel with
  | nil =>
    obtain ⟨fuel, rfl⟩ : ∃ k, fuel = k + 1 := ⟨fuel - 1, by simp at hf; omega⟩
    cases l with
    | nil =>
      have hnone : s.link i cur = none := h
      simp [advance, skip_eq hcur, hnone]
    | cons n l =>
      have hn := hl n List.mem_cons_self
      have hd := data_eq (hi n List.mem_cons_self)
      simp [advance, skip_eq hcur, h.1, hd, hn]
  | cons b a ih =>
    obtain ⟨fuel, rfl⟩ : ∃ k, fuel = k + 1 := ⟨fuel - 1, by simp at hf; omega⟩
    have hb := hi b List.mem_cons_self
    rw [List.forall_mem_cons] at ha
    have hrest := ih h.2 hb (fun n hn => hi n (List.mem_cons_of_mem b hn)) ha.2 (by simpa using hf)
    rw [List.getLastD_cons]
    simp [advance, skip_eq hcur, h.1, data_eq hb, ha.1, hrest]

/-- The nodes of the list in the order of layer 0, the head apart. -/
structure Layered (s : SkipList T) (ids : List Nat) : Prop where
  bound : ∀ n ∈ s.head :: ids, n < s.nodeCount
  nodup : (s.head :: ids).Nodup
  top : 0 < s.heightOf s.head
  tall : ∀ n ∈ ids, 0 < s.heightOf n ∧ s.heightOf n ≤ s.heightOf s.head
  sorted : ids.Pairwise (fun n m => s.dataOf n ≤ s.dataOf m)
  linked : ∀ i < s.heightOf s.head, Segment (s.link i) (some s.head) (s.head :: s.onLayer ids i) none
  size : s.size = ids.length

theorem Layered.length_lt (h : Layered s ids) : ids.length < s.nodeCount := by
  have hsub : s.head :: ids ⊆ List.range s.nodeCount := fun n hn => List.mem_range.2 (h.bound n hn)
  have hle := (h.nodup.subperm hsub).length_le
  simp only [List.length_cons, List.length_range] at hle
  omega

theorem Layered.descend_eq (h : Layered s (pre ++ post)) (hpre : ∀ n ∈ pre, s.dataOf n < x)
    (hpost : ∀ n ∈ post, ¬ s.dataOf n < x) {m : Nat} (hm : m ≤ s.heightOf s.head) (next : Option Nat) :
    s.descend x m (s.pred pre m) next =
      some (if m = 0 then next else post.head?, (List.range m).map (s.pred pre)) := by
  induction m generalizing next with
  | zero => rfl
  | succ m ih =>
    have hlinked := h.linked m hm
    rw [onLayer_append] at hlinked
    obtain ⟨a, hway, hlast, ha⟩ := exists_way hlinked
    have hcur : m < s.heightOf (s.pred pre (m + 1)) := pred_tall (by omega) hm
    have hlen : a.length < s.nodeCount + 1 := by
      have h₁ := ha.length_le
      have h₂ : (s.onLayer pre m).length ≤ pre.length := List.length_filter_le _ _
      have h₃ := h.length_lt
      rw [List.length_append] at h₃
      omega
    have htall : ∀ n ∈ a ++ s.onLayer post m, m < s.heightOf n := by
      intro n hn
      obtain hn | hn := List.mem_append.1 hn
      · exact (mem_onLayer.1 (ha.subset hn)).2
      · exact (mem_onLayer.1 hn).2
    have hadv := advance_eq hway hcur htall (fun n hn => hpre n (mem_onLayer.1 (ha.subset hn)).1)
      (fun n hn => hpost n (mem_onLayer.1 hn).1) hlen
    have hrest := ih (by omega) (s.onLayer post m).head?
    have hnext : (if m = 0 then (s.onLayer post m).head? else post.head?) = post.head? := by
      split
      · rename_i hz
        rw [hz, onLayer_zero (fun n hn => (h.tall n (List.mem_append_right _ hn)).1)]
      · rfl
    rw [hnext] at hrest
    rw [descend, hadv, hlast]
    simp [hrest, List.range_succ]

/-- The search returns the first node with `x` or more, and the last node below
`x` on each layer. -/
theorem Layered.search_eq (h : Layered s (pre ++ post)) (hpre : ∀ n ∈ pre, s.dataOf n < x)
    (hpost : ∀ n ∈ post, ¬ s.dataOf n < x) : s.searchEqualOrGreater x =
      some (post.head?, (List.range (s.heightOf s.head)).map (s.pred pre)) := by
  have htop : s.pred pre (s.heightOf s.head) = s.head := by
    rw [pred, onLayer_eq_nil (fun n hn => (h.tall n (List.mem_append_left _ hn)).2)]
    rfl
  have hd := h.descend_eq hpre hpost le_rfl none
  rw [htop, if_neg h.top.ne'] at hd
  rw [searchEqualOrGreater, height, nodeHeight_eq h.top]
  exact hd

theorem Layered.exists_split (h : Layered s ids) (x : T) : ∃ pre post, ids = pre ++ post ∧
    (∀ n ∈ pre, s.dataOf n < x) ∧ ∀ n ∈ post, ¬ s.dataOf n < x := by
  have hsorted := h.sorted
  clear h
  induction ids with
  | nil => exact ⟨[], [], rfl, by simp, by simp⟩
  | cons n ids ih =>
    rw [List.pairwise_cons] at hsorted
    by_cases hn : s.dataOf n < x
    · obtain ⟨pre, post, rfl, hpre, hpost⟩ := ih hsorted.2
      exact ⟨n :: pre, post, rfl, List.forall_mem_cons.2 ⟨hn, hpre⟩, hpost⟩
    · refine ⟨[], n :: ids, rfl, by simp, List.forall_mem_cons.2 ⟨hn, fun m hm hlt => ?_⟩⟩
      exact hn ((hsorted.1 m hm).trans_lt hlt)

/-- The node found has `x` exactly when some node has. -/
theorem Layered.isExist_eq (h : Layered s (pre ++ post)) (hpre : ∀ n ∈ pre, s.dataOf n < x)
    (hpost : ∀ n ∈ post, ¬ s.dataOf n < x) :
    s.isExist x post.head? = some (decide (x ∈ (pre ++ post).map s.dataOf)) := by
  cases post with
  | nil =>
    have hno : x ∉ (pre ++ []).map s.dataOf := by
      intro hx
      obtain ⟨n, hn, rfl⟩ := List.mem_map.1 hx
      rw [List.append_nil] at hn
      exact (hpre n hn).ne rfl
    rw [decide_eq_false hno]
    rfl
  | cons n post =>
    have hd := data_eq (h.tall n (by simp)).1
    have hiff : s.dataOf n = x ↔ x ∈ (pre ++ n :: post).map s.dataOf := by
      constructor
      · rintro rfl
        exact List.mem_map_of_mem (by simp)
      · intro hx
        obtain ⟨m, hm, rfl⟩ := List.mem_map.1 hx
        obtain hm | hm := List.mem_append.1 hm
        · exact absurd rfl (hpre m hm).ne
        · obtain rfl | hm := List.mem_cons.1 hm
          · rfl
          · have hs := (List.pairwise_cons.1 (List.pairwise_append.1 h.sorted).2.1).1 m hm
            exact le_antisymm hs (not_lt.1 (hpost n (by simp)))
    simp only [isExist, List.head?_cons, hd, Option.bind_eq_bind, Option.bind_some, pure, hiff]

end Search

end Wizard.SkipList
