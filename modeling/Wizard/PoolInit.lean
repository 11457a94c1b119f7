import Wizard.PoolLinks

/-! The two lists that `init` leaves. `push_into` looks at the first node of its list, so
neither of them may be empty. -/

namespace Wizard.Pool

def getTag (taggedIndex : TaggedIndex) : BitVec 64 := taggedIndex >>> 32

/-- Following the links from `p`, each of which has the tag before the one that its node has,
comes to the nodes of the list and then to the null index. -/
def Visits (nodes : Nodes) : TaggedIndex → List Nat → Prop
  | p, [] => p = nullIndex
  | p, i :: rest => p ≠ nullIndex ∧ (getIndex p).toNat = i ∧ getTag p + 1 = (nodes i).tag ∧
      Visits nodes (nodes i).next rest

/-- `init` returns, and every node is in its list. -/
def Partitioned (num collectiveNum : Nat) : Prop :=
  ∃ nodes head, construct num collectiveNum = some (nodes, head) ∧
    Visits nodes (head .collective) (List.range (min num collectiveNum)) ∧
    Visits nodes (head .market) (List.range' collectiveNum (num - collectiveNum)) ∧
    ∀ i < num, (nodes i).isCollective = true ↔ i < collectiveNum

theorem getTag_link {i k : Nat} (hi : i < 2 ^ 32) (hk : k < 2 ^ 32) : getTag (link i k) = BitVec.ofNat 64 k := by
  apply BitVec.eq_of_toNat_eq
  rw [getTag, BitVec.toNat_ushiftRight, link_toNat k hi, Nat.shiftRight_eq_div_pow, BitVec.toNat_ofNat]
  omega

theorem Linked.visits {nodes : Nodes} {pushes : Nat → Nat} {p : TaggedIndex} {l : List Nat}
    (h : Linked nodes pushes p l)
    (ht : ∀ i ∈ l, (nodes i).tag = BitVec.ofNat 64 (pushes i) ∧ pushes i ≤ 2 ^ 32) : Visits nodes p l := by
  induction l generalizing p with
  | nil => exact h
  | cons i rest ih =>
    obtain ⟨rfl, h1, hi, hrest⟩ := h
    obtain ⟨htag, hk⟩ := ht i List.mem_cons_self
    refine ⟨link_ne_null _ hi, getIndex_link _ (by omega), ?_, ih hrest fun j hj => ht j (List.mem_cons_of_mem _ hj)⟩
    rw [getTag_link (by omega) (by omega), htag]
    have hone : (1 : BitVec 64).toNat = 1 := rfl
    apply BitVec.eq_of_toNat_eq
    simp only [BitVec.toNat_add, BitVec.toNat_ofNat, hone]
    omega

/-- No node goes to the collective list. -/
theorem build_zero (num : Nat) : (build num 0).collective = ⟨none, none⟩ := by
  induction num with
  | zero => rfl
  | succ num ih =>
    have hstep : build (num + 1) 0 = (build num 0).add 0 num := by simp [build, List.range_succ]
    rw [hstep, Builder.add, if_neg (Nat.not_lt_zero num)]
    exact ih

theorem construct_eq_none {num collectiveNum : Nat} (h : ¬ (0 < collectiveNum ∧ collectiveNum < num)) :
    construct num collectiveNum = none := by
  by_cases hc : 0 < collectiveNum
  · have hm : (build num collectiveNum).market = ⟨none, none⟩ := by
      rw [build_eq hc]
      exact if_pos (by omega)
    simp only [construct, hm, pushInto, Option.bind_none]
  · obtain rfl : collectiveNum = 0 := by omega
    simp only [construct, build_zero, pushInto, Option.map_none]
    exact Option.bind_fun_none _

/-- The constructor makes the two lists if there is a node for each. -/
theorem partitioned_iff {num collectiveNum : Nat} (hnum : num < 2 ^ 32) :
    Partitioned num collectiveNum ↔ 0 < collectiveNum ∧ collectiveNum < num := by
  constructor
  · rintro ⟨nodes, head, hs, -⟩
    by_contra h
    rw [construct_eq_none h] at hs
    cases hs
  · rintro ⟨hc, hn⟩
    have hnext : ∀ i < num, (constructedNode num collectiveNum i).next =
        if i + 1 < num ∧ i + 1 ≠ collectiveNum then link (i + 1) 0 else nullIndex := by
      intro i hi
      rw [constructedNode, if_pos hi]
    have htag : ∀ i < num, (constructedNode num collectiveNum i).tag = BitVec.ofNat 64 1 ∧ 1 ≤ 2 ^ 32 := by
      intro i hi
      rw [constructedNode, if_pos hi]
      exact ⟨rfl, by decide⟩
    refine ⟨_, _, construct_eq hc hn, ?_, ?_, fun i hi => ?_⟩
    · rw [Nat.min_eq_right hn.le, List.range_eq_range']
      have hl := @linked_range (constructedNode num collectiveNum) (fun _ => 1) 0 collectiveNum hc (by omega)
        (fun _ _ _ => rfl) fun i _ hi => by
          rw [hnext i (by omega)]
          congr 1
          simp only [eq_iff_iff]
          omega
      exact hl.visits fun i hi => htag i (by rw [List.mem_range'_1] at hi; omega)
    · have hl := @linked_range (constructedNode num collectiveNum) (fun _ => 1) collectiveNum
        (num - collectiveNum) (by omega) (by omega) (fun _ _ _ => rfl) fun i _ hi => by
          rw [hnext i (by omega)]
          congr 1
          simp only [eq_iff_iff]
          omega
      exact hl.visits fun i hi => htag i (by rw [List.mem_range'_1] at hi; omega)
    · rw [constructedNode, if_pos hi]
      exact decide_eq_true_iff

/-- Two collective nodes of three. -/
theorem partitioned_iff_three : Partitioned 3 2 ↔ 0 < 2 ∧ 2 < 3 :=
  partitioned_iff (by decide)

/-- Without collective nodes their list is empty. -/
theorem not_partitioned_zero : ¬ Partitioned 4 0 := by
  rintro ⟨nodes, head, hs, -⟩
  rw [construct_eq_none (by decide)] at hs
  cases hs

end Wizard.Pool
