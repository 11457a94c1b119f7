import Wizard.Pool

/-! Tagged links and the lists they form. A link to a node is well formed when its
tag is the one of the node's latest push. -/

namespace Wizard.Pool

def link (i k : Nat) : TaggedIndex := makeTaggedIndex (BitVec.ofNat 64 i) (BitVec.ofNat 64 k)

theorem link_toNat {i : Nat} (k : Nat) (hi : i < 2 ^ 32) :
    (link i k).toNat = k % 2 ^ 32 * 2 ^ 32 + i := by
  have hshift : (BitVec.ofNat 64 k <<< 32).toNat = (k % 2 ^ 32) <<< 32 := by
    rw [BitVec.toNat_shiftLeft, BitVec.toNat_ofNat, Nat.shiftLeft_eq, Nat.shiftLeft_eq]
    omega
  have hlow : (BitVec.ofNat 64 i).toNat = i := by
    rw [BitVec.toNat_ofNat, Nat.mod_eq_of_lt (by omega)]
  rw [link, makeTaggedIndex, BitVec.toNat_or, hshift, hlow, Nat.or_comm,
    ← Nat.shiftLeft_add_eq_or_of_lt hi, Nat.shiftLeft_eq]

theorem getIndex_link {i : Nat} (k : Nat) (hi : i < 2 ^ 32) : (getIndex (link i k)).toNat = i := by
  rw [getIndex, BitVec.toNat_and, link_toNat k hi]
  change (k % 2 ^ 32 * 2 ^ 32 + i) &&& (2 ^ 32 - 1) = i
  rw [Nat.and_two_pow_sub_one_eq_mod]
  omega

theorem link_inj {i j k l : Nat} (hi : i < 2 ^ 32) (hj : j < 2 ^ 32) (h : link i k = link j l) :
    i = j ∧ k % 2 ^ 32 = l % 2 ^ 32 := by
  have hh := congrArg BitVec.toNat h
  rw [link_toNat k hi, link_toNat l hj] at hh
  omega

theorem link_ne_null {i : Nat} (k : Nat) (hi : i + 1 < 2 ^ 32) : link i k ≠ nullIndex := by
  intro h
  have hh := congrArg BitVec.toNat h
  rw [link_toNat k (by omega)] at hh
  have hn : nullIndex.toNat = 2 ^ 64 - 1 := rfl
  omega

/-- Following `next` from a link to the null index. -/
def Walk (nodes : Nodes) : TaggedIndex → List Nat → Prop
  | p, [] => p = nullIndex
  | p, i :: rest => p ≠ nullIndex ∧ (getIndex p).toNat = i ∧ Walk nodes (nodes i).next rest

/-- A walk all of whose links carry the tag of the latest push. -/
def Linked (nodes : Nodes) (pushes : Nat → Nat) : TaggedIndex → List Nat → Prop
  | p, [] => p = nullIndex
  | p, i :: rest => p = link i (pushes i - 1) ∧ 1 ≤ pushes i ∧ i + 1 < 2 ^ 32 ∧
      Linked nodes pushes (nodes i).next rest

theorem Linked.walk {nodes : Nodes} {pushes : Nat → Nat} {p : TaggedIndex} {l : List Nat}
    (h : Linked nodes pushes p l) : Walk nodes p l := by
  induction l generalizing p with
  | nil => exact h
  | cons i rest ih =>
    obtain ⟨rfl, hp, hi, hrest⟩ := h
    exact ⟨link_ne_null _ hi, getIndex_link _ (by omega), ih hrest⟩

theorem Walk.unique {nodes : Nodes} {p : TaggedIndex} {l l' : List Nat} (h : Walk nodes p l)
    (h' : Walk nodes p l') : l = l' := by
  induction l generalizing p l' with
  | nil =>
    cases l' with
    | nil => rfl
    | cons i rest => exact absurd h h'.1
  | cons i rest ih =>
    cases l' with
    | nil => exact absurd h' h.1
    | cons j rest' =>
      have hij : i = j := h.2.1.symm.trans h'.2.1
      subst hij
      rw [ih h.2.2 h'.2.2]

theorem Linked.congr {nodes nodes' : Nodes} {pushes pushes' : Nat → Nat} {p : TaggedIndex} {l : List Nat}
    (h : Linked nodes pushes p l)
    (he : ∀ i ∈ l, (nodes' i).next = (nodes i).next ∧ pushes' i = pushes i) :
    Linked nodes' pushes' p l := by
  induction l generalizing p with
  | nil => exact h
  | cons i rest ih =>
    obtain ⟨hp, h1, hi, hrest⟩ := h
    obtain ⟨hn, hk⟩ := he i List.mem_cons_self
    refine ⟨by rw [hk]; exact hp, by rw [hk]; exact h1, hi, ?_⟩
    rw [hn]
    exact ih hrest (fun j hj => he j (List.mem_cons_of_mem _ hj))

theorem Linked.head {nodes : Nodes} {pushes : Nat → Nat} {p : TaggedIndex} {l : List Nat}
    (h : Linked nodes pushes p l) (hp : p ≠ nullIndex) :
    ∃ i rest, l = i :: rest ∧ p = link i (pushes i - 1) ∧ 1 ≤ pushes i ∧ i + 1 < 2 ^ 32 ∧
      Linked nodes pushes (nodes i).next rest := by
  cases l with
  | nil => exact absurd h hp
  | cons i rest => exact ⟨i, rest, rfl, h⟩

/-- The nodes after `k` turns of the loop of `init`. -/
def builtNode (collectiveNum k i : Nat) : Node :=
  if i < k then
    { next := if i + 1 < k ∧ i + 1 ≠ collectiveNum then link (i + 1) 0 else nullIndex
      index := BitVec.ofNat 64 i
      tag := if i = 0 ∨ i = collectiveNum then 0 else 1
      isCollective := decide (i < collectiveNum) }
  else freshNode

def builtCollective (collectiveNum k : Nat) : LinkedList :=
  if k = 0 then ⟨none, none⟩ else ⟨some 0, some (min k collectiveNum - 1)⟩

def builtMarket (collectiveNum k : Nat) : LinkedList :=
  if k ≤ collectiveNum then ⟨none, none⟩ else ⟨some collectiveNum, some (k - 1)⟩

theorem builtNode_first (collectiveNum : Nat) {k : Nat} (hk : k = 0 ∨ k = collectiveNum) (i : Nat) :
    Function.update (builtNode collectiveNum k) k
      { builtNode collectiveNum k k with
        index := BitVec.ofNat 64 k, isCollective := decide (k < collectiveNum) } i =
      builtNode collectiveNum (k + 1) i := by
  by_cases hik : i = k
  · subst hik
    simp [builtNode, freshNode, hk]
  · rw [Function.update_of_ne hik]
    by_cases hlt : i < k
    · have hnext : (i + 1 < k ∧ i + 1 ≠ collectiveNum) ↔ (i + 1 < k + 1 ∧ i + 1 ≠ collectiveNum) := by
        omega
      simp only [builtNode, if_pos hlt, if_pos (show i < k + 1 by omega), hnext]
    · simp only [builtNode, if_neg hlt, if_neg (show ¬ i < k + 1 by omega)]

theorem builtNode_next {collectiveNum k : Nat} (h0 : k ≠ 0) (hc : k ≠ collectiveNum) (i : Nat) :
    Nodes.setNext (Nodes.advanceTag (Function.update (builtNode collectiveNum k) k
      { builtNode collectiveNum k k with
        index := BitVec.ofNat 64 k, isCollective := decide (k < collectiveNum) }) k) (k - 1) (link k 0) i =
      builtNode collectiveNum (k + 1) i := by
  by_cases hik : i = k
  · subst hik
    simp [Nodes.setNext, Nodes.advanceTag, builtNode, freshNode, show i ≠ i - 1 by omega, h0, hc]
  · by_cases hprev : i = k - 1
    · subst hprev
      have hk : k - 1 + 1 = k := by omega
      simp [Nodes.setNext, Nodes.advanceTag, hik, builtNode, hk, show k - 1 < k by omega,
        show k - 1 < k + 1 by omega, hc]
    · simp only [Nodes.setNext, Nodes.advanceTag, Function.update_of_ne hprev, Function.update_of_ne hik]
      by_cases hlt : i < k
      · have hnext : (i + 1 < k ∧ i + 1 ≠ collectiveNum) ↔ (i + 1 < k + 1 ∧ i + 1 ≠ collectiveNum) := by
          omega
        simp only [builtNode, if_pos hlt, if_pos (show i < k + 1 by omega), hnext]
      · simp only [builtNode, if_neg hlt, if_neg (show ¬ i < k + 1 by omega)]

theorem build_eq {collectiveNum : Nat} (hc : 0 < collectiveNum) (k : Nat) :
    build k collectiveNum =
      ⟨builtNode collectiveNum k, builtMarket collectiveNum k, builtCollective collectiveNum k⟩ := by
  induction k with
  | zero =>
    simp only [build, List.range_zero, List.foldl_nil, Builder.start, builtMarket, builtCollective,
      Nat.zero_le, if_true]
    congr 1
  | succ k ih =>
    have hstep : build (k + 1) collectiveNum = (build k collectiveNum).add collectiveNum k := by
      simp [build, List.range_succ]
    have hlink : makeTaggedIndex (BitVec.ofNat 64 k) freshNode.tag = link k 0 := rfl
    have hfresh : builtNode collectiveNum k k = freshNode := by simp [builtNode]
    rw [hstep, ih]
    by_cases hk : k < collectiveNum
    · have hm : builtMarket collectiveNum (k + 1) = builtMarket collectiveNum k := by
        simp [builtMarket, show k ≤ collectiveNum by omega, show k + 1 ≤ collectiveNum by omega]
      by_cases h0 : k = 0
      · have hn := funext (builtNode_first collectiveNum (.inl h0))
        simp only [hk, decide_true] at hn
        subst h0
        simp [Builder.add, hc, builtCollective, pushBack, hn, hm]
      · have hn := funext (builtNode_next h0 (show k ≠ collectiveNum by omega))
        simp only [hk, decide_true] at hn
        have hmin : min k collectiveNum - 1 = k - 1 := by omega
        have hmin' : min (k + 1) collectiveNum - 1 = k := by omega
        simp only [Builder.add, hk, if_true, builtCollective, h0, if_false, hmin, hmin', pushBack,
          Function.update_self, hfresh, hlink, hm, Nat.succ_ne_zero] at hn ⊢
        rw [hn]
    · have hcol : builtCollective collectiveNum (k + 1) = builtCollective collectiveNum k := by
        simp [builtCollective, show k ≠ 0 by omega, show min (k + 1) collectiveNum = collectiveNum by omega,
          show min k collectiveNum = collectiveNum by omega]
      by_cases hkc : k = collectiveNum
      · have hn := funext (builtNode_first collectiveNum (.inr hkc))
        simp only [hk, decide_false] at hn
        subst hkc
        simp [Builder.add, builtMarket, pushBack, hn, hcol]
      · have hn := funext (builtNode_next (show k ≠ 0 by omega) hkc)
        simp only [hk, decide_false] at hn
        simp only [Builder.add, hk, if_false, builtMarket, show ¬ k ≤ collectiveNum by omega,
          show ¬ k + 1 ≤ collectiveNum by omega, pushBack, Function.update_self, hfresh, hlink, hcol,
          Nat.add_sub_cancel] at hn ⊢
        rw [hn]

/-- The nodes after the constructor. -/
def constructedNode (num collectiveNum i : Nat) : Node :=
  if i < num then
    { next := if i + 1 < num ∧ i + 1 ≠ collectiveNum then link (i + 1) 0 else nullIndex
      index := BitVec.ofNat 64 i
      tag := 1
      isCollective := decide (i < collectiveNum) }
  else freshNode

def constructedHead (collectiveNum : Nat) : Which → TaggedIndex
  | .market => link collectiveNum 0
  | .collective => link 0 0

theorem setNext_of_eq {nodes : Nodes} {i : Nat} {p : TaggedIndex} (h : (nodes i).next = p) :
    nodes.setNext i p = nodes := by
  subst h
  exact Function.update_eq_self i nodes

theorem advanceTag_next (nodes : Nodes) (i j : Nat) : (nodes.advanceTag i j).next = (nodes j).next := by
  by_cases h : j = i <;> simp [Nodes.advanceTag, h]

theorem construct_eq {num collectiveNum : Nat} (hc : 0 < collectiveNum) (hn : collectiveNum < num) :
    construct num collectiveNum = some (constructedNode num collectiveNum, constructedHead collectiveNum) := by
  have hcol : builtCollective collectiveNum num = ⟨some 0, some (collectiveNum - 1)⟩ := by
    simp [builtCollective, show num ≠ 0 by omega, show min num collectiveNum = collectiveNum by omega]
  have hmar : builtMarket collectiveNum num = ⟨some collectiveNum, some (num - 1)⟩ := by
    simp [builtMarket, show ¬ num ≤ collectiveNum by omega]
  have hlast : (builtNode collectiveNum num (num - 1)).next = nullIndex := by
    simp [builtNode, show num - 1 < num by omega, show num - 1 + 1 = num by omega]
  have hlast' : (builtNode collectiveNum num (collectiveNum - 1)).next = nullIndex := by
    simp [builtNode, show collectiveNum - 1 < num by omega, show collectiveNum - 1 + 1 = collectiveNum by omega]
  have h0 : collectiveNum ≠ 0 := by omega
  simp only [construct, build_eq hc, hcol, hmar, pushInto, Option.bind_some, Option.map_some, Option.some.injEq,
    Prod.mk.injEq]
  have hmarket := setNext_of_eq ((advanceTag_next _ collectiveNum _).trans hlast)
  rw [hmarket, setNext_of_eq (((advanceTag_next _ _ _).trans (advanceTag_next _ _ _)).trans hlast')]
  constructor
  · funext i
    by_cases hi0 : i = 0
    · subst hi0
      simp [Nodes.advanceTag, h0.symm, builtNode, constructedNode, show 0 < num by omega]
    · by_cases hic : i = collectiveNum
      · subst hic
        simp [Nodes.advanceTag, h0, builtNode, constructedNode, hn]
      · simp [Nodes.advanceTag, hi0, hic, builtNode, constructedNode]
  · funext w
    cases w with
    | market => simp [constructedHead, builtNode, hn, link]
    | collective => simp [constructedHead, Nodes.advanceTag, h0.symm, builtNode, show 0 < num by omega, link]

theorem linked_range {nodes : Nodes} {pushes : Nat → Nat} {a n : Nat} (hn : 0 < n) (hb : a + n < 2 ^ 32)
    (hp : ∀ i, a ≤ i → i < a + n → pushes i = 1)
    (hnext : ∀ i, a ≤ i → i < a + n →
      (nodes i).next = if i + 1 < a + n then link (i + 1) 0 else nullIndex) :
    Linked nodes pushes (link a 0) (List.range' a n) := by
  induction n generalizing a with
  | zero => omega
  | succ n ih =>
    have hpa := hp a (le_refl a) (by omega)
    refine ⟨by rw [hpa], by omega, by omega, ?_⟩
    rw [hnext a (le_refl a) (by omega)]
    by_cases h0 : n = 0
    · subst h0
      rw [if_neg (by omega)]
      rfl
    · rw [if_pos (by omega)]
      exact ih (by omega) (by omega) (fun i h h' => hp i (by omega) (by omega)) (fun i h h' => by
        rw [hnext i (by omega) (by omega)]
        simp only [show a + 1 + n = a + (n + 1) by omega])

end Wizard.Pool
