import Mathlib.Data.List.Induction
import Mathlib.Data.List.TakeWhile
import Wizard.Runs
import Wizard.SkipListSpec
import Wizard.StrictWeak

/-! The skip list with a comparator of its own. The search goes by `less`, but what is
there is decided by `==`. -/

namespace Wizard.SkipList

open StrictWeak

variable {T Q : Type} {s t : SkipList T} {l : List T} {x y : T}

namespace Comp

section Search

variable (less : T → T → Bool)

/-- The inner loop of `_search_equal_or_greater` on layer `i`. -/
def advance (s : SkipList T) (x : T) (i : Nat) : Nat → Nat → Option (Nat × Option Nat)
  | 0, _ => none
  | fuel + 1, cur => do
    match ← s.skip cur i with
    | none => some (cur, none)
    | some next => if less (← s.data next) x then advance s x i fuel next else some (cur, some next)

/-- The outer loop from layer `n - 1` down, with `prevs` from layer 0 up. -/
def descend (s : SkipList T) (x : T) : Nat → Nat → Option Nat → Option (Option Nat × List Nat)
  | 0, _, next => some (next, [])
  | n + 1, cur, _ => do
    let (cur, next) ← advance less s x n (s.nodeCount + 1) cur
    let (next, prevs) ← descend s x n cur next
    return (next, prevs ++ [cur])

def searchEqualOrGreater (s : SkipList T) (x : T) : Option (Option Nat × List Nat) := do
  descend less s x (← s.height) s.head none

/-- The same search without `prevs`. -/
def searchNode (s : SkipList T) (x : T) : Option (Option Nat) :=
  (searchEqualOrGreater less s x).map Prod.fst

variable [DecidableEq T]

def isExist (s : SkipList T) (x : T) : Option Nat → Option Bool
  | none => some false
  | some n => do return (← s.data n) = x

def insert [Inhabited T] (c : Config) (s : SkipList T) (x : T) (force : Bool) (r : Nat) :
    Option (Bool × SkipList T) := do
  let s ← s.growIfFull c
  let nodeHeight := getHeight r (← s.height)
  let (next, prevs) ← searchEqualOrGreater less s x
  let isExist ← isExist s x next
  if isExist ∧ force ∨ ¬ isExist then
    let s ← (s.create nodeHeight x).linkNode s.nodeCount prevs nodeHeight
    return (isExist, { s with size := s.size + 1 })
  else return (isExist, s)

def remove (s : SkipList T) (x : T) : Option (Bool × SkipList T) := do
  let (next, prevs) ← searchEqualOrGreater less s x
  match next with
  | none => return (false, s)
  | some n =>
    if (← s.data n) ≠ x then return (false, s)
    let t ← s.unlinkNode n prevs (← s.nodeHeight n)
    let t ← t.destroy n
    return (true, { t with size := t.size - 1 })

def find (s : SkipList T) (x : T) : Option Bool := do
  isExist s x (← searchNode less s x)

def step [Inhabited T] (c : Config) (s : SkipList T) : Op T → Option (Bool × SkipList T)
  | .insert x force r => insert less c s x force r
  | .remove x => remove less s x
  | .find x => (find less s x).map (fun b => (b, s))

def run [Inhabited T] (c : Config) (s : SkipList T) (ops : List (Op T)) : Option (SkipList T) :=
  ops.foldlM (fun s op => (step less c s op).map Prod.snd) s

/-- Only a forced insertion adds to a copy that is there. -/
def store (M : Multiset T) : Op T → Multiset T
  | .insert x force _ => if x ∈ M ∧ ¬ force then M else x ::ₘ M
  | .remove x => M.erase x
  | .find _ => M

/-- What was inserted and not removed since. -/
def stored (ops : List (Op T)) : Multiset T := ops.foldl store 0

/-- After `ops` exactly what is stored is found, and removed. -/
def Right [Inhabited T] (c : Config) (h : Nat) (ops : List (Op T)) : Prop :=
  ∃ s, run less c (make h) ops = some s ∧ ∀ x, find less s x = some (decide (x ∈ stored ops)) ∧
    ∃ t, remove less s x = some (decide (x ∈ stored ops), t)

/-- Nothing is inserted that is equivalent to another element, and nothing into a list too
high for the table of size limits. -/
def Careful (h : Nat) (ops : List (Op T)) : Prop :=
  ∀ p x force r, p ++ [.insert x force r] <+: ops → h < 64 ∧ ∀ y ∈ stored p, Equivalent less x y → x = y

end Search

end Comp

/-! The list with its data replaced by keys. -/

def map (f : T → Q) (s : SkipList T) : SkipList Q :=
  { node := fun n => (s.node n).map fun nd => ⟨nd.height, f nd.data, nd.skip⟩
    nodeCount := s.nodeCount
    head := s.head
    size := s.size }

section Map

variable {f : T → Q} {n i m : Nat}

@[simp] theorem map_head : (s.map f).head = s.head := rfl

@[simp] theorem map_nodeCount : (s.map f).nodeCount = s.nodeCount := rfl

theorem skip_map : (s.map f).skip n i = s.skip n i := by
  cases h : s.node n <;> simp [skip, map, h]

theorem data_map : (s.map f).data n = (s.data n).map f := by
  cases h : s.node n <;> simp [data, map, h]

theorem nodeHeight_map : (s.map f).nodeHeight n = s.nodeHeight n := by
  cases h : s.node n <;> simp [nodeHeight, map, h]

@[simp] theorem height_map : (s.map f).height = s.height := nodeHeight_map

@[simp] theorem heightOf_map : (s.map f).heightOf = s.heightOf := by
  funext n
  rw [heightOf, nodeHeight_map, heightOf]

@[simp] theorem onLayer_map (ids : List Nat) : (s.map f).onLayer ids i = s.onLayer ids i := by
  rw [onLayer, heightOf_map, onLayer]

@[simp] theorem pred_map (pre : List Nat) : (s.map f).pred pre = s.pred pre := by
  funext i
  rw [pred, onLayer_map, pred, map_head]

theorem map_update {α β : Type} (g : α → β) (node : Nat → Option α) (n : Nat) (x : Option α) (k : Nat) :
    (Function.update node n x k).map g = Function.update (fun k => (node k).map g) n (x.map g) k :=
  Function.apply_update (fun _ => Option.map g) node n x k

theorem setSkip_map (p : Option Nat) : (s.map f).setSkip n i p = (s.setSkip n i p).map (map f) := by
  cases h : s.node n with
  | none => simp [setSkip, map, h]
  | some nd =>
    by_cases hi : i < nd.height
    · simp only [setSkip, map, h, hi, Option.map_some, Option.bind_eq_bind, Option.bind_some, if_true]
      congr
      funext k
      rw [map_update]
      rfl
    · simp [setSkip, map, h, hi]

theorem create_map (x : T) : (s.map f).create m (f x) = (s.create m x).map f := by
  simp only [create, map]
  congr
  funext k
  rw [map_update]
  rfl

theorem destroy_map : (s.map f).destroy n = (s.destroy n).map (map f) := by
  cases h : s.node n with
  | none => simp [destroy, map, h]
  | some nd =>
    simp only [destroy, map, h, Option.map_some, Option.bind_eq_bind, Option.bind_some, pure]
    congr
    funext k
    rw [map_update]
    rfl

theorem linkNode_map (new : Nat) (prevs : List Nat) :
    (s.map f).linkNode new prevs m = (s.linkNode new prevs m).map (map f) := by
  induction m generalizing s with
  | zero => rfl
  | succ m ih =>
    simp only [linkNode, skip_map, setSkip_map, Option.bind_eq_bind, Option.map_bind, Option.bind_map,
      Function.comp_def, ih]

theorem unlinkNode_map (prevs : List Nat) :
    (s.map f).unlinkNode n prevs m = (s.unlinkNode n prevs m).map (map f) := by
  induction m generalizing s with
  | zero => rfl
  | succ m ih =>
    simp only [unlinkNode, skip_map, setSkip_map, Option.bind_eq_bind, Option.map_bind, Option.bind_map,
      Function.comp_def, ih]

theorem copySkipPointer_map (new old : Nat) :
    (s.map f).copySkipPointer new old m = (s.copySkipPointer new old m).map (map f) := by
  induction m with
  | zero => rfl
  | succ m ih =>
    rw [copySkipPointer] at ih
    rw [copySkipPointer, copySkipPointer, List.range_succ, List.foldlM_append, List.foldlM_append, ih]
    simp [copySkipPointer, skip_map, setSkip_map, Option.map_bind, Option.bind_map]

variable [Inhabited T] [Inhabited Q]

theorem growHeight_map (hf : f default = default) : (s.map f).growHeight m = (s.growHeight m).map (map f) := by
  have hcreate : (s.map f).create m default = (s.create m default).map f := by rw [← hf, create_map]
  cases hh : s.height with
  | none => simp [growHeight, hh]
  | some h =>
    by_cases hm : m ≤ h
    · simp [growHeight, hh, hm]
    · simp only [growHeight, height_map, hh, Option.bind_eq_bind, Option.bind_some, if_neg hm, hcreate]
      change (((s.create m default).map f).copySkipPointer s.nodeCount s.head h).bind _ = _
      rw [copySkipPointer_map]
      cases (s.create m default).copySkipPointer s.nodeCount s.head h with
      | none => rfl
      | some t => exact destroy_map (s := { t with head := s.nodeCount })

theorem growIfFull_map (hf : f default = default) (c : Config) :
    (s.map f).growIfFull c = (s.growIfFull c).map (map f) := by
  cases hh : s.height with
  | none => simp [growIfFull, hh]
  | some h =>
    simp only [growIfFull, height_map, hh, growHeight_map hf, Option.bind_eq_bind, Option.bind_some]
    cases getSizeLimit c h with
    | none => rfl
    | some sizeLimit =>
      by_cases hg : h < c.maxHeight ∧ sizeLimit < s.size + 1
      · rw [Option.bind_some, Option.bind_some, if_pos hg]
        exact if_pos hg
      · rw [Option.bind_some, Option.bind_some, if_neg hg]
        exact if_neg hg

omit [Inhabited T] [Inhabited Q] in
theorem drop_of_destroy (h : s.destroy n = some t) : t = s.drop n := by
  simp only [destroy, Option.bind_eq_bind, Option.bind_eq_some_iff] at h
  obtain ⟨nd, -, h⟩ := h
  exact (Option.some.inj h).symm

end Map

/-! What the links do leaves the data alone. -/

section Data

variable [Inhabited T] {n i m : Nat}

theorem dataOf_setSkip {p : Option Nat} (h : s.setSkip n i p = some t) : t.dataOf = s.dataOf := by
  simp only [setSkip, Option.bind_eq_bind, Option.bind_eq_some_iff] at h
  obtain ⟨nd, hn, h⟩ := h
  split at h
  · rw [← Option.some.inj h]
    funext k
    by_cases hk : k = n
    · simp [dataOf, data, hk, hn]
    · simp [dataOf, data, hk]
  · cases h

theorem dataOf_linkNode {new : Nat} {prevs : List Nat} (h : s.linkNode new prevs m = some t) :
    t.dataOf = s.dataOf := by
  induction m generalizing s with
  | zero => rw [Option.some.inj h]
  | succ m ih =>
    simp only [linkNode, Option.bind_eq_bind, Option.bind_eq_some_iff] at h
    obtain ⟨p, -, q, -, s₁, h₁, s₂, h₂, h⟩ := h
    rw [ih h, dataOf_setSkip h₂, dataOf_setSkip h₁]

theorem dataOf_unlinkNode {prevs : List Nat} (h : s.unlinkNode n prevs m = some t) : t.dataOf = s.dataOf := by
  induction m generalizing s with
  | zero => rw [Option.some.inj h]
  | succ m ih =>
    simp only [unlinkNode, Option.bind_eq_bind, Option.bind_eq_some_iff] at h
    obtain ⟨p, -, q, -, s₁, h₁, h⟩ := h
    rw [ih h, dataOf_setSkip h₁]

theorem dataOf_copySkipPointer {new old : Nat} (h : s.copySkipPointer new old m = some t) :
    t.dataOf = s.dataOf := by
  induction m generalizing t with
  | zero => rw [← Option.some.inj h]
  | succ m ih =>
    simp only [copySkipPointer, List.range_succ, List.foldlM_append, List.foldlM_cons, List.foldlM_nil, bind_pure,
      Option.bind_eq_bind, Option.bind_eq_some_iff] at h
    obtain ⟨s₁, h₁, q, -, h₂⟩ := h
    rw [dataOf_setSkip h₂, ih h₁]

theorem dataOf_growHeight (h : s.growHeight m = some t) (hn : n ≠ s.nodeCount) (hn' : n ≠ s.head) :
    t.dataOf n = s.dataOf n := by
  simp only [growHeight, Option.bind_eq_bind, Option.bind_eq_some_iff] at h
  obtain ⟨k, -, h⟩ := h
  split at h
  · rw [Option.some.inj h]
  · simp only [destroy, Option.bind_eq_bind, Option.bind_eq_some_iff] at h
    obtain ⟨s₁, h₁, nd, -, h⟩ := h
    rw [← Option.some.inj h]
    refine (dataOf_drop hn').trans ?_
    rw [dataOf_copySkipPointer h₁, dataOf_create, Function.update_of_ne hn]

end Data

namespace Comp

/-! The operations on the list of the elements in the order of layer 0. -/

section Lists

variable (less : T → T → Bool) (l : List T) (x : T)

/-- The first element that is not less than `x` is `x`. -/
def Found : Prop := (l.dropWhile (less · x)).head? = some x

def place : List T := l.takeWhile (less · x) ++ x :: l.dropWhile (less · x)

def takeOut : List T := l.takeWhile (less · x) ++ (l.dropWhile (less · x)).tail

variable [DecidableEq T]

instance : Decidable (Found less l x) := inferInstanceAs (Decidable (_ = _))

def replay : Op T → List T
  | .insert x force _ => if Found less l x ∧ ¬ force then l else place less l x
  | .remove x => if Found less l x then takeOut less l x else l
  | .find _ => l

end Lists

section Key

variable [LinearOrder Q] [Inhabited T] [Inhabited Q] {less : T → T → Bool} {key : T → Q}

/-- The nodes show `l` in the order of layer 0. -/
def Listed (key : T → Q) (s : SkipList T) (l : List T) : Prop :=
  ∃ ids, Layered (s.map key) ids ∧ ids.map s.dataOf = l

omit [LinearOrder Q] in
theorem dataOf_map (hd : key default = default) (n : Nat) : (s.map key).dataOf n = key (s.dataOf n) := by
  cases h : s.data n <;> simp [dataOf, data_map, h, hd]

omit [Inhabited T] [Inhabited Q] in
theorem advance_map (hk : ∀ a b, key a < key b ↔ less a b) (i fuel cur : Nat) :
    (s.map key).advance (key x) i fuel cur = advance less s x i fuel cur := by
  induction fuel generalizing cur with
  | zero => rfl
  | succ fuel ih =>
    rw [SkipList.advance, advance, skip_map]
    cases s.skip cur i with
    | none => rfl
    | some next =>
      cases next with
      | none => rfl
      | some next =>
        simp only [data_map, ih, Option.bind_eq_bind, Option.bind_some, Option.bind_map, Function.comp_def, hk]

omit [Inhabited T] [Inhabited Q] in
theorem descend_map (hk : ∀ a b, key a < key b ↔ less a b) (n cur : Nat) (next : Option Nat) :
    (s.map key).descend (key x) n cur next = descend less s x n cur next := by
  induction n generalizing cur next with
  | zero => rfl
  | succ n ih =>
    simp only [SkipList.descend, descend, advance_map hk, ih]
    rfl

omit [Inhabited T] [Inhabited Q] in
theorem search_map (hk : ∀ a b, key a < key b ↔ less a b) :
    (s.map key).searchEqualOrGreater (key x) = searchEqualOrGreater less s x := by
  simp only [SkipList.searchEqualOrGreater, searchEqualOrGreater, height_map, descend_map hk]
  rfl

omit [Inhabited T] in
theorem split_eq {p : T → Bool} {a b : List T} (ha : ∀ y ∈ a, p y) (hb : ∀ y ∈ b, ¬ p y) :
    (a ++ b).takeWhile p = a ∧ (a ++ b).dropWhile p = b := by
  rw [List.takeWhile_append_of_pos ha, List.dropWhile_append_of_pos ha]
  cases b with
  | nil => simp
  | cons y b =>
    have hy := hb y List.mem_cons_self
    simp [hy]

theorem Listed.growIfFull (hd : key default = default) (h : Listed key s l) (hlow : s.heightOf s.head < 64)
    (c : Config) : ∃ t, s.growIfFull c = some t ∧ Listed key t l ∧ t.heightOf t.head < 64 := by
  obtain ⟨ids, hl, rfl⟩ := h
  have hmax := c.maxHeight.isLt
  have htop := hl.top
  rw [heightOf_map, map_head] at htop
  have hheight : s.height = some (s.heightOf s.head) := nodeHeight_eq htop
  have hlimit : getSizeLimit c (s.heightOf s.head) = some (c.sizeLimit ⟨s.heightOf s.head, hlow⟩) := dif_pos hlow
  simp only [SkipList.growIfFull, hheight, hlimit, Option.bind_eq_bind, Option.bind_some]
  split
  · obtain ⟨t', ht', hl', -, htall⟩ := hl.growHeight (m := s.heightOf s.head + 1) (by omega)
    rw [growHeight_map hd, Option.map_eq_some_iff] at ht'
    obtain ⟨t, ht, rfl⟩ := ht'
    rw [heightOf_map, heightOf_map, map_head, map_head] at htall
    refine ⟨t, ht, ⟨ids, hl', List.map_congr_left fun n hn => ?_⟩, by omega⟩
    refine dataOf_growHeight ht (hl.bound n (List.mem_cons_of_mem _ hn)).ne ?_
    exact ne_of_mem_of_not_mem hn (List.nodup_cons.1 hl.nodup).1
  · exact ⟨s, rfl, ⟨ids, hl, rfl⟩, hlow⟩

variable [DecidableEq T] (hk : ∀ a b, key a < key b ↔ less a b) (hd : key default = default)

include hk hd

theorem Listed.search (h : Listed key s l) (x : T) : ∃ pre post, Layered (s.map key) (pre ++ post) ∧
    pre.map s.dataOf = l.takeWhile (less · x) ∧ post.map s.dataOf = l.dropWhile (less · x) ∧
    (∀ n ∈ pre, (s.map key).dataOf n < key x) ∧ (∀ n ∈ post, ¬ (s.map key).dataOf n < key x) ∧
    searchEqualOrGreater less s x = some (post.head?, (List.range (s.heightOf s.head)).map (s.pred pre)) ∧
    isExist s x post.head? = some (decide (Found less l x)) := by
  obtain ⟨ids, hl, rfl⟩ := h
  obtain ⟨pre, post, rfl, hpre, hpost⟩ := hl.exists_split (key x)
  have hsearch := hl.search_eq hpre hpost
  rw [search_map hk, heightOf_map, pred_map] at hsearch
  have hsplit := split_eq (p := (less · x)) (a := pre.map s.dataOf) (b := post.map s.dataOf)
    (by
      intro y hy
      obtain ⟨n, hn, rfl⟩ := List.mem_map.1 hy
      exact (hk _ _).1 (dataOf_map hd n ▸ hpre n hn))
    (by
      intro y hy
      obtain ⟨n, hn, rfl⟩ := List.mem_map.1 hy
      exact fun hlt => hpost n hn (dataOf_map hd n ▸ (hk _ _).2 hlt))
  refine ⟨pre, post, hl, ?_, ?_, hpre, hpost, hsearch, ?_⟩
  · rw [List.map_append, hsplit.1]
  · rw [List.map_append, hsplit.2]
  · have hfound : Found less ((pre ++ post).map s.dataOf) x ↔ post.head?.map s.dataOf = some x := by
      rw [Found, List.map_append, hsplit.2, List.head?_map]
    simp only [hfound]
    cases post with
    | nil => simp [isExist]
    | cons n post =>
      have hn := (hl.tall n (by simp)).1
      rw [heightOf_map] at hn
      simp [isExist, data_eq hn]

theorem Listed.find (h : Listed key s l) (x : T) : find less s x = some (decide (Found less l x)) := by
  obtain ⟨pre, post, -, -, -, -, -, hs, he⟩ := h.search hk hd x
  simp [Comp.find, searchNode, hs, he]

theorem Listed.insert (h : Listed key s l) (hlow : s.heightOf s.head < 64) (c : Config) (x : T) (force : Bool)
    (r : Nat) : ∃ t, insert less c s x force r = some (decide (Found less l x), t) ∧
      Listed key t (replay less l (.insert x force r)) ∧ t.heightOf t.head < 64 := by
  obtain ⟨s₁, hgrow, h₁, hlow₁⟩ := h.growIfFull hd hlow c
  obtain ⟨pre, post, hl, htake, hdrop, hpre, hpost, hs, he⟩ := h₁.search hk hd x
  have htop := hl.top
  rw [heightOf_map, map_head] at htop
  have hheight : s₁.height = some (s₁.heightOf s₁.head) := nodeHeight_eq htop
  obtain ⟨hpos, hle⟩ := getHeight_le r htop
  by_cases hx : Found less l x ∧ ¬ force
  · refine ⟨s₁, ?_, ?_, hlow₁⟩
    · simp [Comp.insert, hgrow, hheight, hs, he, hx.1, hx.2]
    · rwa [replay, if_pos hx]
  · obtain ⟨t', ht', hl', -, htall⟩ := hl.insertNode hpre hpost hpos (by rwa [heightOf_map, map_head]) (by omega)
    rw [create_map, linkNode_map, Option.map_eq_some_iff, heightOf_map, pred_map, map_head, map_nodeCount] at ht'
    obtain ⟨t, ht, rfl⟩ := ht'
    rw [heightOf_map, heightOf_map, map_head, map_head] at htall
    have hdata := (dataOf_linkNode ht).trans (s₁.dataOf_create _ x)
    have hold : ∀ n ∈ pre ++ post, t.dataOf n = s₁.dataOf n := fun n hn => by
      have hlt : n < s₁.nodeCount := hl.bound n (List.mem_cons_of_mem _ hn)
      rw [hdata, Function.update_of_ne hlt.ne]
    refine ⟨{ t with size := t.size + 1 }, ?_, ⟨_, hl', ?_⟩, htall.trans_lt hlow₁⟩
    · have hc : ¬ Found less l x ∨ force = true := by
        rw [not_and_or, not_not] at hx
        exact hx
      obtain hc | hc := hc <;> simp [Comp.insert, hgrow, hheight, hs, he, ht, hc]
    · rw [replay, if_neg hx, place, ← htake, ← hdrop, map_nodeCount, List.map_append, List.map_cons]
      change pre.map t.dataOf ++ t.dataOf s₁.nodeCount :: post.map t.dataOf = _
      rw [List.map_congr_left fun n hn => hold n (List.mem_append_left _ hn),
        List.map_congr_left fun n hn => hold n (List.mem_append_right _ hn), hdata, Function.update_self]

theorem Listed.remove (h : Listed key s l) (x : T) : ∃ t, remove less s x = some (decide (Found less l x), t) ∧
    Listed key t (replay less l (.remove x)) ∧ t.heightOf t.head = s.heightOf s.head := by
  obtain ⟨pre, post, hl, htake, hdrop, hpre, hpost, hs, he⟩ := h.search hk hd x
  cases post with
  | nil =>
    have hx : ¬ Found less l x := by simpa [isExist] using he
    refine ⟨s, ?_, by rwa [replay, if_neg hx], rfl⟩
    simp [Comp.remove, hs, hx]
  | cons n post =>
    have htall := (hl.tall n (by simp)).1
    rw [heightOf_map] at htall
    have hd' : s.data n = some (s.dataOf n) := data_eq htall
    have hx : s.dataOf n = x ↔ Found less l x := by
      have he' := he
      simp only [isExist, List.head?_cons, hd', Option.bind_eq_bind, Option.bind_some, pure, Option.some.injEq,
        decide_eq_decide] at he'
      exact he'
    by_cases hn : s.dataOf n = x
    · obtain ⟨t', ht', hdestroy, hl', -, htop⟩ := hl.removeNode
      rw [unlinkNode_map, heightOf_map, pred_map, map_head, Option.map_eq_some_iff] at ht'
      obtain ⟨t, ht, rfl⟩ := ht'
      rw [destroy_map, Option.map_eq_some_iff] at hdestroy
      obtain ⟨u, hu, hmap⟩ := hdestroy
      have hdrop' := drop_of_destroy hu
      rw [← hmap] at hl' htop
      have hmem : n ∉ pre ++ post :=
        (List.nodup_cons.1 (List.nodup_middle.1 (List.nodup_cons.1 hl.nodup).2)).1
      have hold : ∀ m ∈ pre ++ post, u.dataOf m = s.dataOf m := fun m hm => by
        rw [hdrop', dataOf_drop (ne_of_mem_of_not_mem hm hmem), dataOf_unlinkNode ht]
      rw [heightOf_map, heightOf_map, map_head, map_head] at htop
      refine ⟨{ u with size := u.size - 1 }, ?_, ⟨_, hl', ?_⟩, ?_⟩
      · simp [Comp.remove, hs, hd', hn, nodeHeight_eq htall, ht, hu, hx.1 hn]
      · rw [replay, if_pos (hx.1 hn), takeOut, ← htake, ← hdrop, List.map_cons, List.tail_cons, ← List.map_append]
        exact List.map_congr_left hold
      · rw [← htop, hdrop']
        rfl
    · have hno : ¬ Found less l x := fun hm => hn (hx.2 hm)
      refine ⟨s, ?_, by rwa [replay, if_neg hno], rfl⟩
      simp [Comp.remove, hs, hd', hn, hno]

end Key

/-! When the elements that are there are what the search comes to. -/

section Order

variable {less : T → T → Bool}

/-- Equivalent elements are equal. -/
def Alone (less : T → T → Bool) (l : List T) : Prop := ∀ a ∈ l, ∀ b ∈ l, Equivalent less a b → a = b

theorem mem_of_found (h : Found less l x) : x ∈ l :=
  (List.dropWhile_sublist _).subset (List.mem_of_head? h)

theorem perm_place (l : List T) (x : T) : (place less l x).Perm (x :: l) := by
  have h : l.takeWhile (less · x) ++ l.dropWhile (less · x) = l := List.takeWhile_append_dropWhile
  exact List.perm_middle.trans (by rw [h])

theorem perm_takeOut (h : Found less l x) : l.Perm (x :: takeOut less l x) := by
  have hl : l.takeWhile (less · x) ++ l.dropWhile (less · x) = l := List.takeWhile_append_dropWhile
  rw [Found, List.head?_eq_some_iff] at h
  obtain ⟨rest, hrest⟩ := h
  rw [hrest] at hl
  rw [takeOut, hrest, List.tail_cons]
  exact (List.Perm.of_eq hl.symm).trans List.perm_middle

theorem found_place (l : List T) (hirrefl : ¬ less x x) : Found less (place less l x) x := by
  have htake : ∀ a ∈ l.takeWhile (less · x), less a x := fun a ha => List.mem_takeWhile_imp (p := (less · x)) ha
  have hstop : (x :: l.dropWhile (less · x)).dropWhile (less · x) = x :: l.dropWhile (less · x) :=
    List.dropWhile_cons_of_neg hirrefl
  rw [Found, place, List.dropWhile_append_of_pos htake, hstop]
  rfl

variable [IsStrictWeakOrder T fun a b => less a b]

theorem found_iff (hs : l.Pairwise fun a b => ¬ less b a) (ha : Alone less l) : Found less l x ↔ x ∈ l := by
  refine ⟨mem_of_found, fun hx => ?_⟩
  have hirrefl : ¬ less x x := irrefl_of (fun a b : T => less a b) x
  have hl : l.takeWhile (less · x) ++ l.dropWhile (less · x) = l := List.takeWhile_append_dropWhile
  have hhead := l.head?_dropWhile_not (less · x)
  rw [Found]
  rw [← hl] at hs
  have hdrop : x ∈ l.dropWhile (less · x) := by
    rw [← hl] at hx
    obtain hx' | hx' := List.mem_append.1 hx
    · exact absurd (List.mem_takeWhile_imp hx') hirrefl
    · exact hx'
  cases hd : l.dropWhile (less · x) with
  | nil =>
    rw [hd] at hdrop
    cases hdrop
  | cons y rest =>
    rw [hd] at hs hdrop hhead
    obtain rfl | hx' := List.mem_cons.1 hdrop
    · rfl
    · have hyx : ¬ less y x := by simpa using hhead
      have hxy := (List.pairwise_cons.1 (List.pairwise_append.1 hs).2.1).1 x hx'
      have hy : y ∈ l := by
        rw [← hl, hd]
        simp
      rw [List.head?_cons, ha x hx y hy ⟨hxy, hyx⟩]

/-- A value put before an equivalent one hides it. -/
theorem not_found_place (h : Equivalent less x y) (hne : x ≠ y) : ¬ Found less (place less l x) y := by
  have htake : ∀ a ∈ l.takeWhile (less · x), less a y := by
    intro a ha
    by_contra hay
    have hax : less a x := List.mem_takeWhile_imp (p := (less · x)) ha
    exact not_less_trans h.2 hay hax
  have hstop : (x :: l.dropWhile (less · x)).dropWhile (less · y) = x :: l.dropWhile (less · x) :=
    List.dropWhile_cons_of_neg h.1
  rw [Found, place, List.dropWhile_append_of_pos htake, hstop]
  simpa using hne

end Order

/-! Along a run. -/

section Runs

variable [Inhabited T] [DecidableEq T] {less : T → T → Bool} {c : Config} {h r : Nat} {force : Bool}
  {ops : List (Op T)} {op : Op T}

theorem run_concat : run less c s (ops ++ [op]) =
    (run less c s ops).bind fun s => (step less c s op).map Prod.snd :=
  foldlM_concat _ _ _ _

omit [Inhabited T] in
theorem stored_concat : stored (ops ++ [op]) = store (stored ops) op := by
  rw [stored, List.foldl_append, stored]
  rfl

theorem insert_eq_none (hh : 64 ≤ s.heightOf s.head) : insert less c s x force r = none := by
  have hheight : s.height = some (s.heightOf s.head) := nodeHeight_eq (i := 0) (by omega)
  have hlimit : getSizeLimit c (s.heightOf s.head) = none := dif_neg (by omega)
  simp [insert, SkipList.growIfFull, hheight, hlimit]

variable [LinearOrder Q] [Inhabited Q] {key : T → Q}

/-- The list shows what is stored, each equivalence class by one value. -/
structure Holds (less : T → T → Bool) (key : T → Q) (h : Nat) (s : SkipList T) (M : Multiset T) : Prop where
  listed : ∃ l : List T, Listed key s l ∧ (l : Multiset T) = M
  alone : ∀ a ∈ M, ∀ b ∈ M, Equivalent less a b → a = b
  low : s.heightOf s.head < 64 ↔ h < 64

variable {M : Multiset T} [IsStrictWeakOrder T fun a b => less a b] (hk : ∀ a b, key a < key b ↔ less a b)
  (hd : key default = default)

include hk hd

omit [DecidableEq T] [IsStrictWeakOrder T fun a b => less a b] in
theorem Listed.sorted (hl : Listed key s l) : l.Pairwise fun a b => ¬ less b a := by
  obtain ⟨ids, hl, rfl⟩ := hl
  refine List.pairwise_map.2 (hl.sorted.imp fun {a b} hab hless => ?_)
  rw [dataOf_map hd, dataOf_map hd] at hab
  exact not_lt.2 hab ((hk _ _).2 hless)

omit [DecidableEq T] in
theorem Holds.view (hs : Holds less key h s M) : ∃ l : List T, Listed key s l ∧ (l : Multiset T) = M ∧
    ∀ x, Found less l x ↔ x ∈ M := by
  obtain ⟨l, hl, rfl⟩ := hs.listed
  exact ⟨l, hl, rfl, fun x => found_iff (hl.sorted hk hd) hs.alone⟩

theorem Holds.right (hs : Holds less key h s M) (x : T) : find less s x = some (decide (x ∈ M)) ∧
    ∃ t, remove less s x = some (decide (x ∈ M), t) := by
  obtain ⟨l, hl, -, hfound⟩ := hs.view hk hd
  have hfind := hl.find hk hd x
  obtain ⟨t, ht, -⟩ := hl.remove hk hd x
  rw [decide_eq_decide.2 (hfound x)] at hfind ht
  exact ⟨hfind, t, ht⟩

theorem Holds.insert (hs : Holds less key h s M) (hlow : h < 64) (hx : ∀ y ∈ M, Equivalent less x y → x = y) :
    ∃ t, insert less c s x force r = some (decide (x ∈ M), t) ∧
      Holds less key h t (store M (.insert x force r)) := by
  obtain ⟨l, hl, hM, hfound⟩ := hs.view hk hd
  obtain ⟨t, ht, hl', hlow'⟩ := hl.insert hk hd (hs.low.2 hlow) c x force r
  rw [decide_eq_decide.2 (hfound x)] at ht
  refine ⟨t, ht, ⟨_, hl', ?_⟩, ?_, iff_of_true hlow' hlow⟩
  · simp only [replay, store, hfound]
    split
    · exact hM
    · rw [← hM, Multiset.cons_coe]
      exact Multiset.coe_eq_coe.2 (perm_place l x)
  · rw [store]
    split
    · exact hs.alone
    · simp only [Multiset.mem_cons]
      rintro a (rfl | ha) b (rfl | hb) hab
      · rfl
      · exact hx b hb hab
      · exact (hx a ha ⟨hab.2, hab.1⟩).symm
      · exact hs.alone a ha b hb hab

theorem Holds.remove (hs : Holds less key h s M) (x : T) : ∃ t, remove less s x = some (decide (x ∈ M), t) ∧
    Holds less key h t (store M (.remove x)) := by
  obtain ⟨l, hl, hM, hfound⟩ := hs.view hk hd
  obtain ⟨t, ht, hl', hheight⟩ := hl.remove hk hd x
  rw [decide_eq_decide.2 (hfound x)] at ht
  refine ⟨t, ht, ⟨_, hl', ?_⟩, fun a ha b hb => ?_, hheight ▸ hs.low⟩
  · rw [replay, store]
    split
    · rename_i hx
      rw [← hM, Multiset.coe_eq_coe.2 (perm_takeOut hx), ← Multiset.cons_coe, Multiset.erase_cons_head]
    · rename_i hx
      rw [Multiset.erase_of_notMem (mt (hfound x).2 hx), hM]
  · exact hs.alone a (Multiset.mem_of_mem_erase ha) b (Multiset.mem_of_mem_erase hb)

theorem Holds.step (hs : Holds less key h s M) (hop : ∀ x force r, op = .insert x force r →
    h < 64 ∧ ∀ y ∈ M, Equivalent less x y → x = y) :
    ∃ t, (step less c s op).map Prod.snd = some t ∧ Holds less key h t (store M op) := by
  cases op with
  | insert x force r =>
    obtain ⟨hlow, hx⟩ := hop x force r rfl
    obtain ⟨t, ht, hs'⟩ := hs.insert hk hd hlow hx
    exact ⟨t, congrArg (Option.map Prod.snd) ht, hs'⟩
  | remove x =>
    obtain ⟨t, ht, hs'⟩ := hs.remove hk hd x
    exact ⟨t, congrArg (Option.map Prod.snd) ht, hs'⟩
  | find x => exact ⟨s, by rw [Comp.step, (hs.right hk hd x).1]; rfl, hs⟩

/-- After an insertion that is not careful there is no list, or an element that is not found. -/
theorem Holds.not_right (hs : Holds less key h s M) (hbad : ¬ (h < 64 ∧ ∀ y ∈ M, Equivalent less x y → x = y))
    (ht : (Comp.step less c s (.insert x force r)).map Prod.snd = some t) :
    ∃ y ∈ store M (.insert x force r), find less t y = some false := by
  rw [Comp.step, Option.map_eq_some_iff] at ht
  obtain ⟨⟨b, u⟩, hinsert, rfl⟩ := ht
  by_cases hlow : h < 64
  · have hy : ∃ y ∈ M, Equivalent less x y ∧ x ≠ y := by
      by_contra hno
      refine hbad ⟨hlow, fun y hy hxy => ?_⟩
      by_contra hne
      exact hno ⟨y, hy, hxy, hne⟩
    obtain ⟨y, hy, hxy, hne⟩ := hy
    have hx : x ∉ M := fun hx => hne (hs.alone x hx y hy hxy)
    obtain ⟨l, hl, -, hfound⟩ := hs.view hk hd
    obtain ⟨t, ht, hl', -⟩ := hl.insert hk hd (hs.low.2 hlow) c x force r
    rw [hinsert] at ht
    cases ht
    have hx' : ¬ (Found less l x ∧ ¬ force) := fun hf => hx ((hfound x).1 hf.1)
    rw [replay, if_neg hx'] at hl'
    refine ⟨y, ?_, ?_⟩
    · rw [store, if_neg fun hf => hx hf.1]
      exact Multiset.mem_cons_of_mem hy
    · rw [hl'.find hk hd y, decide_eq_false (not_found_place hxy hne)]
  · rw [insert_eq_none (not_lt.1 (mt hs.low.1 hlow))] at hinsert
    cases hinsert

omit hk [DecidableEq T] [IsStrictWeakOrder T fun a b => less a b] in
theorem Listed.make (h0 : 0 < h) (h256 : h < 256) : Listed key (SkipList.make h) [] := by
  have hmap : (SkipList.make h : SkipList T).map key = SkipList.make h := by
    rw [SkipList.make, SkipList.make, ← create_map, hd]
    rfl
  exact ⟨[], hmap ▸ Layered.make h0 h256, rfl⟩

omit hk [DecidableEq T] [IsStrictWeakOrder T fun a b => less a b] in
theorem Holds.make (h0 : 0 < h) (h256 : h < 256) : Holds less key h (SkipList.make h) 0 := by
  refine ⟨⟨[], Listed.make hd h0 h256, rfl⟩, by simp, ?_⟩
  change (SkipList.make h : SkipList T).heightOf 0 < 64 ↔ _
  rw [heightOf_make h256]

theorem holds_of_careful (h0 : 0 < h) (h256 : h < 256) (hc : Careful less h ops) :
    ∃ s, Comp.run less c (SkipList.make h) ops = some s ∧ Holds less key h s (stored ops) := by
  induction ops using List.reverseRecOn with
  | nil => exact ⟨_, rfl, Holds.make hd h0 h256⟩
  | append_singleton ops op ih =>
    obtain ⟨s, hs, hholds⟩ := ih fun p x force r hp => hc p x force r (hp.trans (List.prefix_append _ _))
    have hop : ∀ x force r, op = .insert x force r → _ := fun x force r hop =>
      hc ops x force r (hop ▸ List.prefix_rfl)
    obtain ⟨t, ht, hholds'⟩ := hholds.step hk hd hop
    refine ⟨t, ?_, ?_⟩
    · rw [run_concat, hs, Option.bind_some, ht]
    · rwa [stored_concat]

theorem careful_of_right (h0 : 0 < h) (h256 : h < 256) (hr : ∀ p, p <+: ops → Right less c h p) :
    Careful less h ops := by
  induction ops using List.reverseRecOn with
  | nil =>
    intro p x force r hp
    simp at hp
  | append_singleton ops op ih =>
    have hcareful := ih fun p hp => hr p (hp.trans (List.prefix_append _ _))
    intro p x force r hp
    obtain hp | hp := List.prefix_concat_iff.1 hp
    · obtain ⟨rfl, hop⟩ := List.append_inj' hp rfl
      obtain rfl := List.singleton_inj.1 hop
      obtain ⟨s, hs, hholds⟩ := holds_of_careful hk hd h0 h256 hcareful (c := c)
      obtain ⟨t, ht, hright⟩ := hr _ List.prefix_rfl
      rw [run_concat, hs, Option.bind_some] at ht
      by_contra hbad
      obtain ⟨y, hy, hfind⟩ := hholds.not_right hk hd hbad ht
      rw [← stored_concat] at hy
      rw [(hright y).1, decide_eq_true hy] at hfind
      cases hfind
    · exact hcareful p x force r hp

end Runs

section Spec

variable [Inhabited T] [DecidableEq T] {h : Nat}

/-- Along a run the list finds and removes exactly what was inserted and not removed since if
and only if the run is careful. -/
theorem right_iff_careful (less : T → T → Bool) [IsStrictWeakOrder T fun a b => less a b] (c : Config) (h0 : 0 < h)
    (h256 : h < 256) (ops : List (Op T)) : (∀ p, p <+: ops → Right less c h p) ↔ Careful less h ops := by
  obtain ⟨Q, hQ, key, hk⟩ := @StrictWeak.exists_key T less _
  let hdefault : Inhabited Q := ⟨key default⟩
  refine ⟨careful_of_right hk rfl h0 h256, fun hc p hp => ?_⟩
  obtain ⟨s, hs, hholds⟩ := holds_of_careful hk rfl h0 h256 (c := c) fun q x force r hq =>
    hc q x force r (hq.trans hp)
  exact ⟨s, hs, hholds.right hk rfl⟩

/-- The order of the first components. -/
def lessFirst (a b : Nat × Nat) : Bool := decide (a.1 < b.1)

instance : IsStrictWeakOrder (Nat × Nat) fun a b => lessFirst a b where
  irrefl a := by simp [lessFirst]
  trans a b c := by
    simp only [lessFirst, decide_eq_true_eq]
    omega
  incomp_trans a b c := by
    simp only [lessFirst, decide_eq_true_eq]
    omega

theorem right_iff_careful_pairs : (0 < 8 ∧ 8 < 256) ∧
    ((∀ p, p <+: [.insert (1, 5) false 0, .insert (2, 5) true 1, .remove (1, 5), .insert (1, 6) false 2] →
      Right lessFirst ⟨fun i => i, 24⟩ 8 p) ↔ Careful lessFirst 8
      [.insert (1, 5) false 0, .insert (2, 5) true 1, .remove (1, 5), .insert (1, 6) false 2]) :=
  ⟨by decide, right_iff_careful lessFirst ⟨fun i => i, 24⟩ (by decide) (by decide)
    [.insert (1, 5) false 0, .insert (2, 5) true 1, .remove (1, 5), .insert (1, 6) false 2]⟩

/-- `(1, 6)` goes before `(1, 5)`, which is not found any more. -/
theorem not_right_of_equivalent : IsStrictWeakOrder (Nat × Nat) (fun a b => lessFirst a b) ∧ (0 < 8 ∧ 8 < 256) ∧
    ¬ Right lessFirst ⟨fun i => i, 24⟩ 8 [.insert (1, 5) false 0, .insert (1, 6) false 0] := by
  refine ⟨inferInstance, by decide, ?_⟩
  rintro ⟨s, hs, hright⟩
  have hfind : (run lessFirst ⟨fun i => i, 24⟩ (make 8)
      [.insert (1, 5) false 0, .insert (1, 6) false 0]).bind (find lessFirst · (1, 5)) = some false := by
    decide +kernel
  rw [hs, Option.bind_some, (hright (1, 5)).1] at hfind
  exact absurd hfind (by decide)

end Spec

end Comp

end Wizard.SkipList
