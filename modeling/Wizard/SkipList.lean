import Wizard.Segment
import Mathlib.Data.Multiset.Sort

/-! The skip list. Nodes are named by numbers that are never used again, and a
destroyed node is gone from the heap. An operation has no result when an assert
fails, when it touches a node that is gone, or when it leaves an array. -/

namespace Wizard

structure SkipListNode (T : Type) where
  height : Nat
  data : T
  skip : Nat → Option Nat

structure SkipList (T : Type) where
  node : Nat → Option (SkipListNode T)
  nodeCount : Nat
  head : Nat
  size : Nat

variable {T : Type}

namespace SkipList

/-- The table of size limits and `MAX_HEIGHT`. -/
structure Config where
  sizeLimit : Fin 64 → Nat
  maxHeight : Fin 64

def getSizeLimit (c : Config) (height : Nat) : Option Nat :=
  if h : height < 64 then some (c.sizeLimit ⟨height, h⟩) else none

/-- `r` is the first entry of the lookup table above the number drawn. -/
def getHeight (r maxHeight : Nat) : Nat :=
  if r < maxHeight then r + 1 else maxHeight

def skip (s : SkipList T) (n i : Nat) : Option (Option Nat) := do
  let nd ← s.node n
  if i < nd.height then some (nd.skip i) else none

def setSkip (s : SkipList T) (n i : Nat) (p : Option Nat) : Option (SkipList T) := do
  let nd ← s.node n
  if i < nd.height then
    some { s with node := Function.update s.node n (some { nd with skip := Function.update nd.skip i p }) }
  else none

def data (s : SkipList T) (n : Nat) : Option T :=
  (s.node n).map SkipListNode.data

def nodeHeight (s : SkipList T) (n : Nat) : Option Nat :=
  (s.node n).map SkipListNode.height

/-- `height` is cut to a `uint8_t`. The new node is `s.nodeCount`. -/
def create (s : SkipList T) (height : Nat) (x : T) : SkipList T :=
  { s with
    node := Function.update s.node s.nodeCount (some ⟨height % 256, x, fun _ => none⟩)
    nodeCount := s.nodeCount + 1 }

def destroy (s : SkipList T) (n : Nat) : Option (SkipList T) := do
  let _ ← s.node n
  return { s with node := Function.update s.node n none }

def make [Inhabited T] (initHeight : Nat) : SkipList T :=
  ({ node := fun _ => none, nodeCount := 0, head := 0, size := 0 } : SkipList T).create initHeight default

def height (s : SkipList T) : Option Nat := s.nodeHeight s.head

def copySkipPointer (s : SkipList T) (new old h : Nat) : Option (SkipList T) :=
  (List.range h).foldlM (fun s i => do s.setSkip new i (← s.skip old i)) s

def growHeight [Inhabited T] (s : SkipList T) (newHeight : Nat) : Option (SkipList T) := do
  let h ← s.height
  if newHeight ≤ h then return s
  let t ← (s.create newHeight default).copySkipPointer s.nodeCount s.head h
  { t with head := s.nodeCount }.destroy s.head

section Order

variable [LinearOrder T]

/-- The inner loop of `_search_equal_or_greater` on layer `i`. -/
def advance (s : SkipList T) (x : T) (i : Nat) : Nat → Nat → Option (Nat × Option Nat)
  | 0, _ => none
  | fuel + 1, cur => do
    match ← s.skip cur i with
    | none => some (cur, none)
    | some next => if (← s.data next) < x then s.advance x i fuel next else some (cur, some next)

/-- The outer loop from layer `n - 1` down, with `prevs` from layer 0 up. -/
def descend (s : SkipList T) (x : T) : Nat → Nat → Option Nat → Option (Option Nat × List Nat)
  | 0, _, next => some (next, [])
  | n + 1, cur, _ => do
    let (cur, next) ← s.advance x n (s.nodeCount + 1) cur
    let (next, prevs) ← s.descend x n cur next
    return (next, prevs ++ [cur])

def searchEqualOrGreater (s : SkipList T) (x : T) : Option (Option Nat × List Nat) := do
  s.descend x (← s.height) s.head none

/-- The same search without `prevs`. -/
def searchNode (s : SkipList T) (x : T) : Option (Option Nat) :=
  (s.searchEqualOrGreater x).map Prod.fst

def isExist (s : SkipList T) (x : T) : Option Nat → Option Bool
  | none => some false
  | some n => do return (← s.data n) = x

/-- The loop of `insert` over the layers below `l`. -/
def linkNode (s : SkipList T) (new : Nat) (prevs : List Nat) : Nat → Option (SkipList T)
  | 0 => some s
  | l + 1 => do
    let p ← prevs[l]?
    let s ← s.setSkip new l (← s.skip p l)
    let s ← s.setSkip p l (some new)
    s.linkNode new prevs l

/-- The loop of `remove`. -/
def unlinkNode (s : SkipList T) (n : Nat) (prevs : List Nat) : Nat → Option (SkipList T)
  | 0 => some s
  | l + 1 => do
    let p ← prevs[l]?
    let s ← s.setSkip p l (← s.skip n l)
    s.unlinkNode n prevs l

variable [Inhabited T]

/-- `insert` up to the choice of a height. -/
def growIfFull (c : Config) (s : SkipList T) : Option (SkipList T) := do
  let currentHeight ← s.height
  let sizeLimit ← getSizeLimit c currentHeight
  if currentHeight < c.maxHeight ∧ sizeLimit < s.size + 1 then s.growHeight (currentHeight + 1) else return s

def insert (c : Config) (s : SkipList T) (x : T) (force : Bool) (r : Nat) :
    Option (Bool × SkipList T) := do
  let s ← s.growIfFull c
  let nodeHeight := getHeight r (← s.height)
  let (next, prevs) ← s.searchEqualOrGreater x
  let isExist ← s.isExist x next
  if isExist ∧ force ∨ ¬ isExist then
    let s ← (s.create nodeHeight x).linkNode s.nodeCount prevs nodeHeight
    return (isExist, { s with size := s.size + 1 })
  else return (isExist, s)

omit [Inhabited T] in
def remove (s : SkipList T) (x : T) : Option (Bool × SkipList T) := do
  let (next, prevs) ← s.searchEqualOrGreater x
  match next with
  | none => return (false, s)
  | some n =>
    if (← s.data n) ≠ x then return (false, s)
    let t ← s.unlinkNode n prevs (← s.nodeHeight n)
    let t ← t.destroy n
    return (true, { t with size := t.size - 1 })

omit [Inhabited T] in
def find (s : SkipList T) (x : T) : Option Bool := do
  s.isExist x (← s.searchNode x)

end Order

section Links

def link (s : SkipList T) (i n : Nat) : Option Nat := (s.node n).bind (fun nd => nd.skip i)

/-- The height of a node, and 0 when it is gone. -/
def heightOf (s : SkipList T) (n : Nat) : Nat := (s.nodeHeight n).getD 0

def dataOf [Inhabited T] (s : SkipList T) (n : Nat) : T := (s.data n).getD default

def put (s : SkipList T) (n i : Nat) (p : Option Nat) : SkipList T :=
  { s with
    node := Function.update s.node n
      ((s.node n).map (fun nd => { nd with skip := Function.update nd.skip i p })) }

def drop (s : SkipList T) (n : Nat) : SkipList T :=
  { s with node := Function.update s.node n none }

variable {s : SkipList T} {n i : Nat} {p : Option Nat}

theorem live_of_height (h : i < s.heightOf n) : ∃ nd, s.node n = some nd ∧ i < nd.height := by
  cases hn : s.node n with
  | none => simp [heightOf, nodeHeight, hn] at h
  | some nd => exact ⟨nd, rfl, by simpa [heightOf, nodeHeight, hn] using h⟩

theorem skip_eq (h : i < s.heightOf n) : s.skip n i = some (s.link i n) := by
  obtain ⟨nd, hn, hi⟩ := live_of_height h
  simp [skip, link, hn, hi]

theorem setSkip_eq (h : i < s.heightOf n) : s.setSkip n i p = some (s.put n i p) := by
  obtain ⟨nd, hn, hi⟩ := live_of_height h
  simp [setSkip, put, hn, hi]

theorem data_eq [Inhabited T] (h : i < s.heightOf n) : s.data n = some (s.dataOf n) := by
  obtain ⟨nd, hn, hi⟩ := live_of_height h
  simp [data, dataOf, hn]

theorem nodeHeight_eq (h : i < s.heightOf n) : s.nodeHeight n = some (s.heightOf n) := by
  obtain ⟨nd, hn, hi⟩ := live_of_height h
  simp [nodeHeight, heightOf, hn]

theorem destroy_eq (h : i < s.heightOf n) : s.destroy n = some (s.drop n) := by
  obtain ⟨nd, hn, hi⟩ := live_of_height h
  simp [destroy, drop, hn]

@[simp] theorem heightOf_put : (s.put n i p).heightOf = s.heightOf := by
  funext m
  by_cases hm : m = n
  · subst hm
    simp [heightOf, nodeHeight, put, Function.comp_def]
  · simp [heightOf, nodeHeight, put, hm]

@[simp] theorem dataOf_put [Inhabited T] : (s.put n i p).dataOf = s.dataOf := by
  funext m
  by_cases hm : m = n
  · subst hm
    simp [dataOf, data, put, Function.comp_def]
  · simp [dataOf, data, put, hm]

theorem link_put (h : i < s.heightOf n) (j : Nat) :
    (s.put n i p).link j = if j = i then Function.update (s.link j) n p else s.link j := by
  obtain ⟨nd, hn, -⟩ := live_of_height h
  funext m
  by_cases hm : m = n
  · subst hm
    by_cases hj : j = i <;> simp [link, put, hn, hj]
  · by_cases hj : j = i <;> simp [link, put, hm, hj]

theorem heightOf_create (h : Nat) (x : T) :
    (s.create h x).heightOf = Function.update s.heightOf s.nodeCount (h % 256) := by
  funext m
  by_cases hm : m = s.nodeCount <;> simp [heightOf, nodeHeight, create, hm]

theorem dataOf_create [Inhabited T] (h : Nat) (x : T) :
    (s.create h x).dataOf = Function.update s.dataOf s.nodeCount x := by
  funext m
  by_cases hm : m = s.nodeCount <;> simp [dataOf, data, create, hm]

theorem link_create (h : Nat) (x : T) (j : Nat) :
    (s.create h x).link j = Function.update (s.link j) s.nodeCount none := by
  funext m
  by_cases hm : m = s.nodeCount <;> simp [link, create, hm]

theorem heightOf_drop : (s.drop n).heightOf = Function.update s.heightOf n 0 := by
  funext m
  by_cases hm : m = n <;> simp [heightOf, nodeHeight, drop, hm]

theorem dataOf_drop [Inhabited T] {m : Nat} (hm : m ≠ n) : (s.drop n).dataOf m = s.dataOf m := by
  simp [dataOf, data, drop, hm]

theorem link_drop (j : Nat) : (s.drop n).link j = Function.update (s.link j) n none := by
  funext m
  by_cases hm : m = n <;> simp [link, drop, hm]

end Links

end SkipList

end Wizard
