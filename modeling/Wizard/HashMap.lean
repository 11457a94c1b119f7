import Wizard.PowTwo
import Wizard.Segment

/-! The concurrent hash map. A segment is a heap of nodes and bucket lists; a
mutex section is the sequence of stores it makes, computed from the heap it
finds, since only the holder of the mutex writes the links. Objects are named
by numbers that are never used again. The node that `insert` makes before it
takes the mutex is private until it is linked, so making it is the first store
of the section. -/

namespace Wizard.HashMap

/-- `HashFn`, `ShardBits` and the thresholds that the load factor gives.
`1 << ShardBits` is an `int`. -/
structure Config (Key : Type) where
  hash : Key → BitVec 64
  shardBits : Fin 31
  threshold : BitVec 64 → Nat

structure Node (Key Value : Type) where
  key : Key
  value : Value
  next : Option Nat
  refcount : BitVec 16
deriving Inhabited

/-- The loops over the buckets count with an `int`, and so does `get_head`. -/
structure BucketList where
  bucketCount : BitVec 64
  head : Nat → Option Nat
  small : bucketCount.toNat < 2 ^ 31

/-- The constructor; at `2 ^ 31` buckets its counter overflows. -/
def BucketList.make (bucketCount : BitVec 64) : Option BucketList :=
  if h : bucketCount.toNat < 2 ^ 31 then some ⟨bucketCount, fun _ => none, h⟩ else none

/-- What is handed to `retire`. -/
inductive Obj where
  | node (n : Nat)
  | list (l : Nat)
deriving DecidableEq

/-- The atomic pointers to nodes. -/
inductive Loc where
  | head (l b : Nat)
  | next (n : Nat)
deriving DecidableEq

structure SegmentT (Key Value : Type) where
  node : Nat → Node Key Value
  nodeCount : Nat
  list : Nat → BucketList
  listCount : Nat
  bucketList : Nat
  size : Nat
  threshold : Nat
  retired : List Obj

inductive Store (Key Value : Type) where
  | newNode (k : Key) (v : Value)
  | newList (bl : BucketList)
  | write (loc : Loc) (p : Option Nat)
  | acquire (n : Nat)
  | publish (l : Nat)
  | retire (l : Nat)
  | setSize (n : Nat)
  | setThreshold (n : Nat)

variable {Key Value : Type}

namespace SegmentT

def next (s : SegmentT Key Value) (n : Nat) : Option Nat := (s.node n).next

def key (s : SegmentT Key Value) (n : Nat) : Key := (s.node n).key

def value (s : SegmentT Key Value) (n : Nat) : Value := (s.node n).value

def bucketCount (s : SegmentT Key Value) : BitVec 64 := (s.list s.bucketList).bucketCount

def read (s : SegmentT Key Value) : Loc → Option Nat
  | .head l b => (s.list l).head b
  | .next n => s.next n

def write (s : SegmentT Key Value) : Loc → Option Nat → SegmentT Key Value
  | .head l b, p => { s with
      list := Function.update s.list l
        { s.list l with head := Function.update (s.list l).head b p } }
  | .next n, p => { s with node := Function.update s.node n { s.node n with next := p } }

def apply (s : SegmentT Key Value) : Store Key Value → SegmentT Key Value
  | .newNode k v => { s with
      node := Function.update s.node s.nodeCount ⟨k, v, none, 1⟩, nodeCount := s.nodeCount + 1 }
  | .newList bl => { s with
      list := Function.update s.list s.listCount bl, listCount := s.listCount + 1 }
  | .write loc p => s.write loc p
  | .acquire n => { s with
      node := Function.update s.node n { s.node n with refcount := (s.node n).refcount + 1 } }
  | .publish l => { s with bucketList := l }
  | .retire l => { s with retired := .list l :: s.retired }
  | .setSize n => { s with size := n }
  | .setThreshold n => { s with threshold := n }

def applyAll (s : SegmentT Key Value) (st : List (Store Key Value)) : SegmentT Key Value :=
  st.foldl apply s

/-- `NodeT::release`. -/
def release (s : SegmentT Key Value) (n : Nat) : SegmentT Key Value :=
  { s with
    node := Function.update s.node n { s.node n with refcount := (s.node n).refcount - 1 }
    retired := if (s.node n).refcount = 1 then .node n :: s.retired else s.retired }

/-- `(hash >> ShardBits) & (bucket_count - 1)`. -/
def bucketId (c : Config Key) (count : BitVec 64) (k : Key) : Nat :=
  ((c.hash k >>> c.shardBits.val) &&& (count - 1)).toNat

/-- The head of the bucket where `k` belongs in the bucket list `l`. -/
def headOf (c : Config Key) (s : SegmentT Key Value) (l : Nat) (k : Key) : Loc :=
  .head l (bucketId c (s.list l).bucketCount k)

section Loops

variable [DecidableEq Key]

/-- The loop of `insert_internal` and `erase`, which returns the link to the
node with the key. -/
def search (s : SegmentT Key Value) (k : Key) : Loc → Nat → Option (Loc × Nat)
  | _, 0 => none
  | prev, fuel + 1 =>
    match s.read prev with
    | none => none
    | some n => if s.key n = k then some (prev, n) else search s k (.next n) fuel

/-- The loop of `find`. -/
def findNode (s : SegmentT Key Value) (k : Key) : Option Nat → Nat → Option Nat
  | none, _ => none
  | some _, 0 => none
  | some n, fuel + 1 => if s.key n = k then some n else findNode s k (s.next n) fuel

def find (c : Config Key) (s : SegmentT Key Value) (k : Key) : Option Value :=
  (findNode s k (s.read (headOf c s s.bucketList k)) s.nodeCount).map s.value

/-- The stores of one turn of the inner loop of `rehash`. -/
def copyOne (c : Config Key) (s : SegmentT Key Value) (l p : Nat) : List (Store Key Value) :=
  [.newNode (s.key p) (s.value p),
    .write (.next s.nodeCount) (s.read (headOf c s l (s.key p))),
    .write (headOf c s l (s.key p)) (some s.nodeCount)]

def copyStores (c : Config Key) (l : Nat) (s : SegmentT Key Value) :
    List Nat → List (Store Key Value)
  | [] => []
  | p :: ps => copyOne c s l p ++ copyStores c l (s.applyAll (copyOne c s l p)) ps

/-- The nodes that the two loops of `rehash` visit, in their order. -/
def sources (s : SegmentT Key Value) : List Nat :=
  (List.range s.bucketCount.toNat).flatMap fun b =>
    walk s.next (s.read (.head s.bucketList b)) s.nodeCount

def rehashStores (c : Config Key) (s : SegmentT Key Value) (newBucketCnt : BitVec 64) :
    Option (List (Store Key Value)) :=
  (BucketList.make newBucketCnt).map fun bl =>
    let start := [.setThreshold (c.threshold newBucketCnt), .newList bl]
    start ++ copyStores c s.listCount (s.applyAll start) s.sources ++
      [.publish s.listCount, .retire s.bucketList]

def acquireStores : Option Nat → List (Store Key Value)
  | none => []
  | some n => [.acquire n]

/-- `insert_internal` after the rehash, with the node that is left to release. -/
def linkStores (c : Config Key) (s : SegmentT Key Value) (k : Key) (newNode : Nat) :
    List (Store Key Value) × Option Nat :=
  let head := headOf c s s.bucketList k
  match s.search k head s.nodeCount with
  | some (prev, n) =>
    (acquireStores (s.next n) ++ [.write (.next newNode) (s.next n), .write prev (some newNode)],
      some n)
  | none =>
    ([.setSize (s.size + 1), .write (.next newNode) (s.read head), .write head (some newNode)], none)

/-- The stores of `rehash(bucket_count << 1)` when `size_` is at the threshold. -/
def growStores (c : Config Key) (s : SegmentT Key Value) : Option (List (Store Key Value)) :=
  if s.threshold ≤ s.size then rehashStores c s (s.bucketCount <<< 1) else some []

def insertSection (c : Config Key) (s : SegmentT Key Value) (k : Key) (v : Value) :
    Option (List (Store Key Value) × Option Nat) :=
  let s₁ := s.apply (.newNode k v)
  (growStores c s₁).map fun grow =>
    let link := linkStores c (s₁.applyAll grow) k s.nodeCount
    (.newNode k v :: grow ++ link.1, link.2)

def eraseSection (c : Config Key) (s : SegmentT Key Value) (k : Key) :
    List (Store Key Value) × Option Nat :=
  match s.search k (headOf c s s.bucketList k) s.nodeCount with
  | none => ([], none)
  | some (prev, n) =>
    (.setSize (s.size - 1) :: acquireStores (s.next n) ++ [.write prev (s.next n)], some n)

/-- `clear` up to the unlock; the old bucket list is retired after it. -/
def clearStores (s : SegmentT Key Value) : List (Store Key Value) :=
  [.newList { s.list s.bucketList with head := fun _ => none }, .publish s.listCount, .setSize 0]

/-- A section, then the `release` that follows the unlock. -/
def perform (s : SegmentT Key Value) (sec : List (Store Key Value) × Option Nat) :
    SegmentT Key Value :=
  match sec.2 with
  | none => s.applyAll sec.1
  | some n => (s.applyAll sec.1).release n

def insert (c : Config Key) (s : SegmentT Key Value) (k : Key) (v : Value) :
    Option (SegmentT Key Value) :=
  (insertSection c s k v).map s.perform

def erase (c : Config Key) (s : SegmentT Key Value) (k : Key) : SegmentT Key Value :=
  s.perform (eraseSection c s k)

def clear (s : SegmentT Key Value) : SegmentT Key Value :=
  (s.applyAll s.clearStores).apply (.retire s.bucketList)

end Loops

/-- The constructor of a segment. -/
def make [Inhabited Key] [Inhabited Value] (c : Config Key) (bucketsCount : BitVec 64) :
    Option (SegmentT Key Value) :=
  (BucketList.make (nextPowTwo bucketsCount)).map fun bl =>
    { node := fun _ => default, nodeCount := 0, list := fun _ => bl, listCount := 1,
      bucketList := 0, size := 0, threshold := c.threshold (nextPowTwo bucketsCount),
      retired := [] }

end SegmentT

structure Map (Key Value : Type) where
  segments : Nat → Option (SegmentT Key Value)
  initCapacity : BitVec 64

namespace Map

def make (initCapacity : BitVec 64) : Map Key Value := ⟨fun _ => none, nextPowTwo initCapacity⟩

def numShards (c : Config Key) : Nat := 2 ^ c.shardBits.val

def pickSegment (c : Config Key) (k : Key) : Nat :=
  (c.hash k &&& (BitVec.ofNat 64 (numShards c) - 1)).toNat

def ensureSegment [Inhabited Key] [Inhabited Value] (c : Config Key) (m : Map Key Value) (i : Nat) :
    Option (SegmentT Key Value) :=
  match m.segments i with
  | some s => some s
  | none => SegmentT.make c (m.initCapacity >>> c.shardBits.val)

def setSegment (m : Map Key Value) (i : Nat) (s : SegmentT Key Value) : Map Key Value :=
  { m with segments := Function.update m.segments i (some s) }

variable [DecidableEq Key]

section Insert

variable [Inhabited Key] [Inhabited Value]

def insert (c : Config Key) (m : Map Key Value) (k : Key) (v : Value) : Option (Map Key Value) := do
  let s ← m.ensureSegment c (pickSegment c k)
  let s ← s.insert c k v
  return m.setSegment (pickSegment c k) s

/-- On a segment, `emplace` is the same `insert_internal`. -/
def emplace (c : Config Key) (m : Map Key Value) (k : Key) (v : Value) : Option (Map Key Value) :=
  m.insert c k v

end Insert

def find (c : Config Key) (m : Map Key Value) (k : Key) : Option Value :=
  match m.segments (pickSegment c k) with
  | none => none
  | some s => s.find c k

def erase (c : Config Key) (m : Map Key Value) (k : Key) : Map Key Value :=
  match m.segments (pickSegment c k) with
  | none => m
  | some s => m.setSegment (pickSegment c k) (s.erase c k)

omit [DecidableEq Key] in
def clear (c : Config Key) (m : Map Key Value) : Map Key Value :=
  { m with segments := fun i =>
      if i < numShards c then (m.segments i).map SegmentT.clear else m.segments i }

omit [DecidableEq Key] in
def size (c : Config Key) (m : Map Key Value) : Nat :=
  ((List.range (numShards c)).map fun i => ((m.segments i).map SegmentT.size).getD 0).sum

end Map

end Wizard.HashMap
