import Mathlib.Tactic
import Wizard.Runs

/-! The object pool. Free nodes sit on two Treiber lists whose links carry the
node's number in the low half and a tag in the high half; the tag of a node is
advanced each time the node is pushed. Nodes are named by their position in
`_nodes`. -/

namespace Wizard.Pool

abbrev TaggedIndex := BitVec 64

def nullIndex : TaggedIndex := 0xFFFFFFFFFFFFFFFF#64

def getIndex (taggedIndex : TaggedIndex) : BitVec 64 := taggedIndex &&& 0x00000000FFFFFFFF#64

def makeTaggedIndex (index tag : BitVec 64) : TaggedIndex := index ||| (tag <<< 32)

structure Node where
  next : TaggedIndex
  index : BitVec 64
  tag : BitVec 64
  isCollective : Bool
deriving Repr, DecidableEq

abbrev Nodes := Nat → Node

def Nodes.setNext (nodes : Nodes) (i : Nat) (next : TaggedIndex) : Nodes :=
  Function.update nodes i { nodes i with next := next }

def Nodes.advanceTag (nodes : Nodes) (i : Nat) : Nodes :=
  Function.update nodes i { nodes i with tag := (nodes i).tag + 1 }

structure LinkedList where
  head : Option Nat
  tail : Option Nat
deriving Repr, DecidableEq

/-- `LinkedList::push_back`; the link is made with the tag before it advances. -/
def pushBack (nodes : Nodes) (list : LinkedList) (node : Nat) : Nodes × LinkedList :=
  match list.tail with
  | some tail =>
    ((nodes.advanceTag node).setNext tail (makeTaggedIndex (nodes node).index (nodes node).tag),
      { list with tail := some node })
  | none => (nodes, ⟨some node, some node⟩)

structure Builder where
  nodes : Nodes
  market : LinkedList
  collective : LinkedList

/-- One turn of the loop of `init`. -/
def Builder.add (collectiveNum : Nat) (b : Builder) (i : Nat) : Builder :=
  if i < collectiveNum then
    let nodes := Function.update b.nodes i
      { b.nodes i with index := BitVec.ofNat 64 i, isCollective := true }
    { b with nodes := (pushBack nodes b.collective i).1, collective := (pushBack nodes b.collective i).2 }
  else
    let nodes := Function.update b.nodes i
      { b.nodes i with index := BitVec.ofNat 64 i, isCollective := false }
    { b with nodes := (pushBack nodes b.market i).1, market := (pushBack nodes b.market i).2 }

def freshNode : Node := ⟨nullIndex, 0, 0, false⟩

def Builder.start : Builder := ⟨fun _ => freshNode, ⟨none, none⟩, ⟨none, none⟩⟩

def build (num collectiveNum : Nat) : Builder :=
  (List.range num).foldl (Builder.add collectiveNum) .start

/-- `push_into` before any other thread can see the pool. An empty list is a null
dereference. -/
def pushInto (nodes : Nodes) (head : TaggedIndex) (list : LinkedList) : Option (Nodes × TaggedIndex) :=
  match list.head, list.tail with
  | some first, some last =>
    some ((nodes.advanceTag first).setNext last head,
      makeTaggedIndex (nodes first).index (nodes first).tag)
  | _, _ => none

inductive Which
  | market
  | collective
deriving Repr, DecidableEq

/-- The nodes and the two heads after the constructor. -/
def construct (num collectiveNum : Nat) : Option (Nodes × (Which → TaggedIndex)) :=
  let b := build num collectiveNum
  (pushInto b.nodes nullIndex b.market).bind fun market =>
    (pushInto market.1 nullIndex b.collective).map fun collective =>
      (collective.1, fun
        | .market => market.2
        | .collective => collective.2)

/-- What a `PooledObject` owns: nothing, a node of the pool, or an object that
`get` created because the pool was empty. -/
inductive Owned
  | nothing
  | node (i : Nat)
  | created
deriving Repr, DecidableEq

/-- Where a thread stands in `get` or `release` of the given `PooledObject`. Pops
remember how often the node they loaded had been pushed by then. -/
inductive Pc (Handle : Type*)
  | idle
  | popLoad (w : Which) (h : Handle)
  | popRead (w : Which) (h : Handle) (oldHead : TaggedIndex) (since : Nat)
  | popCas (w : Which) (h : Handle) (oldHead newHead : TaggedIndex) (since : Nat)
  | pushLoad (w : Which) (h : Handle) (node : Nat)
  | pushWrite (w : Which) (h : Handle) (node : Nat) (oldHead newHead : TaggedIndex)
  | pushCas (w : Which) (h : Handle) (node : Nat) (oldHead newHead : TaggedIndex)

/-- `pushes` counts the calls of `advance_tag` on each node. -/
structure State (Tid Cache Handle : Type*) where
  nodes : Nodes
  head : Which → TaggedIndex
  cache : Cache → List Nat
  handle : Handle → Owned
  pc : Tid → Pc Handle
  pushes : Nat → Nat

variable {Tid Cache Handle : Type*}

/-- The cache of a thread: the thread-local instance, or the one that
`_caches.ensure(tid)` returns. -/
structure Caches (Tid Cache : Type*) where
  useAcc : Bool
  threadLocal : Tid → Cache
  ensure : Tid → Cache
  tcSize : Nat

def Caches.of (cs : Caches Tid Cache) (t : Tid) : Cache :=
  if cs.useAcc then cs.ensure t else cs.threadLocal t

/-- `min(TC_SIZE, MAX_NODE)`; a cache line of 64 bytes has room for the size and
seven pointers. -/
def Caches.capacity (cs : Caches Tid Cache) : Nat := min cs.tcSize ((64 - 8) / 8)

def init (num collectiveNum : Nat) (s : State Tid Cache Handle) : Prop :=
  construct num collectiveNum = some (s.nodes, s.head) ∧ (∀ c, s.cache c = []) ∧
    (∀ h, s.handle h = .nothing) ∧ (∀ t, s.pc t = .idle) ∧ ∀ i, s.pushes i = if i < num then 1 else 0

def Pc.handle? : Pc Handle → Option Handle
  | .idle => none
  | .popLoad _ h | .popRead _ h _ _ | .popCas _ h _ _ _ | .pushLoad _ h _ | .pushWrite _ h _ _ _
  | .pushCas _ h _ _ _ => some h

def Pc.node? : Pc Handle → Option Nat
  | .pushLoad _ _ i | .pushWrite _ _ i _ _ | .pushCas _ _ i _ _ => some i
  | _ => none

/-- No call is working on the `PooledObject`. -/
def State.Free (s : State Tid Cache Handle) (h : Handle) : Prop :=
  ∀ t, (s.pc t).handle? ≠ some h

variable [DecidableEq Tid] [DecidableEq Cache] [DecidableEq Handle]

def State.setPc (s : State Tid Cache Handle) (t : Tid) (pc : Pc Handle) : State Tid Cache Handle :=
  { s with pc := Function.update s.pc t pc }

def State.setHandle (s : State Tid Cache Handle) (h : Handle) (o : Owned) : State Tid Cache Handle :=
  { s with handle := Function.update s.handle h o }

/-- What follows a load of the head in `pop_one_node`. From an empty market
`try_pop` goes on to the collective list, and from there `get` creates an object. -/
def State.popLoaded (s : State Tid Cache Handle) (t : Tid) (w : Which) (h : Handle) :
    State Tid Cache Handle :=
  if s.head w = nullIndex then
    match w with
    | .market => s.setPc t (.popLoad .collective h)
    | .collective => (s.setHandle h .created).setPc t .idle
  else s.setPc t (.popRead w h (s.head w) (s.pushes (getIndex (s.head w)).toNat))

/-- `PooledObject::release` up to its first atomic access. -/
def State.beginRelease (cs : Caches Tid Cache) (s : State Tid Cache Handle) (t : Tid) (h : Handle) :
    State Tid Cache Handle :=
  match s.handle h with
  | .nothing => s
  | .created => s.setHandle h .nothing
  | .node i =>
    if (s.nodes i).isCollective then s.setPc t (.pushLoad .collective h i)
    else if (s.cache (cs.of t)).length < cs.capacity then
      { s with cache := Function.update s.cache (cs.of t) (i :: s.cache (cs.of t)) }.setHandle h .nothing
    else s.setPc t (.pushLoad .market h i)

def State.swap (s : State Tid Cache Handle) (h o : Handle) : State Tid Cache Handle :=
  (s.setHandle h (s.handle o)).setHandle o (s.handle h)

/-- The steps of thread `t`: one atomic access, or one access to the `next` field
of a node, with the thread-local code around it. -/
inductive Step (cs : Caches Tid Cache) (t : Tid) : State Tid Cache Handle → State Tid Cache Handle → Prop
  | getCached (s h i rest) (ht : s.pc t = .idle) (hh : s.handle h = .nothing) (hf : s.Free h)
      (hc : s.cache (cs.of t) = i :: rest) :
      Step cs t s ({ s with cache := Function.update s.cache (cs.of t) rest }.setHandle h (.node i))
  | getPop (s h) (ht : s.pc t = .idle) (hh : s.handle h = .nothing) (hf : s.Free h)
      (hc : s.cache (cs.of t) = []) : Step cs t s (s.setPc t (.popLoad .market h))
  | popLoad (s w h) (ht : s.pc t = .popLoad w h) : Step cs t s (s.popLoaded t w h)
  | popRead (s w h oldHead since) (ht : s.pc t = .popRead w h oldHead since) :
      Step cs t s (s.setPc t
        (.popCas w h oldHead (s.nodes (getIndex oldHead).toNat).next since))
  | popCasOk (s w h oldHead newHead since) (ht : s.pc t = .popCas w h oldHead newHead since)
      (he : s.head w = oldHead) :
      Step cs t s (({ s with head := Function.update s.head w newHead }.setHandle h
        (.node (getIndex oldHead).toNat)).setPc t .idle)
  | popCasFail (s w h oldHead newHead since) (ht : s.pc t = .popCas w h oldHead newHead since) :
      Step cs t s (s.popLoaded t w h)
  | release (s h) (ht : s.pc t = .idle) (hf : s.Free h) : Step cs t s (s.beginRelease cs t h)
  | pushLoad (s w h i) (ht : s.pc t = .pushLoad w h i) :
      Step cs t s ({ s with
        nodes := s.nodes.advanceTag i
        pushes := Function.update s.pushes i (s.pushes i + 1) }.setPc t
          (.pushWrite w h i (s.head w) (makeTaggedIndex (s.nodes i).index (s.nodes i).tag)))
  | pushWrite (s w h i oldHead newHead) (ht : s.pc t = .pushWrite w h i oldHead newHead) :
      Step cs t s ({ s with nodes := s.nodes.setNext i oldHead }.setPc t
        (.pushCas w h i oldHead newHead))
  | pushCasOk (s w h i oldHead newHead) (ht : s.pc t = .pushCas w h i oldHead newHead)
      (he : s.head w = oldHead) :
      Step cs t s (({ s with head := Function.update s.head w newHead }.setHandle h .nothing).setPc t
        .idle)
  | pushCasFail (s w h i oldHead newHead) (ht : s.pc t = .pushCas w h i oldHead newHead) :
      Step cs t s (s.setPc t (.pushWrite w h i (s.head w) newHead))
  | moveConstruct (s h o) (ht : s.pc t = .idle) (hh : s.handle h = .nothing) (hf : s.Free h)
      (ho : s.Free o) : Step cs t s (s.swap h o)
  | swap (s h o) (ht : s.pc t = .idle) (hf : s.Free h) (ho : s.Free o) : Step cs t s (s.swap h o)
  | moveAssign (s h o) (ht : s.pc t = .idle) (hf : s.Free h) (ho : s.Free o) :
      Step cs t s ((s.swap h o).beginRelease cs t o)

end Wizard.Pool
