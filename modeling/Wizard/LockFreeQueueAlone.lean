import Mathlib.Data.Finset.Card
import Mathlib.Data.Finset.Insert
import Mathlib.Data.Finset.Lattice.Fold
import Mathlib.Order.Lattice.Nat
import Wizard.CountedNode
import Wizard.Runs
import Wizard.Segment

/-! The queue of `lock_free_queue.h` with one thread. A pop that finds the queue empty
keeps the reference to the first node that it has counted. -/

namespace Wizard.LockFreeQueue.Alone

/-- A `do .. while` loop around a compare-exchange, with the new and the old value of the
atomic. -/
def casLoop {α : Type} [DecidableEq α] (f : α → Option α) : Nat → α → α → Option (α × α)
  | 0, _, _ => none
  | fuel + 1, cell, old => do
    let new ← f old
    if cell = old then some (new, old) else casLoop f fuel cell cell

theorem casLoop_self {α : Type} [DecidableEq α] (f : α → Option α) (fuel : Nat) (x : α) :
    casLoop f (fuel + 1) x x = (f x).map fun y => (y, x) := by
  rw [casLoop]
  cases f x <;> simp

/-- `++new_counter.external_count`, which is an `int`. -/
def increase? (c : CountedNodePtr) : Option CountedNodePtr :=
  if c.externalCount.toInt + 1 < 2 ^ 31 then some c.increase else none

/-- `new` returns memory that is not in use. -/
structure Allocator where
  address : Finset Nat → Nat
  fresh : ∀ l, address l ∉ l

structure Queue (T : Type) where
  node : Nat → CountedNode T
  live : Finset Nat
  head : CountedNodePtr
  tail : CountedNodePtr

variable {T : Type}

namespace Queue

/-- `LockFreeQueue()`, with its node at the address `dummy`. -/
def make (dummy : Nat) : Queue T := ⟨fun _ => .make, {dummy}, .first dummy, .first dummy⟩

/-- An access to a node, which must not be deleted. -/
def read (q : Queue T) (p : Nat) : Option (CountedNode T) := if p ∈ q.live then some (q.node p) else none

def setNode (q : Queue T) (p : Nat) (x : CountedNode T) : Queue T :=
  { q with node := Function.update q.node p x }

def newNode (q : Queue T) (malloc : Allocator) : Nat × Queue T :=
  let p := malloc.address q.live
  (p, { q.setNode p .make with live := insert p q.live })

def delete (q : Queue T) (p : Nat) : Option (Queue T) :=
  if p ∈ q.live then some { q with live := q.live.erase p } else none

/-- The loop of `release_ref` and of `free_external_counter`. -/
def updateCount (fuel : Nat) (q : Queue T) (p : Nat) (f : NodeCounter → NodeCounter) : Option (Queue T) := do
  let x ← q.read p
  let (newCounter, _) ← casLoop (some ∘ f) fuel x.count x.count
  let q := q.setNode p { x with count := newCounter }
  if newCounter.isZero then q.delete p else some q

def releaseRef (fuel : Nat) (q : Queue T) (p : Nat) : Option (Queue T) := q.updateCount fuel p NodeCounter.release

def freeExternalCounter (fuel : Nat) (q : Queue T) (old : CountedNodePtr) : Option (Queue T) := do
  q.updateCount fuel (← old.ptr) (·.free old)

/-- The loop of `pop`. -/
def popLoop : Nat → Queue T → CountedNodePtr → Option (Option T × Queue T)
  | 0, _, _ => none
  | fuel + 1, q, oldHead => do
    let (newHead, oldHead) ← (casLoop increase? (fuel + 1) q.head oldHead).map fun r => (r.1, r.2.increase)
    let q := { q with head := newHead }
    if oldHead.ptr = q.tail.ptr then return (none, q)
    let p ← oldHead.ptr
    let x ← q.read p
    if q.head = oldHead then
      let q := ({ q with head := x.next }).setNode p { x with data := none }
      let q ← q.freeExternalCounter (fuel + 1) oldHead
      return (x.data, q)
    else
      let oldHead := q.head
      let q ← q.releaseRef (fuel + 1) p
      popLoop fuel q oldHead

def pop (fuel : Nat) (q : Queue T) : Option (Option T × Queue T) := q.popLoop fuel q.head

/-- The loop of `set_new_tail`. -/
def swingTail (current : Option Nat) (newTail : CountedNodePtr) :
    Nat → Queue T → CountedNodePtr → Option (Queue T × CountedNodePtr)
  | 0, _, _ => none
  | fuel + 1, q, oldTail =>
    if q.tail = oldTail then some ({ q with tail := newTail }, oldTail)
    else if q.tail.ptr = current then some (q, q.tail)
    else swingTail current newTail fuel q q.tail

def setNewTail (fuel : Nat) (q : Queue T) (oldTail newTail : CountedNodePtr) :
    Option (Queue T × CountedNodePtr) := do
  let current := oldTail.ptr
  let (q, oldTail) ← q.swingTail current newTail fuel oldTail
  let q ← if oldTail.ptr = current then q.freeExternalCounter fuel oldTail else q.releaseRef fuel (← current)
  return (q, oldTail)

/-- The loop of `push`. -/
def pushLoop (malloc : Allocator) (newData : T) : Nat → Queue T → CountedNodePtr → CountedNodePtr → Option (Queue T)
  | 0, _, _, _ => none
  | fuel + 1, q, newNext, oldTail => do
    let (newTail, oldTail) ← (casLoop increase? (fuel + 1) q.tail oldTail).map fun r => (r.1, r.2.increase)
    let q := { q with tail := newTail }
    let dummyNode ← oldTail.ptr
    let x ← q.read dummyNode
    if x.data.isNone then
      let q := q.setNode dummyNode { x with data := some newData }
      if x.next = ⟨0, none⟩ then
        let q := q.setNode dummyNode { x with data := some newData, next := newNext }
        let (q, _) ← q.setNewTail (fuel + 1) oldTail newNext
        return q
      else
        let q ← q.delete (← newNext.ptr)
        let (q, _) ← q.setNewTail (fuel + 1) oldTail x.next
        return q
    else if x.next = ⟨0, none⟩ then
      let (p, q) := (q.setNode dummyNode { x with next := newNext }).newNode malloc
      let (q, oldTail) ← q.setNewTail (fuel + 1) oldTail newNext
      pushLoop malloc newData fuel q { newNext with ptr := some p } oldTail
    else
      let (q, oldTail) ← q.setNewTail (fuel + 1) oldTail x.next
      pushLoop malloc newData fuel q newNext oldTail

def push (malloc : Allocator) (fuel : Nat) (q : Queue T) (newValue : T) : Option (Queue T) :=
  let (p, q) := q.newNode malloc
  q.pushLoop malloc newValue fuel (.first p) q.tail

end Queue

/-- Every push can find its memory elsewhere. -/
inductive Request (T : Type)
  | push (v : T) (malloc : Allocator)
  | pop

/-- The queue, and the values that are in it. -/
structure State (T : Type) where
  queue : Queue T
  values : List T

/-- What a `pop` is to get. -/
def Request.answer (values : List T) : Request T → Option T
  | push _ _ => none
  | pop => values.head?

def Request.replay (values : List T) : Request T → List T
  | push v _ => values ++ [v]
  | pop => values.tail

def Queue.call (fuel : Nat) (q : Queue T) : Request T → Option (Option T × Queue T)
  | .push v malloc => (q.push malloc fuel v).map fun q => (none, q)
  | .pop => q.pop fuel

/-- A pop that takes a value gives back all references to the node, whose count wraps at
`2 ^ 30`; a pop of an empty queue can be counted. -/
def Request.Careful (q : Queue T) : Request T → Prop
  | push _ _ => True
  | pop =>
    if q.head.ptr = q.tail.ptr then q.head.externalCount.toInt + 1 < 2 ^ 31
    else q.head.externalCount.toNat % 2 ^ 30 = 1

def Init (s : State T) : Prop := ∃ dummy, s = ⟨.make dummy, []⟩

def Step (s s' : State T) : Prop :=
  ∃ r fuel v queue, s.queue.call fuel r = some (v, queue) ∧ s' = ⟨queue, r.replay s.values⟩

def CarefulStep (s s' : State T) : Prop :=
  ∃ r fuel v queue, r.Careful s.queue ∧ s.queue.call fuel r = some (v, queue) ∧ s' = ⟨queue, r.replay s.values⟩

/-- The nodes that are not deleted are those from head to tail. -/
def Balanced (s : State T) : Prop :=
  ∃ l t, s.queue.tail.ptr = some t ∧ Segment (fun p => (s.queue.node p).next.ptr) s.queue.head.ptr l (some t) ∧
    (l ++ [t]).Nodup ∧ s.queue.live = (l ++ [t]).toFinset ∧ l.length = s.values.length

/-- The calls do what they should if they are careful. -/
structure Served (s : State T) : Prop where
  balanced : Balanced s
  calls : ∀ r : Request T, (∃ fuel queue, s.queue.call fuel r = some (r.answer s.values, queue) ∧
    Balanced ⟨queue, r.replay s.values⟩) ↔ r.Careful s.queue

/-- The nodes of `l` hold their values, and the last node `t` is empty. -/
structure Holds (q : Queue T) (l : List (Nat × T)) (t : Nat) : Prop where
  segment : Segment (fun p => (q.node p).next.ptr) q.head.ptr (l.map Prod.fst) (some t)
  nodes : ∀ x ∈ l, (q.node x.1).data = some x.2 ∧ (q.node x.1).count = ⟨0, 1⟩ ∧ (q.node x.1).next.externalCount = 1
  tail : q.tail = .first t
  last : q.node t = .make
  nodup : (l.map Prod.fst ++ [t]).Nodup
  live : q.live = (l.map Prod.fst ++ [t]).toFinset

variable {q q' : Queue T} {l : List (Nat × T)} {t p n k : Nat} {x : CountedNode T} {v : T}
  {f : NodeCounter → NodeCounter}

theorem updateCount_eq (hp : p ∈ q.live) (hx : q.node p = x) : q.updateCount (k + 1) p f =
    some { q.setNode p { x with count := f x.count } with
      live := if (f x.count).isZero then q.live.erase p else q.live } := by
  subst hx
  simp only [Queue.updateCount, Queue.read, if_pos hp, Option.bind_eq_bind, Option.bind_some, casLoop_self,
    Function.comp_apply, Option.map_some]
  split
  · exact if_pos hp
  · rfl

namespace Holds

theorem make (dummy : Nat) : Holds (Queue.make dummy : Queue T) [] dummy := by
  refine ⟨rfl, ?_, rfl, rfl, List.nodup_singleton _, rfl⟩
  intro y hy
  cases hy

theorem mem_live (h : Holds q l t) : p ∈ q.live ↔ p ∈ l.map Prod.fst ∨ p = t := by
  rw [h.live, List.mem_toFinset, List.mem_append, List.mem_singleton]

theorem balanced (h : Holds q l t) : Balanced ⟨q, l.map Prod.snd⟩ :=
  ⟨l.map Prod.fst, t, by rw [h.tail]; rfl, h.segment, h.nodup, h.live, by simp⟩

theorem setNewTail (h : q.node t = ⟨some v, ⟨0, 2⟩, .first n⟩) (ht : t ∈ q.live) (htail : q.tail = ⟨2, some t⟩) :
    q.setNewTail (k + 1) ⟨2, some t⟩ (.first n) =
      some ({ q.setNode t ⟨some v, ⟨0, 1⟩, .first n⟩ with tail := .first n }, ⟨2, some t⟩) := by
  have hfree := updateCount_eq (q := { q with tail := .first n }) (f := (·.free ⟨2, some t⟩)) (k := k) ht h
  have hcount : NodeCounter.free ⟨0, 2⟩ ⟨2, some t⟩ = ⟨0, 1⟩ := by
    simp [NodeCounter.free, NodeCounter.countIncrease]
  simp only [Queue.setNewTail, Queue.swingTail, if_pos htail, Option.bind_eq_bind, Option.bind_some, if_true,
    Queue.freeExternalCounter, hfree, hcount]
  rfl

theorem pushLoop (hlast : q.node t = .make) (ht : t ∈ q.live) (htail : q.tail = .first t) (malloc : Allocator) :
    q.pushLoop malloc v (k + 1) (.first n) q.tail =
      some ⟨Function.update q.node t ⟨some v, ⟨0, 1⟩, .first n⟩, q.live, q.head, .first n⟩ := by
  have hinc : increase? (.first t) = some ⟨2, some t⟩ := if_pos (by decide : (1 : BitVec 32).toInt + 1 < 2 ^ 31)
  have hold : (CountedNodePtr.first t).increase = ⟨2, some t⟩ := rfl
  simp only [Queue.pushLoop, htail, casLoop_self, hinc, Option.map_some, Option.bind_eq_bind, Option.bind_some, hold,
    Queue.read, if_pos ht, hlast]
  have hset := setNewTail (q := ({ q with tail := ⟨2, some t⟩ }.setNode t ⟨some v, ⟨0, 2⟩, ⟨0, none⟩⟩).setNode t
    ⟨some v, ⟨0, 2⟩, .first n⟩) (n := n) (v := v) (k := k) (Function.update_self _ _ _) ht rfl
  rw [if_pos (show CountedNode.make.data.isNone by rfl), if_pos (show CountedNode.make.next = ⟨0, none⟩ by rfl)]
  refine (congrArg (Option.bind · _) hset).trans ?_
  simp [Queue.setNode, Function.update_idem]

theorem push (h : Holds q l t) (malloc : Allocator) (v : T) : ∃ q', (∀ fuel, q.push malloc (fuel + 1) v = some q') ∧
    Holds q' (l ++ [(t, v)]) (malloc.address q.live) ∧ q'.head = q.head := by
  obtain ⟨n, hn⟩ : ∃ n, n = malloc.address q.live := ⟨_, rfl⟩
  have hfresh : n ∉ q.live := hn ▸ malloc.fresh q.live
  rw [← hn]
  have ht : t ∈ q.live := h.mem_live.2 (.inr rfl)
  have htn : t ≠ n := ne_of_mem_of_not_mem ht hfresh
  have hnt : t ∉ l.map Prod.fst := by
    have hnd := h.nodup
    rw [List.nodup_append] at hnd
    exact fun ht' => hnd.2.2 t ht' t (by simp) rfl
  have hlast : Function.update q.node n .make t = .make := by rw [Function.update_of_ne htn, h.last]
  let node := Function.update (Function.update q.node n .make) t ⟨some v, ⟨0, 1⟩, .first n⟩
  refine ⟨⟨node, insert n q.live, q.head, .first n⟩, fun fuel => ?_, ?_, rfl⟩
  · have hloop := pushLoop (q := { q.setNode n .make with live := insert n q.live }) (v := v) (n := n) (k := fuel)
      hlast (Finset.mem_insert_of_mem ht) h.tail malloc
    simp only [Queue.push, Queue.newNode, ← hn]
    exact hloop
  · have hother : ∀ a ∈ l.map Prod.fst, node a = q.node a := by
      intro a ha
      have hat : a ≠ t := ne_of_mem_of_not_mem ha hnt
      have han : a ≠ n := ne_of_mem_of_not_mem (h.mem_live.2 (.inl ha)) hfresh
      simp only [node, Function.update_of_ne hat, Function.update_of_ne han]
    have hself : node t = ⟨some v, ⟨0, 1⟩, .first n⟩ := Function.update_self _ _ _
    refine ⟨?_, ?_, rfl, ?_, ?_, ?_⟩
    · rw [List.map_append]
      refine (h.segment.congr fun a ha => congrArg (fun x => x.next.ptr) (hother a ha)).append ⟨rfl, ?_⟩
      change (node t).next.ptr = some n
      rw [hself]
      rfl
    · intro y hy
      change (node y.1).data = _ ∧ (node y.1).count = _ ∧ (node y.1).next.externalCount = 1
      rw [List.mem_append, List.mem_singleton] at hy
      obtain hy | rfl := hy
      · rw [hother y.1 (List.mem_map_of_mem hy)]
        exact h.nodes y hy
      · rw [hself]
        exact ⟨rfl, rfl, rfl⟩
    · change node n = .make
      simp only [node, Function.update_of_ne htn.symm, Function.update_self]
    · rw [List.map_append, List.map_singleton]
      refine List.nodup_append.2 ⟨h.nodup, List.nodup_singleton n, fun a ha b hb => ?_⟩
      rw [List.mem_singleton] at hb
      rw [hb]
      refine ne_of_mem_of_not_mem ?_ hfresh
      rw [h.live]
      exact List.mem_toFinset.2 ha
    · change insert n q.live = _
      rw [h.live]
      ext a
      simp [or_left_comm]

theorem pop_nil (h : Holds q [] t) (fuel : Nat) :
    q.pop (fuel + 1) = (increase? q.head).map fun c => (none, { q with head := c }) := by
  have hptr : q.head.ptr = q.tail.ptr := by
    rw [h.tail]
    exact h.segment
  rw [Queue.pop, Queue.popLoop, casLoop_self]
  cases increase? q.head with
  | none => rfl
  | some c =>
    simp only [Option.map_some, Option.bind_eq_bind, Option.bind_some]
    exact if_pos hptr

/-- The references that are counted to a node are all given back if nobody has counted one
but the two ends that it had, and the pop itself. -/
theorem free_isZero (c : CountedNodePtr) :
    (NodeCounter.free ⟨0, 1⟩ c.increase).isZero ↔ c.externalCount.toNat % 2 ^ 30 = 1 := by
  have hinternal :
      (0 + (c.externalCount + 1 - 2).setWidth 30 : BitVec 30) = 0 ↔ c.externalCount.toNat % 2 ^ 30 = 1 := by
    have h₀ : (0 : BitVec 30).toNat = 0 := rfl
    have h₁ : (1 : BitVec 32).toNat = 1 := rfl
    have h₂ : (2 : BitVec 32).toNat = 2 := rfl
    have hlt := c.externalCount.isLt
    rw [← BitVec.toNat_inj]
    simp only [BitVec.toNat_setWidth, BitVec.toNat_sub, BitVec.toNat_add, h₀, h₁, h₂]
    omega
  rw [← hinternal]
  simp [NodeCounter.isZero, NodeCounter.free, NodeCounter.countIncrease, CountedNodePtr.increase]

theorem head_eq (h : Holds q [] t) : q.head.ptr = q.tail.ptr := by
  rw [h.tail]
  exact h.segment

theorem head_ne {y : Nat × T} (h : Holds q (y :: l) t) : q.head.ptr ≠ q.tail.ptr := by
  have hptr : q.head.ptr = some y.1 := h.segment.1
  rw [hptr, h.tail]
  intro he
  cases he
  simpa using h.nodup

theorem pop_cons {a : Nat} (h : Holds q ((a, v) :: l) t) (hinc : q.head.externalCount.toInt + 1 < 2 ^ 31) :
    ∃ node, (∀ fuel, q.pop (fuel + 1) = some (some v, ⟨node,
        if q.head.externalCount.toNat % 2 ^ 30 = 1 then q.live.erase a else q.live, (q.node a).next, q.tail⟩)) ∧
      ∀ b, b ≠ a → node b = q.node b := by
  obtain ⟨hdata, hcount, -⟩ := h.nodes (a, v) List.mem_cons_self
  have hlive : a ∈ q.live := h.mem_live.2 (.inl (by simp))
  have hptr : q.head.ptr = some a := h.segment.1
  have hne := h.head_ne
  have hadd : increase? q.head = some q.head.increase := if_pos hinc
  have hcounted : q.head.increase.ptr = some a := hptr
  refine ⟨Function.update q.node a ⟨none, NodeCounter.free ⟨0, 1⟩ q.head.increase, (q.node a).next⟩, fun fuel => ?_,
    fun b hb => Function.update_of_ne hb _ _⟩
  have hfree := updateCount_eq (q := ({ q with head := (q.node a).next } : Queue T).setNode a
    ⟨none, ⟨0, 1⟩, (q.node a).next⟩) (f := (·.free q.head.increase)) (k := fuel) hlive (Function.update_self _ _ _)
  simp only [free_isZero] at hfree
  rw [hptr] at hne
  simp only [Queue.pop, Queue.popLoop, casLoop_self, hadd, Option.map_some, Option.bind_eq_bind, Option.bind_some,
    hcounted, if_neg hne, Queue.read, if_pos hlive, if_true, Queue.freeExternalCounter,
    hcount, hdata, hfree]
  simp [Queue.setNode, Function.update_idem]

theorem dropHead {a : Nat} {node : Nat → CountedNode T} (h : Holds q ((a, v) :: l) t)
    (hnode : ∀ b, b ≠ a → node b = q.node b) : Holds ⟨node, q.live.erase a, (q.node a).next, q.tail⟩ l t := by
  have hnd := h.nodup
  rw [List.map_cons, List.cons_append, List.nodup_cons] at hnd
  have hother : ∀ b ∈ l.map Prod.fst ++ [t], node b = q.node b := fun b hb => hnode b (ne_of_mem_of_not_mem hb hnd.1)
  refine ⟨?_, fun y hy => ?_, h.tail, ?_, hnd.2, ?_⟩
  · exact h.segment.2.congr fun b hb => congrArg (fun x => x.next.ptr) (hother b (List.mem_append_left _ hb))
  · change (node y.1).data = _ ∧ (node y.1).count = _ ∧ (node y.1).next.externalCount = 1
    rw [hother y.1 (List.mem_append_left _ (List.mem_map_of_mem hy))]
    exact h.nodes y (List.mem_cons_of_mem _ hy)
  · change node t = .make
    rw [hother t (by simp), h.last]
  · change q.live.erase a = _
    rw [h.live, List.map_cons, List.cons_append, List.toFinset_cons,
      Finset.erase_insert (fun ha => hnd.1 (List.mem_toFinset.1 ha))]

theorem setHead (h : Holds q l t) {c : CountedNodePtr} (hc : c.ptr = q.head.ptr) : Holds { q with head := c } l t :=
  ⟨by rw [hc]; exact h.segment, h.nodes, h.tail, h.last, h.nodup, h.live⟩

end Holds

theorem Balanced.card {s : State T} (h : Balanced s) : s.queue.live.card = s.values.length + 1 := by
  obtain ⟨l, t, -, -, hnd, hlive, hlen⟩ := h
  rw [hlive, List.toFinset_card_of_nodup hnd, List.length_append, hlen, List.length_singleton]

def Inv (s : State T) : Prop := ∃ l t, Holds s.queue l t ∧ s.values = l.map Prod.snd

variable {s s' : State T} {r : Request T}

theorem Inv.balanced (h : Inv s) : Balanced s := by
  obtain ⟨l, t, hh, hv⟩ := h
  obtain ⟨queue, values⟩ := s
  obtain rfl : values = l.map Prod.snd := hv
  exact hh.balanced

theorem increase?_of_mod {c : CountedNodePtr} (h : c.externalCount.toNat % 2 ^ 30 = 1) :
    c.externalCount.toInt + 1 < 2 ^ 31 := by
  rw [BitVec.toInt_eq_toNat_cond]
  split <;> omega

/-- A careful call returns, and the result does not depend on how often its loops may turn. -/
theorem Inv.call (h : Inv s) (hc : r.Careful s.queue) : ∃ queue, Inv ⟨queue, r.replay s.values⟩ ∧
    ∀ fuel, s.queue.call (fuel + 1) r = some (r.answer s.values, queue) := by
  obtain ⟨l, t, hh, hv⟩ := h
  cases r with
  | push v malloc =>
    obtain ⟨q', hq', hh', -⟩ := hh.push malloc v
    refine ⟨q', ⟨_, _, hh', ?_⟩, fun fuel => ?_⟩
    · simp [Request.replay, hv]
    · rw [Queue.call, hq']
      rfl
  | pop =>
    cases l with
    | nil =>
      rw [Request.Careful, if_pos hh.head_eq] at hc
      have hinc : increase? s.queue.head = some s.queue.head.increase := if_pos hc
      refine ⟨{ s.queue with head := s.queue.head.increase }, ⟨_, t, hh.setHead rfl, ?_⟩, fun fuel => ?_⟩
      · simp [Request.replay, hv]
      · rw [Queue.call, hh.pop_nil, hinc, hv]
        rfl
    | cons y l =>
      obtain ⟨a, v⟩ := y
      rw [Request.Careful, if_neg hh.head_ne] at hc
      obtain ⟨node, hpop, hnode⟩ := hh.pop_cons (increase?_of_mod hc)
      rw [if_pos hc] at hpop
      refine ⟨_, ⟨l, t, hh.dropHead hnode, ?_⟩, fun fuel => ?_⟩
      · simp [Request.replay, hv]
      · rw [Queue.call, hpop, hv]
        rfl

/-- Any other call leaves a node behind or overflows. -/
theorem Inv.careful (h : Inv s) {fuel : Nat} {queue : Queue T}
    (hcall : s.queue.call fuel r = some (r.answer s.values, queue)) (hb : Balanced ⟨queue, r.replay s.values⟩) :
    r.Careful s.queue := by
  obtain ⟨l, t, hh, hv⟩ := h
  cases r with
  | push v malloc => trivial
  | pop =>
    obtain ⟨fuel, rfl⟩ : ∃ n, fuel = n + 1 := by
      cases fuel with
      | zero => cases hcall
      | succ n => exact ⟨n, rfl⟩
    have hinc : s.queue.head.externalCount.toInt + 1 < 2 ^ 31 := by
      by_contra hno
      have hnone : increase? s.queue.head = none := if_neg hno
      rw [Queue.call, Queue.pop, Queue.popLoop, casLoop_self, hnone] at hcall
      cases hcall
    cases l with
    | nil =>
      rw [Request.Careful, if_pos hh.head_eq]
      exact hinc
    | cons y l =>
      obtain ⟨a, v⟩ := y
      rw [Request.Careful, if_neg hh.head_ne]
      by_contra hno
      obtain ⟨node, hpop, -⟩ := hh.pop_cons hinc
      rw [Queue.call, hpop, if_neg hno] at hcall
      obtain ⟨-, rfl⟩ := Prod.mk.inj (Option.some.inj hcall)
      have hcard := hh.balanced.card
      have hcard' := hb.card
      simp only [Request.replay, hv, List.map_cons, List.tail_cons, List.length_cons] at hcard hcard'
      omega

theorem inv_of_reachable (h : Reachable Init CarefulStep s) : Inv s := by
  apply h.invariant
  · rintro s ⟨dummy, rfl⟩
    exact ⟨[], dummy, .make dummy, rfl⟩
  · rintro s s' - hi ⟨r, fuel, v, queue, hc, hcall, rfl⟩
    obtain ⟨queue', hi', hcall'⟩ := hi.call hc
    cases fuel with
    | zero => cases r <;> cases hcall
    | succ fuel =>
      rw [hcall'] at hcall
      cases hcall
      exact hi'

/-- A run of pushes and pops by one thread. -/
theorem served_of_careful (h : Reachable Init CarefulStep s) : Served s := by
  have hi := inv_of_reachable h
  refine ⟨hi.balanced, fun r => ⟨?_, fun hc => ?_⟩⟩
  · rintro ⟨fuel, queue, hcall, hb⟩
    exact hi.careful hcall hb
  · obtain ⟨queue, hi', hcall⟩ := hi.call hc
    exact ⟨1, queue, hcall 0, hi'.balanced⟩

def Allocator.next : Allocator where
  address l := l.sup id + 1
  fresh _ h := absurd (Finset.le_sup (f := id) h) (Nat.not_succ_le_self _)

/-- Two values are pushed, and one is popped. -/
theorem served_of_careful_two : ∃ s : State Nat, Reachable Init CarefulStep s ∧ s.values = [6] ∧ Served s := by
  obtain ⟨q₁, hc₁, hh₁, he₁⟩ := (Holds.make (T := Nat) 0).push .next 5
  obtain ⟨q₂, hc₂, hh₂, he₂⟩ := hh₁.push .next 6
  have hhead : q₂.head = .first 0 := he₂.trans he₁
  obtain ⟨node, hpop, -⟩ := hh₂.pop_cons (by rw [hhead]; decide)
  have hc : Request.pop.Careful q₂ := by
    rw [Request.Careful, if_neg hh₂.head_ne, hhead]
    rfl
  have h₀ : Reachable Init CarefulStep (⟨.make 0, []⟩ : State Nat) := .of_init ⟨0, rfl⟩
  have h₁ := h₀.tail ⟨.push 5 .next, 1, none, q₁, trivial, by rw [Queue.call, hc₁]; rfl, rfl⟩
  have h₂ := h₁.tail ⟨.push 6 .next, 1, none, q₂, trivial, by rw [Queue.call, hc₂]; rfl, rfl⟩
  have h₃ := h₂.tail ⟨.pop, 1, some 5, _, hc, hpop 0, rfl⟩
  exact ⟨_, h₃, rfl, served_of_careful h₃⟩

/-- The queue is empty at the first pop, and the first node is not deleted by the second one. -/
theorem empty_pop_leaks : ∃ s : State Nat, Reachable Init Step s ∧ ¬ Balanced s := by
  have hinc : increase? (.first 0) = some ⟨2, some 0⟩ := if_pos (by decide : (1 : BitVec 32).toInt + 1 < 2 ^ 31)
  have hh₁ := (Holds.make (T := Nat) 0).setHead (c := ⟨2, some 0⟩) rfl
  obtain ⟨q₂, hc₂, hh₂, hhead⟩ := hh₁.push .next 5
  obtain ⟨node, hpop, -⟩ := hh₂.pop_cons (by rw [hhead]; decide)
  have hne : ¬ q₂.head.externalCount.toNat % 2 ^ 30 = 1 := by
    rw [hhead]
    decide
  rw [if_neg hne] at hpop
  have h₀ : Reachable Init Step (⟨.make 0, []⟩ : State Nat) := .of_init ⟨0, rfl⟩
  have h₁ := h₀.tail ⟨.pop, 1, none, { Queue.make 0 with head := ⟨2, some 0⟩ }, by
    rw [Queue.call, (Holds.make (T := Nat) 0).pop_nil]
    exact congrArg (Option.map _) hinc, rfl⟩
  have h₂ := h₁.tail ⟨.push 5 .next, 1, none, q₂, by rw [Queue.call, hc₂]; rfl, rfl⟩
  have h₃ := h₂.tail ⟨.pop, 1, some 5, _, hpop 0, rfl⟩
  refine ⟨_, h₃, fun hb => ?_⟩
  have hcard := hh₂.balanced.card
  have hcard' := hb.card
  simp only [List.map_singleton, List.nil_append, List.length_singleton] at hcard
  simp only [Request.replay, List.tail_cons, List.nil_append, List.length_nil, List.tail_nil] at hcard'
  omega

end Wizard.LockFreeQueue.Alone
