import Wizard.PoolThreads

/-! Several pools of one type. A node pointer leads into the array of the pool that made
it, but a list holds numbers only, and without the accessor all pools share one cache
for each thread. -/

namespace Wizard.Pool

/-- What a `PooledObject` owns; `node pool owner i` is `_pool` and the node `i` of `owner`. -/
inductive Held (P : Type*)
  | nothing
  | node (pool owner : P) (i : Nat)
  | created
deriving Repr, DecidableEq

/-- A call of `pool`; a node that it pushes belongs to `owner`. -/
structure Call (P Handle : Type*) where
  pool : P
  owner : P
  pc : Pc Handle

/-- The two functions that have a `static thread_local ThreadCacheAccessor`. -/
inductive Site
  | push
  | pop
deriving Repr, DecidableEq

/-- Ids come from a counter, and `ensure` gives each pool caches of its own. -/
structure PoolCaches (P Tid Cache : Type*) where
  useAcc : Bool
  threadLocal : Tid → Cache
  ensure : P → Tid → Cache
  id : P → Nat
  tcSize : Nat
  id_inj : ∀ p q, id p = id q → p = q
  ensure_apart : ∀ p q t u, ensure p t = ensure q u → p = q

structure Shared (P Tid Cache Handle : Type*) where
  nodes : P → Nodes
  head : P → Which → TaggedIndex
  cache : Cache → List (P × Nat)
  handle : Handle → Held P
  call : Tid → Call P Handle
  pushes : P → Nat → Nat
  acc : Site → Tid → Option (Nat × Cache)

variable {P Tid Cache Handle : Type*}

structure Shared.Init (num collectiveNum : P → Nat) (s : Shared P Tid Cache Handle) : Prop where
  construct : ∀ p, construct (num p) (collectiveNum p) = some (s.nodes p, s.head p)
  cache : ∀ c, s.cache c = []
  handle : ∀ h, s.handle h = .nothing
  call : ∀ t, (s.call t).pc = .idle
  pushes : ∀ p i, s.pushes p i = if i < num p then 1 else 0
  acc : ∀ site t, s.acc site t = none

def Shared.Free (s : Shared P Tid Cache Handle) (h : Handle) : Prop :=
  ∀ t, (s.call t).pc.handle? ≠ some h

/-- `ThreadCacheAccessor::get`, the constructor included: the id it keeps and the cache. -/
def PoolCaches.accessor (cs : PoolCaches P Tid Cache) (t : Tid) (p : P) : Option (Nat × Cache) → Nat × Cache
  | none => (cs.id p, cs.ensure p t)
  | some (k, c) => if k = cs.id p then (k, c) else (cs.id p, cs.ensure p t)

/-- The cache that a call of `p` uses. -/
def Shared.reach (cs : PoolCaches P Tid Cache) (s : Shared P Tid Cache Handle) (site : Site) (t : Tid)
    (p : P) : Cache :=
  if cs.useAcc then (cs.accessor t p (s.acc site t)).2 else cs.threadLocal t

section Steps

variable [DecidableEq P] [DecidableEq Tid] [DecidableEq Cache] [DecidableEq Handle]

/-- The accessor remembers the pool of its latest call. -/
def Shared.access (cs : PoolCaches P Tid Cache) (s : Shared P Tid Cache Handle) (site : Site) (t : Tid) (p : P) :
    Shared P Tid Cache Handle :=
  if cs.useAcc then
    { s with
      acc := Function.update s.acc site
        (Function.update (s.acc site) t (some (cs.accessor t p (s.acc site t)))) }
  else s

def Shared.setCall (s : Shared P Tid Cache Handle) (t : Tid) (c : Call P Handle) : Shared P Tid Cache Handle :=
  { s with call := Function.update s.call t c }

def Shared.setHandle (s : Shared P Tid Cache Handle) (h : Handle) (o : Held P) : Shared P Tid Cache Handle :=
  { s with handle := Function.update s.handle h o }

def Shared.setCache (s : Shared P Tid Cache Handle) (c : Cache) (l : List (P × Nat)) : Shared P Tid Cache Handle :=
  { s with cache := Function.update s.cache c l }

def Shared.setHead (s : Shared P Tid Cache Handle) (p : P) (w : Which) (x : TaggedIndex) : Shared P Tid Cache Handle :=
  { s with head := Function.update s.head p (Function.update (s.head p) w x) }

def Shared.setNodes (s : Shared P Tid Cache Handle) (p : P) (nodes : Nodes) (pushes : Nat → Nat) :
    Shared P Tid Cache Handle :=
  { s with nodes := Function.update s.nodes p nodes, pushes := Function.update s.pushes p pushes }

def Shared.popLoaded (s : Shared P Tid Cache Handle) (t : Tid) (p : P) (w : Which) (h : Handle) :
    Shared P Tid Cache Handle :=
  if s.head p w = nullIndex then
    match w with
    | .market => s.setCall t ⟨p, p, .popLoad .collective h⟩
    | .collective => (s.setHandle h .created).setCall t ⟨p, p, .idle⟩
  else s.setCall t ⟨p, p, .popRead w h (s.head p w) (s.pushes p (getIndex (s.head p w)).toNat)⟩

/-- `_pool->release(_node)`, the node being one of `q`. -/
def Shared.beginRelease (cs : PoolCaches P Tid Cache) (s : Shared P Tid Cache Handle) (t : Tid) (h : Handle) :
    Shared P Tid Cache Handle :=
  match s.handle h with
  | .nothing => s
  | .created => s.setHandle h .nothing
  | .node p q i =>
    if (s.nodes q i).isCollective then s.setCall t ⟨p, q, .pushLoad .collective h i⟩
    else
      let c := s.reach cs .push t p
      let s := s.access cs .push t p
      if (s.cache c).length < min cs.tcSize ((64 - 8) / 8) then
        (s.setCache c ((q, i) :: s.cache c)).setHandle h .nothing
      else s.setCall t ⟨p, q, .pushLoad .market h i⟩

def Shared.swap (s : Shared P Tid Cache Handle) (h o : Handle) : Shared P Tid Cache Handle :=
  (s.setHandle h (s.handle o)).setHandle o (s.handle h)

/-- The steps of thread `t`. With `own` set, a node that `get` takes from a cache is one
of the pool itself. -/
inductive Shared.Step (cs : PoolCaches P Tid Cache) (own : Prop) (t : Tid) :
    Shared P Tid Cache Handle → Shared P Tid Cache Handle → Prop
  | getCached (s p h q i rest) (ht : (s.call t).pc = .idle) (hh : s.handle h = .nothing) (hf : s.Free h)
      (hc : s.cache (s.reach cs .pop t p) = (q, i) :: rest) (ho : own → q = p) :
      Step cs own t s (((s.access cs .pop t p).setCache (s.reach cs .pop t p) rest).setHandle h (.node p q i))
  | getPop (s p h) (ht : (s.call t).pc = .idle) (hh : s.handle h = .nothing) (hf : s.Free h)
      (hc : s.cache (s.reach cs .pop t p) = []) :
      Step cs own t s ((s.access cs .pop t p).setCall t ⟨p, p, .popLoad .market h⟩)
  | popLoad (s p q w h) (ht : s.call t = ⟨p, q, .popLoad w h⟩) : Step cs own t s (s.popLoaded t p w h)
  | popRead (s p q w h oldHead since) (ht : s.call t = ⟨p, q, .popRead w h oldHead since⟩) :
      Step cs own t s (s.setCall t
        ⟨p, q, .popCas w h oldHead (s.nodes p (getIndex oldHead).toNat).next since⟩)
  | popCasOk (s p q w h oldHead newHead since) (ht : s.call t = ⟨p, q, .popCas w h oldHead newHead since⟩)
      (he : s.head p w = oldHead) :
      Step cs own t s (((s.setHead p w newHead).setHandle h (.node p p (getIndex oldHead).toNat)).setCall t
        ⟨p, q, .idle⟩)
  | popCasFail (s p q w h oldHead newHead since) (ht : s.call t = ⟨p, q, .popCas w h oldHead newHead since⟩) :
      Step cs own t s (s.popLoaded t p w h)
  | release (s h) (ht : (s.call t).pc = .idle) (hf : s.Free h) : Step cs own t s (s.beginRelease cs t h)
  | pushLoad (s p q w h i) (ht : s.call t = ⟨p, q, .pushLoad w h i⟩) :
      Step cs own t s ((s.setNodes q ((s.nodes q).advanceTag i)
        (Function.update (s.pushes q) i (s.pushes q i + 1))).setCall t
          ⟨p, q, .pushWrite w h i (s.head p w) (makeTaggedIndex (s.nodes q i).index (s.nodes q i).tag)⟩)
  | pushWrite (s p q w h i oldHead newHead) (ht : s.call t = ⟨p, q, .pushWrite w h i oldHead newHead⟩) :
      Step cs own t s ((s.setNodes q ((s.nodes q).setNext i oldHead) (s.pushes q)).setCall t
        ⟨p, q, .pushCas w h i oldHead newHead⟩)
  | pushCasOk (s p q w h i oldHead newHead) (ht : s.call t = ⟨p, q, .pushCas w h i oldHead newHead⟩)
      (he : s.head p w = oldHead) :
      Step cs own t s (((s.setHead p w newHead).setHandle h .nothing).setCall t ⟨p, q, .idle⟩)
  | pushCasFail (s p q w h i oldHead newHead) (ht : s.call t = ⟨p, q, .pushCas w h i oldHead newHead⟩) :
      Step cs own t s (s.setCall t ⟨p, q, .pushWrite w h i (s.head p w) newHead⟩)
  | moveConstruct (s h o) (ht : (s.call t).pc = .idle) (hh : s.handle h = .nothing) (hf : s.Free h)
      (ho : s.Free o) : Step cs own t s (s.swap h o)
  | swap (s h o) (ht : (s.call t).pc = .idle) (hf : s.Free h) (ho : s.Free o) : Step cs own t s (s.swap h o)
  | moveAssign (s h o) (ht : (s.call t).pc = .idle) (hf : s.Free h) (ho : s.Free o) :
      Step cs own t s ((s.swap h o).beginRelease cs t o)

end Steps

/-- No node is pushed `2 ^ 32` times between the load of a pop and its compare-and-swap. -/
def Shared.Timely (t : Tid) (s : Shared P Tid Cache Handle) : Prop :=
  ∀ w h old new since, (s.call t).pc = .popCas w h old new since →
    s.pushes (s.call t).pool (getIndex old).toNat < since + 2 ^ 32

/-- The place of a node of `p` as the pointers show it. -/
def Shared.Located (s : Shared P Tid Cache Handle) (p : P) (i : Nat) : Place Tid Cache Handle → Prop
  | .list w => ∃ l, Walk (s.nodes p) (s.head p w) l ∧ i ∈ l
  | .cache c => (p, i) ∈ s.cache c
  | .held h => (∃ r, s.handle h = .node r p i) ∧ s.Free h
  | .flight t => (s.call t).owner = p ∧ (s.call t).pc.node? = some i

section Next

variable [DecidableEq P] [DecidableEq Tid] [DecidableEq Cache] [DecidableEq Handle]

def Shared.Next (cs : PoolCaches P Tid Cache) (s s' : Shared P Tid Cache Handle) : Prop :=
  ∃ t, Shared.Step cs False t s s' ∧ s.Timely t

/-- Steps in which `get` takes nodes of its own pool from the thread's cache. -/
def IsolatingStep (cs : PoolCaches P Tid Cache) (s s' : Shared P Tid Cache Handle) : Prop :=
  ∃ t, Shared.Step cs (cs.useAcc = false) t s s' ∧ s.Timely t

end Next

end Wizard.Pool
