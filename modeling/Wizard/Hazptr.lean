import Mathlib.Tactic
import Wizard.Runs

/-! Hazard pointers. Objects that are retired pass from the private list of a thread
to `_retired_list` and from there into the batch of a `bulkReclaim`, which deletes
what no record holds. A destructor may retire further objects, so calls of
`bulkReclaim` nest. A step is one atomic access with the thread-local code around
it. -/

namespace Wizard.Hazptr

structure DoubleLinkedList (Obj : Type*) where
  head : Option Obj
  tail : Option Obj
  count : Int

variable {Obj Rec Cell Holder Tid : Type*}

def DoubleLinkedList.clear : DoubleLinkedList Obj := ⟨none, none, 0⟩

section Push

variable [DecidableEq Obj]

/-- The `next` fields after `DoubleLinkedList::push`. -/
def DoubleLinkedList.link (l : DoubleLinkedList Obj) (next : Obj → Option Obj) (node : Obj) :
    Obj → Option Obj :=
  match l.tail with
  | some tail => Function.update (Function.update next node none) tail (some node)
  | none => Function.update next node none

def DoubleLinkedList.push (l : DoubleLinkedList Obj) (node : Obj) : DoubleLinkedList Obj :=
  match l.tail with
  | some _ => ⟨l.head, some node, l.count + 1⟩
  | none => ⟨some node, some node, l.count + 1⟩

end Push

def scanThreshold : Int := 5

def scanMult : Int := 2

def recordCacheSize : Nat := 10

/-- What `fetch_add` leaves in an `atomic<int>`. -/
def wrap (n : Int) : Int := n.bmod (2 ^ 32)

theorem wrap_eq {n : Int} (h : 0 ≤ n) (hn : n < 2 ^ 31) : wrap n = n :=
  Int.bmod_eq_of_le (by omega) (by omega)

theorem le_wrap (n : Int) : -2 ^ 31 ≤ wrap n :=
  Int.le_bmod (by omega)

theorem wrap_le {n : Int} (h : -2 ^ 31 ≤ n) : wrap n ≤ n := by
  rw [wrap, Int.bmod_def]
  split <;> omega

/-- The local variables of a `bulkReclaim`. -/
structure Batch (Obj : Type*) where
  p : Option Obj
  set : List (Option Obj)
  leftList : DoubleLinkedList Obj

/-- The list a call of `append` hands over. -/
inductive Source
  | priv
  | left
deriving DecidableEq

/-- The next atomic access of a thread. -/
inductive Act (Obj Rec Cell Holder : Type*)
  | client
  | loadActive (h : Holder) (rec : Rec)
  | casActive (h : Holder) (rec : Rec)
  | newRecord (h : Holder)
  | pushRecord (h : Holder) (rec : Rec)
  | countRecord (h : Holder) (rec : Rec)
  | publish (h : Holder) (p : Option Obj) (src : Cell)
  | validate (h : Holder) (p : Option Obj) (src : Cell) (again : Bool)
  | retract (h : Holder) (latest : Option Obj) (src : Cell) (again : Bool)
  | releaseRecord (rec : Rec)
  | link (source : Source)
  | append (source : Source)
  | countRetired (source : Source)
  | loadCount
  | loadHazptrCount (retireCnt : Int)
  | casCount (retireCnt : Int)
  | exchange
  | loadRecords
  | scan (rec : Rec)
  | reclaim
  | dropCached (rest : List Rec)
  | exited

/-- `stack` has the calls of `bulkReclaim` in progress, the innermost first; while
a destructor runs, the act is that of client code. -/
structure Thread (Obj Rec Cell Holder : Type*) where
  act : Act Obj Rec Cell Holder
  stack : List (Batch Obj)
  exiting : Bool

/-- `retired` and `deletions` record which objects were retired, and how often each
was deleted. -/
structure State (Obj Rec Cell Holder Tid : Type*) where
  next : Obj → Option Obj
  retiredList : Option Obj
  retiredCount : Int
  hazptrCount : Int
  hazptrList : Option Rec
  recNext : Rec → Option Rec
  active : Rec → Bool
  realptr : Rec → Option Obj
  allocated : Rec → Prop
  cell : Cell → Option Obj
  holder : Holder → Option Rec
  privList : Tid → DoubleLinkedList Obj
  pool : Tid → List Rec
  thread : Tid → Thread Obj Rec Cell Holder
  retired : Obj → Prop
  deletions : Obj → Nat

structure Init (s : State Obj Rec Cell Holder Tid) : Prop where
  retiredList : s.retiredList = none
  retiredCount : s.retiredCount = 0
  hazptrCount : s.hazptrCount = 0
  hazptrList : s.hazptrList = none
  allocated : ∀ r, ¬ s.allocated r
  holder : ∀ h, s.holder h = none
  privList : ∀ t, s.privList t = .clear
  pool : ∀ t, s.pool t = []
  thread : ∀ t, s.thread t = ⟨.client, [], false⟩
  retired : ∀ x, ¬ s.retired x
  deletions : ∀ x, s.deletions x = 0

def Act.holder? : Act Obj Rec Cell Holder → Option Holder
  | .loadActive h _ | .casActive h _ | .newRecord h | .pushRecord h _ | .countRecord h _
  | .publish h _ _ | .validate h _ _ _ | .retract h _ _ _ => some h
  | _ => none

/-- No thread is inside a method of the holder. -/
def State.Free (s : State Obj Rec Cell Holder Tid) (h : Holder) : Prop :=
  ∀ t, (s.thread t).act.holder? ≠ some h

section Updates

variable [DecidableEq Tid]

def State.setThread (s : State Obj Rec Cell Holder Tid) (t : Tid) (th : Thread Obj Rec Cell Holder) :
    State Obj Rec Cell Holder Tid :=
  { s with thread := Function.update s.thread t th }

def State.setAct (s : State Obj Rec Cell Holder Tid) (t : Tid) (act : Act Obj Rec Cell Holder) :
    State Obj Rec Cell Holder Tid :=
  s.setThread t { s.thread t with act := act }

/-- What follows the flush of a private list: the caller of `retire` goes on, or
`~HazptrPrivate` goes on to destroy the record cache. -/
def State.finish (s : State Obj Rec Cell Holder Tid) (t : Tid) : State Obj Rec Cell Holder Tid :=
  if (s.thread t).exiting ∧ (s.thread t).stack = [] then
    { s with pool := Function.update s.pool t [] }.setAct t (.dropCached (s.pool t).reverse)
  else s.setAct t .client

/-- The search of `acquire_record` at a record of `_hazptr_list`. -/
def State.searchAt (s : State Obj Rec Cell Holder Tid) (t : Tid) (h : Holder) (rec : Option Rec) :
    State Obj Rec Cell Holder Tid :=
  match rec with
  | some rec => s.setAct t (.loadActive h rec)
  | none => s.setAct t (.newRecord h)

/-- The scan of `bulkReclaim` at a record of `_hazptr_list`. -/
def State.scanAt (s : State Obj Rec Cell Holder Tid) (t : Tid) (rec : Option Rec) :
    State Obj Rec Cell Holder Tid :=
  match rec with
  | some rec => s.setAct t (.scan rec)
  | none => s.setAct t .reclaim

def State.setBatch (s : State Obj Rec Cell Holder Tid) (t : Tid) (b : Batch Obj) (rest : List (Batch Obj)) :
    State Obj Rec Cell Holder Tid :=
  s.setThread t { s.thread t with stack := b :: rest }

/-- `free_cached_rec`; a record that finds the cache full is not reused. -/
def State.freeCachedRec (s : State Obj Rec Cell Holder Tid) (t : Tid) (rec : Rec) :
    State Obj Rec Cell Holder Tid :=
  if (s.pool t).length < recordCacheSize then
    { s with pool := Function.update s.pool t (rec :: s.pool t) }
  else s

variable [DecidableEq Rec]

def State.storeReal (s : State Obj Rec Cell Holder Tid) (rec : Rec) (p : Option Obj) :
    State Obj Rec Cell Holder Tid :=
  { s with realptr := Function.update s.realptr rec p }

variable [DecidableEq Holder]

def State.setHolder (s : State Obj Rec Cell Holder Tid) (h : Holder) (rec : Option Rec) :
    State Obj Rec Cell Holder Tid :=
  { s with holder := Function.update s.holder h rec }

variable [DecidableEq Obj]

/-- `retire`: `HazptrPrivate::push` with the load in `reached_threshold`. -/
def State.retire (s : State Obj Rec Cell Holder Tid) (t : Tid) (x : Obj) : State Obj Rec Cell Holder Tid :=
  let s' : State Obj Rec Cell Holder Tid := { s with
    next := (s.privList t).link s.next x
    privList := Function.update s.privList t ((s.privList t).push x)
    retired := fun y => y = x ∨ s.retired y }
  if scanThreshold ≤ ((s.privList t).push x).count ∧
      scanMult * s.hazptrCount ≤ ((s.privList t).push x).count then
    s'.setAct t (.link .priv)
  else s'

/-- The list that `append` was called with. -/
def State.source (s : State Obj Rec Cell Holder Tid) (t : Tid) : Source → DoubleLinkedList Obj
  | .priv => s.privList t
  | .left =>
    match (s.thread t).stack with
    | b :: _ => b.leftList
    | [] => .clear

/-- `~HazptrPrivate` up to its first atomic access. -/
def State.exit (s : State Obj Rec Cell Holder Tid) (t : Tid) : State Obj Rec Cell Holder Tid :=
  if 0 < (s.privList t).count then s.setThread t ⟨.link .priv, [], true⟩
  else { s with pool := Function.update s.pool t [] }.setThread t ⟨.dropCached (s.pool t).reverse, [], true⟩

end Updates

variable [DecidableEq Obj] [DecidableEq Rec] [DecidableEq Cell] [DecidableEq Holder] [DecidableEq Tid]

/-- The steps of thread `t`. Weak compare-and-swaps may fail spuriously. Client code
retires an object once, when no cell holds it, and never stores it again. -/
inductive Step (useCache : Bool) (t : Tid) :
    State Obj Rec Cell Holder Tid → State Obj Rec Cell Holder Tid → Prop
  | store (s c v) (ha : (s.thread t).act = .client) (hv : ∀ x, v = some x → ¬ s.retired x) :
      Step useCache t s { s with cell := Function.update s.cell c v }
  | retire (s x) (ha : (s.thread t).act = .client) (hx : ¬ s.retired x) (hcell : ∀ c, s.cell c ≠ some x) :
      Step useCache t s (s.retire t x)
  | acquire (s h) (ha : (s.thread t).act = .client) (hu : useCache = false) (hh : s.holder h = none)
      (hf : s.Free h) : Step useCache t s (s.searchAt t h s.hazptrList)
  | acquireCached (s h rec rest) (ha : (s.thread t).act = .client) (hu : useCache = true)
      (hh : s.holder h = none) (hf : s.Free h) (hp : s.pool t = rec :: rest) :
      Step useCache t s ({ s with pool := Function.update s.pool t rest }.setHolder h (some rec))
  | acquireFresh (s h) (ha : (s.thread t).act = .client) (hu : useCache = true) (hh : s.holder h = none)
      (hf : s.Free h) (hp : s.pool t = []) : Step useCache t s (s.setAct t (.newRecord h))
  | loadActive (s h rec) (ha : (s.thread t).act = .loadActive h rec) :
      Step useCache t s
        (if s.active rec then s.searchAt t h (s.recNext rec) else s.setAct t (.casActive h rec))
  | casActiveOk (s h rec) (ha : (s.thread t).act = .casActive h rec) (hr : s.active rec = false) :
      Step useCache t s (({ s with active := Function.update s.active rec true }.setHolder h
        (some rec)).setAct t .client)
  | casActiveFail (s h rec) (ha : (s.thread t).act = .casActive h rec) (hr : s.active rec = true) :
      Step useCache t s (s.searchAt t h (s.recNext rec))
  | newRecord (s h rec) (ha : (s.thread t).act = .newRecord h) (hr : ¬ s.allocated rec) :
      Step useCache t s ({ s with
        allocated := fun r => r = rec ∨ s.allocated r
        active := Function.update s.active rec true
        realptr := Function.update s.realptr rec none
        recNext := Function.update s.recNext rec s.hazptrList }.setAct t (.pushRecord h rec))
  | pushRecordOk (s h rec) (ha : (s.thread t).act = .pushRecord h rec)
      (he : s.hazptrList = s.recNext rec) :
      Step useCache t s ({ s with hazptrList := some rec }.setAct t (.countRecord h rec))
  | pushRecordFail (s h rec) (ha : (s.thread t).act = .pushRecord h rec) :
      Step useCache t s { s with recNext := Function.update s.recNext rec s.hazptrList }
  | countRecord (s h rec) (ha : (s.thread t).act = .countRecord h rec) :
      Step useCache t s (({ s with hazptrCount := wrap (s.hazptrCount + 1) }.setHolder h (some rec)).setAct t
        .client)
  | tryProtect (s h rec p src) (ha : (s.thread t).act = .client) (hh : s.holder h = some rec)
      (hf : s.Free h) : Step useCache t s ((s.storeReal rec p).setAct t (.validate h p src false))
  | getProtected (s h rec src) (ha : (s.thread t).act = .client) (hh : s.holder h = some rec)
      (hf : s.Free h) : Step useCache t s (s.setAct t (.publish h (s.cell src) src))
  | publish (s h rec p src) (ha : (s.thread t).act = .publish h p src) (hh : s.holder h = some rec) :
      Step useCache t s ((s.storeReal rec p).setAct t (.validate h p src true))
  | validateOk (s h p src again) (ha : (s.thread t).act = .validate h p src again)
      (he : s.cell src = p) : Step useCache t s (s.setAct t .client)
  | validateFail (s h p src again) (ha : (s.thread t).act = .validate h p src again)
      (he : s.cell src ≠ p) : Step useCache t s (s.setAct t (.retract h (s.cell src) src again))
  | retract (s h rec latest src again) (ha : (s.thread t).act = .retract h latest src again)
      (hh : s.holder h = some rec) :
      Step useCache t s ((s.storeReal rec none).setAct t
        (if again then .publish h latest src else .client))
  | reset (s h rec p) (ha : (s.thread t).act = .client) (hh : s.holder h = some rec) (hf : s.Free h) :
      Step useCache t s (s.storeReal rec p)
  | swap (s h h' rec rec') (ha : (s.thread t).act = .client) (hh : s.holder h = some rec)
      (hh' : s.holder h' = some rec') (hf : s.Free h) (hf' : s.Free h') :
      Step useCache t s ((s.setHolder h (some rec')).setHolder h' (some rec))
  | destroy (s h rec) (ha : (s.thread t).act = .client) (hu : useCache = false)
      (hh : s.holder h = some rec) (hf : s.Free h) :
      Step useCache t s (((s.storeReal rec none).setHolder h none).setAct t (.releaseRecord rec))
  | destroyCached (s h rec) (ha : (s.thread t).act = .client) (hu : useCache = true)
      (hh : s.holder h = some rec) (hf : s.Free h) :
      Step useCache t s (((s.storeReal rec none).setHolder h none).freeCachedRec t rec)
  | releaseRecord (s rec) (ha : (s.thread t).act = .releaseRecord rec) :
      Step useCache t s ({ s with active := Function.update s.active rec false }.setAct t .client)
  | link (s source tail) (ha : (s.thread t).act = .link source) (hl : (s.source t source).tail = some tail) :
      Step useCache t s ({ s with next := Function.update s.next tail s.retiredList }.setAct t
        (.append source))
  | appendOk (s source tail) (ha : (s.thread t).act = .append source)
      (hl : (s.source t source).tail = some tail) (he : s.retiredList = s.next tail) :
      Step useCache t s ({ s with retiredList := (s.source t source).head }.setAct t
        (.countRetired source))
  | appendFail (s source tail) (ha : (s.thread t).act = .append source)
      (hl : (s.source t source).tail = some tail) :
      Step useCache t s { s with next := Function.update s.next tail s.retiredList }
  | countPriv (s) (ha : (s.thread t).act = .countRetired .priv) :
      Step useCache t s ({ s with
        retiredCount := wrap (s.retiredCount + (s.privList t).count)
        privList := Function.update s.privList t .clear }.setAct t .loadCount)
  | countLeft (s b rest) (ha : (s.thread t).act = .countRetired .left) (hs : (s.thread t).stack = b :: rest) :
      Step useCache t s (({ s with
        retiredCount := wrap (s.retiredCount + b.leftList.count) }.setThread t
          { s.thread t with stack := rest }).finish t)
  | loadCount (s) (ha : (s.thread t).act = .loadCount) :
      Step useCache t s (s.setAct t (.loadHazptrCount s.retiredCount))
  | loadHazptrCount (s cnt) (ha : (s.thread t).act = .loadHazptrCount cnt) :
      Step useCache t s
        (if cnt < scanThreshold ∨ cnt < scanMult * s.hazptrCount then s.finish t
        else s.setAct t (.casCount cnt))
  | casCountOk (s cnt) (ha : (s.thread t).act = .casCount cnt) (he : s.retiredCount = cnt) :
      Step useCache t s ({ s with retiredCount := 0 }.setAct t .exchange)
  | casCountFail (s cnt) (ha : (s.thread t).act = .casCount cnt) :
      Step useCache t s (s.setAct t (.loadHazptrCount s.retiredCount))
  | exchange (s) (ha : (s.thread t).act = .exchange) :
      Step useCache t s (({ s with retiredList := none }.setBatch t ⟨s.retiredList, [], .clear⟩
        (s.thread t).stack).setAct t .loadRecords)
  | loadRecords (s) (ha : (s.thread t).act = .loadRecords) :
      Step useCache t s (s.scanAt t s.hazptrList)
  | scan (s rec b rest) (ha : (s.thread t).act = .scan rec) (hs : (s.thread t).stack = b :: rest) :
      Step useCache t s ((s.setBatch t { b with set := s.realptr rec :: b.set } rest).scanAt t
        (s.recNext rec))
  | keep (s x b rest) (ha : (s.thread t).act = .reclaim) (hs : (s.thread t).stack = b :: rest)
      (hp : b.p = some x) (hset : some x ∈ b.set) :
      Step useCache t s ({ s with next := b.leftList.link s.next x }.setBatch t
        ⟨s.next x, b.set, b.leftList.push x⟩ rest)
  | delete (s x b rest) (ha : (s.thread t).act = .reclaim) (hs : (s.thread t).stack = b :: rest)
      (hp : b.p = some x) (hset : some x ∉ b.set) :
      Step useCache t s (({ s with
        deletions := Function.update s.deletions x (s.deletions x + 1) }.setBatch t
          { b with p := s.next x } rest).setAct t .client)
  | destructed (s b rest) (ha : (s.thread t).act = .client) (hs : (s.thread t).stack = b :: rest) :
      Step useCache t s (s.setAct t .reclaim)
  | appendLeft (s b rest) (ha : (s.thread t).act = .reclaim) (hs : (s.thread t).stack = b :: rest)
      (hp : b.p = none) (hl : 0 < b.leftList.count) : Step useCache t s (s.setAct t (.link .left))
  | reclaimed (s b rest) (ha : (s.thread t).act = .reclaim) (hs : (s.thread t).stack = b :: rest)
      (hp : b.p = none) (hl : ¬ 0 < b.leftList.count) :
      Step useCache t s ((s.setThread t { s.thread t with stack := rest }).finish t)
  | exit (s) (ha : (s.thread t).act = .client) (hs : (s.thread t).stack = [])
      (he : (s.thread t).exiting = false) : Step useCache t s (s.exit t)
  | dropCached (s rec rest) (ha : (s.thread t).act = .dropCached (rec :: rest)) :
      Step useCache t s ({ s with active := Function.update s.active rec false }.setAct t
        (.dropCached rest))
  | exited (s) (ha : (s.thread t).act = .dropCached []) : Step useCache t s (s.setAct t .exited)

def Next (useCache : Bool) (s s' : State Obj Rec Cell Holder Tid) : Prop :=
  ∃ t, Step useCache t s s'

end Wizard.Hazptr
