import Mathlib.Data.Fintype.Basic
import Wizard.RouteLinks
import Wizard.RouteTable
import Wizard.Runs

/-! The route table of `route_refcnt.c`: a singly linked list whose entries count the references
to them. A lookup goes from entry to entry with pointers for which it holds no reference, which
is the defect that the file names. -/

namespace Wizard.RouteRefcnt

open RouteTable

/-- What follows `if (atomic_dec_and_test(&rep->re_refcnt)) re_free(rep)`. -/
inductive After
  | next (addr : BitVec 64) (rep : Nat)
  | done (addr ret : BitVec 64)
  | del
  | clear (rep1 : Option Nat)

/-- Where a thread stands: in `route_lookup`, at a drop of a reference, and in `route_add`,
`route_del` and `route_clear`, which end with the unlock (`route_del` of a route with `del`). -/
inductive Pc
  | idle
  | load (addr : BitVec 64) (repp : Link)
  | check (addr : BitVec 64) (rep : Nat)
  | read (addr : BitVec 64) (rep : Nat)
  | cas (addr : BitVec 64) (rep : Nat) (old : BitVec 32)
  | compare (addr : BitVec 64) (rep : Nat)
  | iface (addr : BitVec 64) (rep : Nat)
  | returned (addr ret : BitVec 64)
  | aborted
  | put (rep : Nat) (k : After)
  | flag (rep : Nat) (k : After)
  | free (rep : Nat) (k : After)
  | add (rep : Nat)
  | link (rep : Nat)
  | reset (rep : Nat)
  | publish (rep : Nat)
  | del (addr : BitVec 64)
  | scan (addr : BitVec 64) (repp : Link)
  | test (addr : BitVec 64) (repp : Link) (rep : Nat)
  | skip (repp : Link) (rep : Nat)
  | clear
  | take
  | empty (rep : Option Nat)
  | clearNext (rep : Nat)
  | unlock (rep : Option Nat)

def After.pc : After → Pc
  | .next addr rep => .load addr (.entry rep)
  | .done addr ret => .returned addr ret
  | .del => .idle
  | .clear none => .unlock none
  | .clear (some rep) => .clearNext rep

/-- The memory of an entry: free, made by a `route_add` that has not linked it, linked since. -/
inductive Stage
  | free
  | adding
  | linked
  deriving DecidableEq

structure State (Tid : Type*) where
  next : Link → Option Nat
  addr : Nat → BitVec 64
  iface : Nat → BitVec 64
  refcnt : Nat → BitVec 32
  reFreed : Nat → Bool
  stage : Nat → Stage
  lock : Option Tid
  pc : Tid → Pc
  table : List Route

/-- The entry that a lookup is going to access without a reference to it. -/
def Pc.bare? : Pc → Option Nat
  | .load _ (.entry a) | .check _ a | .read _ a | .cas _ a _ => some a
  | _ => none

/-- The entries that the thread reads, writes or frees in its next step. -/
def Pc.Uses (a : Nat) : Pc → Prop
  | .load _ repp | .scan _ repp => repp = .entry a
  | .check _ rep | .read _ rep | .cas _ rep _ | .compare _ rep | .iface _ rep => a = rep
  | .put rep _ | .flag rep _ | .free rep _ => a = rep
  | .link rep | .reset rep | .test _ _ rep | .clearNext rep => a = rep
  | .skip repp rep => repp = .entry a ∨ a = rep
  | _ => False

variable {Tid : Type*}

structure Init (s : State Tid) : Prop where
  next : s.next .routeList = none
  stage : ∀ a, s.stage a = .free
  lock : s.lock = none
  pc : ∀ t, s.pc t = .idle
  table : s.table = []

/-- No lookup is left with a pointer to an entry whose memory has been freed. -/
def Steady (s : State Tid) : Prop := ∀ t, ∀ a ∈ (s.pc t).bare?, s.stage a = .linked

instance [Fintype Tid] (s : State Tid) : Decidable (Steady s) :=
  inferInstanceAs (Decidable (∀ t, ∀ a ∈ (s.pc t).bare?, s.stage a = .linked))

section Steps

variable [DecidableEq Tid]

namespace State

variable (s : State Tid)

def setPc (t : Tid) (p : Pc) : State Tid := { s with pc := Function.update s.pc t p }

def setNext (repp : Link) (rep : Option Nat) : State Tid := { s with next := Function.update s.next repp rep }

def setStage (a : Nat) (stage : Stage) : State Tid := { s with stage := Function.update s.stage a stage }

def setRefcnt (a : Nat) (n : BitVec 32) : State Tid := { s with refcnt := Function.update s.refcnt a n }

def setFreed (a : Nat) (reFreed : Bool) : State Tid := { s with reFreed := Function.update s.reFreed a reFreed }

/-- The fields of an entry that no call has hold of are overwritten. -/
def write (a : Nat) (addr iface : BitVec 64) (n : BitVec 32) : State Tid :=
  { s with
    addr := Function.update s.addr a addr
    iface := Function.update s.iface a iface
    refcnt := Function.update s.refcnt a n }

end State

/-- The steps of thread `t`: each atomic access, load and store of a shared field is one. What is
in free memory may change at any time. -/
inductive Step (t : Tid) : State Tid → State Tid → Prop
  | callLookup (s addr) (h : s.pc t = .idle) : Step t s (s.setPc t (.load addr .routeList))
  | load (s addr repp rep) (h : s.pc t = .load addr repp) (hn : s.next repp = some rep) :
      Step t s (s.setPc t (.check addr rep))
  | loadNull (s addr repp) (h : s.pc t = .load addr repp) (hn : s.next repp = none) :
      Step t s (s.setPc t (.returned addr ulongMax))
  | check (s addr rep) (h : s.pc t = .check addr rep) :
      Step t s (s.setPc t (if s.reFreed rep then .aborted else .read addr rep))
  | read (s addr rep) (h : s.pc t = .read addr rep) :
      Step t s (s.setPc t (if (s.refcnt rep).toInt ≤ 0 then .load addr .routeList else .cas addr rep (s.refcnt rep)))
  | casOk (s addr rep old) (h : s.pc t = .cas addr rep old) (hc : s.refcnt rep = old) :
      Step t s ((s.setRefcnt rep (old + 1)).setPc t (.compare addr rep))
  | casFail (s addr rep old) (h : s.pc t = .cas addr rep old) (hc : s.refcnt rep ≠ old) :
      Step t s (s.setPc t (.check addr rep))
  | compare (s addr rep) (h : s.pc t = .compare addr rep) :
      Step t s (s.setPc t (if s.addr rep = addr then .iface addr rep else .put rep (.next addr rep)))
  | iface (s addr rep) (h : s.pc t = .iface addr rep) : Step t s (s.setPc t (.put rep (.done addr (s.iface rep))))
  | put (s rep k) (h : s.pc t = .put rep k) :
      Step t s ((s.setRefcnt rep (s.refcnt rep - 1)).setPc t (if s.refcnt rep - 1 = 0 then .flag rep k else k.pc))
  | flag (s rep k) (h : s.pc t = .flag rep k) : Step t s ((s.setFreed rep true).setPc t (.free rep k))
  | free (s rep k) (h : s.pc t = .free rep k) : Step t s ((s.setStage rep .free).setPc t k.pc)
  | return_ (s addr ret) (h : s.pc t = .returned addr ret) : Step t s (s.setPc t .idle)
  | garbage (s a addr iface n reFreed rep) (h : s.stage a = .free) :
      Step t s (((s.write a addr iface n).setFreed a reFreed).setNext (.entry a) rep)
  | malloc (s a addr iface) (h : s.pc t = .idle) (ha : s.stage a = .free) :
      Step t s (((s.write a addr iface 1).setStage a .adding).setPc t (.add a))
  | addLock (s a) (h : s.pc t = .add a) (hl : s.lock = none) : Step t s ({ s with lock := some t }.setPc t (.link a))
  | link (s a) (h : s.pc t = .link a) : Step t s ((s.setNext (.entry a) (s.next .routeList)).setPc t (.reset a))
  | reset (s a) (h : s.pc t = .reset a) : Step t s ((s.setFreed a false).setPc t (.publish a))
  | publish (s a) (h : s.pc t = .publish a) :
      Step t s ((({ s with table := ⟨s.addr a, s.iface a⟩ :: s.table }.setNext .routeList (some a)).setStage
        a .linked).setPc t (.unlock none))
  | callDel (s addr) (h : s.pc t = .idle) : Step t s (s.setPc t (.del addr))
  | delLock (s addr) (h : s.pc t = .del addr) (hl : s.lock = none) :
      Step t s ({ s with lock := some t }.setPc t (.scan addr .routeList))
  | scan (s addr repp rep) (h : s.pc t = .scan addr repp) (hn : s.next repp = some rep) :
      Step t s (s.setPc t (.test addr repp rep))
  | scanNull (s addr repp) (h : s.pc t = .scan addr repp) (hn : s.next repp = none) :
      Step t s (s.setPc t (.unlock none))
  | test (s addr repp rep) (h : s.pc t = .test addr repp rep) :
      Step t s (s.setPc t (if s.addr rep = addr then .skip repp rep else .scan addr (.entry rep)))
  | skip (s repp rep) (h : s.pc t = .skip repp rep) :
      Step t s (({ s with table := del s.table (s.addr rep) }.setNext repp (s.next (.entry rep))).setPc t
        (.unlock (some rep)))
  | callClear (s) (h : s.pc t = .idle) : Step t s (s.setPc t .clear)
  | clearLock (s) (h : s.pc t = .clear) (hl : s.lock = none) : Step t s ({ s with lock := some t }.setPc t .take)
  | take (s) (h : s.pc t = .take) : Step t s (s.setPc t (.empty (s.next .routeList)))
  | empty (s rep) (h : s.pc t = .empty rep) :
      Step t s (({ s with table := [] }.setNext .routeList none).setPc t (After.clear rep).pc)
  | clearNext (s rep) (h : s.pc t = .clearNext rep) :
      Step t s (s.setPc t (.put rep (.clear (s.next (.entry rep)))))
  | unlock (s rep) (h : s.pc t = .unlock rep) :
      Step t s ({ s with lock := none }.setPc t (rep.elim .idle fun a => .put a .del))

def Next (s s' : State Tid) : Prop := ∃ t, Step t s s'

/-- The steps of runs in which no lookup's pointer is left dangling. -/
abbrev SteadyStep : State Tid → State Tid → Prop := Within Next Steady

end Steps

end Wizard.RouteRefcnt
