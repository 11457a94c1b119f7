import Wizard.RouteLinks
import Wizard.RouteTable
import Wizard.Runs
import Wizard.SeqLock

/-! The route table of `route_seqlock.c`: a singly linked list that lookups read between
`read_seqbegin` and `read_seqretry`, and that additions, deletions and clears change inside
write sections of the sequence lock `sl`. -/

namespace Wizard.RouteSeqlock

open RouteTable

/-- Where a thread stands in `route_lookup(addr)`, with its `s`, `repp`, `rep` and `ret`. -/
inductive Reader (W : Type*)
  | idle
  | retry (addr : BitVec 64)
  | load (addr : BitVec 64) (s : W) (repp : Link)
  | compare (addr : BitVec 64) (s : W) (rep : Nat)
  | check (addr : BitVec 64) (s : W) (rep : Nat)
  | read (addr : BitVec 64) (s : W) (rep : Nat)
  | verify (addr : BitVec 64) (s : W) (ret : BitVec 64)
  | returned (addr ret : BitVec 64)
  | aborted

/-- What is left to do in the write section. -/
inductive Section
  | link (rep : Nat)
  | publish (rep : Nat)
  | scan (addr : BitVec 64) (repp : Link)
  | test (addr : BitVec 64) (repp : Link) (rep : Nat)
  | skip (repp : Link) (rep : Nat)
  | clear
  | empty (rep : Option Nat)
  | clearNext (rep : Nat)
  | clearFree (rep : Nat) (rep1 : Option Nat)
  | unlock (rep : Option Nat)

/-- The memory of an entry: free, made by a `route_add`, linked, taken out by a `route_del`,
with `re_freed` set by it. -/
inductive Stage
  | free
  | adding
  | linked
  | deleted
  | freeing
  deriving DecidableEq

/-- `seq` counts the calls of `write_seqlock` and `write_sequnlock`. -/
structure State (W : Type*) where
  next : Link → Option Nat
  addr : Nat → BitVec 64
  iface : Nat → BitVec 64
  reFreed : Nat → Bool
  stage : Nat → Stage
  seq : Nat
  writer : Option Section
  reader : Nat → Reader W
  table : List Route

variable {W : Type*}

/-- The entry of which the lookup reads a field in its next step. -/
def Reader.uses? : Reader W → Option Nat
  | .load _ _ (.entry a) | .compare _ _ a | .check _ _ a | .read _ _ a => some a
  | _ => none

/-- The entries that the writer reads, writes or frees in its next step. -/
def Section.Uses (a : Nat) : Section → Prop
  | .link rep | .publish rep | .test _ _ rep | .clearNext rep | .clearFree rep _ => a = rep
  | .scan _ repp => repp = .entry a
  | .skip repp rep => repp = .entry a ∨ a = rep
  | .clear | .empty _ | .unlock _ => False

structure Init (s : State W) : Prop where
  next : s.next .routeList = none
  stage : ∀ a, s.stage a = .free
  seq : s.seq = 0
  writer : s.writer = none
  reader : ∀ t, s.reader t = .idle
  table : s.table = []

namespace State

variable (s : State W)

def setReader (t : Nat) (r : Reader W) : State W := { s with reader := Function.update s.reader t r }

def setNext (repp : Link) (rep : Option Nat) : State W := { s with next := Function.update s.next repp rep }

def setStage (a : Nat) (stage : Stage) : State W := { s with stage := Function.update s.stage a stage }

def setWriter (sec : Section) : State W := { s with writer := some sec }

/-- The fields of an entry that no call has hold of are overwritten. -/
def write (a : Nat) (addr iface : BitVec 64) (reFreed : Bool) : State W :=
  { s with
    addr := Function.update s.addr a addr
    iface := Function.update s.iface a iface
    reFreed := Function.update s.reFreed a reFreed }

/-- `write_seqlock(&sl)`. -/
def lock (sec : Section) : State W := { s with seq := s.seq + 1, writer := some sec }

/-- `write_sequnlock(&sl)`. -/
def unlock : State W := { s with seq := s.seq + 1, writer := none }

end State

/-- Every load and store of a shared field is a step. What is in free memory may change at any
time. -/
inductive Step (sl : SeqLock W) : State W → State W → Prop
  | call (s t addr) (h : s.reader t = .idle) : Step sl s (s.setReader t (.retry addr))
  | seqbegin (s t addr) (h : s.reader t = .retry addr) :
      Step sl s (s.setReader t (.load addr (sl.begin_ s.seq) .routeList))
  | load (s t addr w repp rep) (h : s.reader t = .load addr w repp) (hn : s.next repp = some rep) :
      Step sl s (s.setReader t (.compare addr w rep))
  | loadNull (s t addr w repp) (h : s.reader t = .load addr w repp) (hn : s.next repp = none) :
      Step sl s (s.setReader t (.verify addr w ulongMax))
  | differ (s t addr w rep) (h : s.reader t = .compare addr w rep) (hd : s.addr rep ≠ addr) :
      Step sl s (s.setReader t (.load addr w (.entry rep)))
  | agree (s t addr w rep) (h : s.reader t = .compare addr w rep) (hd : s.addr rep = addr) :
      Step sl s (s.setReader t (.check addr w rep))
  | checkFreed (s t addr w rep) (h : s.reader t = .check addr w rep) :
      Step sl s (s.setReader t (if s.reFreed rep then .aborted else .read addr w rep))
  | loadIface (s t addr w rep) (h : s.reader t = .read addr w rep) :
      Step sl s (s.setReader t (.verify addr w (s.iface rep)))
  | seqretry (s t addr w ret) (h : s.reader t = .verify addr w ret) :
      Step sl s (s.setReader t (if sl.retry s.seq w then .retry addr else .returned addr ret))
  | return_ (s t addr ret) (h : s.reader t = .returned addr ret) : Step sl s (s.setReader t .idle)
  | garbage (s a addr iface reFreed rep) (h : s.stage a = .free) :
      Step sl s ((s.write a addr iface reFreed).setNext (.entry a) rep)
  | malloc (s a addr iface) (h : s.stage a = .free) : Step sl s ((s.write a addr iface false).setStage a .adding)
  | addLock (s a) (h : s.stage a = .adding) (hw : s.writer = none) : Step sl s (s.lock (.link a))
  | link (s a) (hw : s.writer = some (.link a)) :
      Step sl s ((s.setNext (.entry a) (s.next .routeList)).setWriter (.publish a))
  | publish (s a) (hw : s.writer = some (.publish a)) :
      Step sl s ((({ s with table := ⟨s.addr a, s.iface a⟩ :: s.table }.setNext .routeList (some a)).setStage
        a .linked).setWriter (.unlock none))
  | delLock (s addr) (hw : s.writer = none) : Step sl s (s.lock (.scan addr .routeList))
  | scan (s addr repp rep) (hw : s.writer = some (.scan addr repp)) (hn : s.next repp = some rep) :
      Step sl s (s.setWriter (.test addr repp rep))
  | scanNull (s addr repp) (hw : s.writer = some (.scan addr repp)) (hn : s.next repp = none) :
      Step sl s (s.setWriter (.unlock none))
  | testDiffer (s addr repp rep) (hw : s.writer = some (.test addr repp rep)) (hd : s.addr rep ≠ addr) :
      Step sl s (s.setWriter (.scan addr (.entry rep)))
  | testAgree (s addr repp rep) (hw : s.writer = some (.test addr repp rep)) (hd : s.addr rep = addr) :
      Step sl s (s.setWriter (.skip repp rep))
  | skip (s repp rep) (hw : s.writer = some (.skip repp rep)) :
      Step sl s (({ s with table := del s.table (s.addr rep) }.setNext repp (s.next (.entry rep))).setWriter
        (.unlock (some rep)))
  | unlock (s) (hw : s.writer = some (.unlock none)) : Step sl s s.unlock
  | unlockDel (s rep) (hw : s.writer = some (.unlock (some rep))) : Step sl s (s.unlock.setStage rep .deleted)
  | flag (s a) (h : s.stage a = .deleted) :
      Step sl s ({ s with reFreed := Function.update s.reFreed a true }.setStage a .freeing)
  | free (s a) (h : s.stage a = .freeing) : Step sl s (s.setStage a .free)
  | clearLock (s) (hw : s.writer = none) : Step sl s (s.lock .clear)
  | clear (s) (hw : s.writer = some .clear) : Step sl s (s.setWriter (.empty (s.next .routeList)))
  | empty (s rep) (hw : s.writer = some (.empty rep)) :
      Step sl s (({ s with table := [] }.setNext .routeList none).setWriter (rep.elim (.unlock none) .clearNext))
  | clearNext (s rep) (hw : s.writer = some (.clearNext rep)) :
      Step sl s (s.setWriter (.clearFree rep (s.next (.entry rep))))
  | clearFree (s rep rep1) (hw : s.writer = some (.clearFree rep rep1)) :
      Step sl s ((s.setStage rep .free).setWriter (rep1.elim (.unlock none) .clearNext))

end Wizard.RouteSeqlock
