import Wizard.Ring
import Wizard.RouteTable
import Wizard.Runs

/-! The route table of `route_rcu.c`: a doubly linked list that lookups read inside read-side
critical sections, while additions, deletions and clears hold `routelock`. -/

namespace Wizard.RouteRcu

open RouteTable

/-- What a `struct cds_list_head *` leads to: `route_list`, the `junk` of a call of
`route_clear`, or the `re_next` of an entry. -/
inductive Ptr
  | routeList
  | junk (c : Nat)
  | entry (a : Nat)
  deriving DecidableEq

/-- Where a thread stands in `route_lookup(addr)`. An entry that a `route_clear` takes out leads
to its `junk`, and a lookup that comes there takes it for an entry. -/
inductive Reader
  | idle
  | locked (addr : BitVec 64)
  | at_ (addr : BitVec 64) (p : Ptr)
  | pass (addr : BitVec 64) (a : Nat)
  | hit (addr : BitVec 64) (a : Nat)
  | check (addr : BitVec 64) (a : Nat) (ret : BitVec 64)
  | unlock (addr ret : BitVec 64)
  | returned (addr ret : BitVec 64)
  | aborted

/-- For whom `cds_list_del_rcu` and `cds_list_add_rcu` run: `route_del` and `route_add`, or
the loop of `route_clear` with its `rep1`. -/
inductive Caller
  | update
  | clear (c : Nat) (rep1 : Ptr)

/-- The list that the caller adds to. -/
def Caller.head : Caller → Ptr
  | .update => .routeList
  | .clear c _ => .junk c

/-- What is left to do under `routelock`. -/
inductive Section
  | scan (addr : BitVec 64) (rep : Ptr)
  | delBack (a : Nat) (k : Caller)
  | delNext (a : Nat) (k : Caller)
  | addNext (a : Nat) (k : Caller)
  | addPrev (a : Nat) (k : Caller)
  | addBack (a : Nat) (k : Caller)
  | publish (a : Nat) (k : Caller)
  | clear (c : Nat) (rep rep1 : Ptr)
  | unlock (a : Option Nat)

/-- The memory of an entry: free, made by a `route_add`, on the list, taken out by a
`route_clear`, taken out by a `route_del`, given to `call_rcu`, or in the hands of `route_cb`. -/
inductive Stage
  | free
  | adding
  | listed
  | moved (c : Nat)
  | deleted
  | queued
  | freeing
  deriving DecidableEq

/-- Where a call of `route_clear` stands outside `routelock`. -/
inductive Frame
  | absent
  | ready
  | moving
  | unlocked
  | syncing
  | freeing (rep rep1 : Ptr)
  | flagged (a : Nat) (rep1 : Ptr)

/-- `awaits p` are the readers that the callback of an entry or the `synchronize_rcu` of a
`route_clear` still waits for. -/
structure State where
  next : Ptr → Ptr
  prev : Ptr → Ptr
  addr : Nat → BitVec 64
  iface : Nat → BitVec 64
  reFreed : Nat → Bool
  stage : Nat → Stage
  frame : Nat → Frame
  awaits : Ptr → Nat → Prop
  lock : Option Section
  reader : Nat → Reader
  table : List Route

/-- The thread is between `rcu_read_lock` and `rcu_read_unlock`. -/
def Reader.Inside : Reader → Prop
  | .idle | .returned _ _ => False
  | _ => True

/-- The entry of which the lookup uses a field in its next step. -/
def Reader.uses? : Reader → Option Nat
  | .at_ _ (.entry a) | .pass _ a | .hit _ a | .check _ a _ => some a
  | _ => none

/-- The `junk` that the lookup takes for an entry. -/
def Reader.junk? : Reader → Option Nat
  | .at_ _ (.junk c) => some c
  | _ => none

structure Init (s : State) : Prop where
  next : s.next .routeList = .routeList
  prev : s.prev .routeList = .routeList
  stage : ∀ a, s.stage a = .free
  frame : ∀ c, s.frame c = .absent
  lock : s.lock = none
  reader : ∀ t, s.reader t = .idle
  table : s.table = []

section Moves

variable (s : State)

def State.setReader (t : Nat) (r : Reader) : State := { s with reader := Function.update s.reader t r }

def State.setNext (p q : Ptr) : State := { s with next := Function.update s.next p q }

def State.setPrev (p q : Ptr) : State := { s with prev := Function.update s.prev p q }

def State.setStage (a : Nat) (stage : Stage) : State := { s with stage := Function.update s.stage a stage }

def State.setFrame (c : Nat) (frame : Frame) : State := { s with frame := Function.update s.frame c frame }

def State.setLock (sec : Section) : State := { s with lock := some sec }

def State.unlock : State := { s with lock := none }

/-- A grace period is to begin: the readers inside now are awaited. -/
def State.await (p : Ptr) : State :=
  { s with awaits := Function.update s.awaits p fun t => (s.reader t).Inside }

def State.flag (a : Nat) : State := { s with reFreed := Function.update s.reFreed a true }

end Moves

/-- Every load and store of a shared field is a step. Behind a `junk` there is no `addr`, `iface`
or `re_freed`: what a lookup finds there is whatever lies on the stack. -/
inductive Step : State → State → Prop
  | readLock (s t addr) (h : s.reader t = .idle) : Step s (s.setReader t (.locked addr))
  | loadFirst (s t addr) (h : s.reader t = .locked addr) : Step s (s.setReader t (.at_ addr (s.next .routeList)))
  | differ (s t addr a) (h : s.reader t = .at_ addr (.entry a)) (hd : s.addr a ≠ addr) :
      Step s (s.setReader t (.pass addr a))
  | agree (s t addr a) (h : s.reader t = .at_ addr (.entry a)) (hd : s.addr a = addr) :
      Step s (s.setReader t (.hit addr a))
  | loadNext (s t addr a) (h : s.reader t = .pass addr a) : Step s (s.setReader t (.at_ addr (s.next (.entry a))))
  | loadIface (s t addr a) (h : s.reader t = .hit addr a) : Step s (s.setReader t (.check addr a (s.iface a)))
  | checkFreed (s t addr a ret) (h : s.reader t = .check addr a ret) :
      Step s (s.setReader t (if s.reFreed a then .aborted else .unlock addr ret))
  | noRoute (s t addr) (h : s.reader t = .at_ addr .routeList) : Step s (s.setReader t (.unlock addr ulongMax))
  | strayNext (s t addr c) (h : s.reader t = .at_ addr (.junk c)) :
      Step s (s.setReader t (.at_ addr (s.next (.junk c))))
  | strayHit (s t addr c ret) (h : s.reader t = .at_ addr (.junk c)) : Step s (s.setReader t (.unlock addr ret))
  | strayAbort (s t addr c) (h : s.reader t = .at_ addr (.junk c)) : Step s (s.setReader t .aborted)
  | readUnlock (s t addr ret) (h : s.reader t = .unlock addr ret) :
      Step s ({ s with awaits := fun p u => u ≠ t ∧ s.awaits p u }.setReader t (.returned addr ret))
  | return_ (s t addr ret) (h : s.reader t = .returned addr ret) : Step s (s.setReader t .idle)
  | malloc (s a addr iface) (h : s.stage a = .free) :
      Step s ({ s with
        addr := Function.update s.addr a addr
        iface := Function.update s.iface a iface
        reFreed := Function.update s.reFreed a false }.setStage a .adding)
  | addLock (s a) (h : s.stage a = .adding) (hl : s.lock = none) : Step s (s.setLock (.addNext a .update))
  | addNext (s a k) (hl : s.lock = some (.addNext a k)) :
      Step s ((s.setNext (.entry a) (s.next k.head)).setLock (.addPrev a k))
  | addPrev (s a k) (hl : s.lock = some (.addPrev a k)) :
      Step s ((s.setPrev (.entry a) k.head).setLock (.addBack a k))
  | addBack (s a k) (hl : s.lock = some (.addBack a k)) :
      Step s ((s.setPrev (s.next k.head) (.entry a)).setLock (.publish a k))
  | publish (s a) (hl : s.lock = some (.publish a .update)) :
      Step s ((({ s with table := ⟨s.addr a, s.iface a⟩ :: s.table }.setNext .routeList (.entry a)).setStage
        a .listed).setLock (.unlock none))
  | publishJunk (s a c rep) (hl : s.lock = some (.publish a (.clear c rep))) :
      Step s ((s.setNext (.junk c) (.entry a)).setLock (.clear c rep (s.next rep)))
  | delLock (s addr) (hl : s.lock = none) : Step s (s.setLock (.scan addr (s.next .routeList)))
  | scanNext (s addr a) (hl : s.lock = some (.scan addr (.entry a))) (hd : s.addr a ≠ addr) :
      Step s (s.setLock (.scan addr (s.next (.entry a))))
  | scanFound (s addr a) (hl : s.lock = some (.scan addr (.entry a))) (hd : s.addr a = addr) :
      Step s (s.setLock (.delBack a .update))
  | scanEnd (s addr) (hl : s.lock = some (.scan addr .routeList)) : Step s (s.setLock (.unlock none))
  | delBack (s a k) (hl : s.lock = some (.delBack a k)) :
      Step s ((s.setPrev (s.next (.entry a)) (s.prev (.entry a))).setLock (.delNext a k))
  | delNext (s a) (hl : s.lock = some (.delNext a .update)) :
      Step s (({ s with table := del s.table (s.addr a) }.setNext (s.prev (.entry a)) (s.next (.entry a))).setLock
        (.unlock (some a)))
  | delNextClear (s a c rep1) (hl : s.lock = some (.delNext a (.clear c rep1))) :
      Step s ((({ s with table := s.table.tail }.setNext (s.prev (.entry a)) (s.next (.entry a))).setStage
        a (.moved c)).setLock (.addNext a (.clear c rep1)))
  | unlock (s) (hl : s.lock = some (.unlock none)) : Step s s.unlock
  | unlockDel (s a) (hl : s.lock = some (.unlock (some a))) : Step s (s.unlock.setStage a .deleted)
  | callRcu (s a) (h : s.stage a = .deleted) : Step s ((s.await (.entry a)).setStage a .queued)
  | routeCb (s a) (h : s.stage a = .queued) (hw : ∀ t, ¬ s.awaits (.entry a) t) :
      Step s ((s.flag a).setStage a .freeing)
  | free (s a) (h : s.stage a = .freeing) : Step s (s.setStage a .free)
  | initJunk (s c) (h : s.frame c = .absent) :
      Step s (((s.setNext (.junk c) (.junk c)).setPrev (.junk c) (.junk c)).setFrame c .ready)
  | clearLock (s c) (h : s.frame c = .ready) (hl : s.lock = none) :
      Step s ((s.setFrame c .moving).setLock (.clear c (s.next .routeList) (s.next (s.next .routeList))))
  | clearMove (s c a rep1) (hl : s.lock = some (.clear c (.entry a) rep1)) :
      Step s (s.setLock (.delBack a (.clear c rep1)))
  | clearUnlock (s c rep1) (hl : s.lock = some (.clear c .routeList rep1)) : Step s (s.unlock.setFrame c .unlocked)
  | synchronize (s c) (h : s.frame c = .unlocked) : Step s ((s.await (.junk c)).setFrame c .syncing)
  | synchronized (s c) (h : s.frame c = .syncing) (hw : ∀ t, ¬ s.awaits (.junk c) t) :
      Step s (s.setFrame c (.freeing (s.next (.junk c)) (s.next (s.next (.junk c)))))
  | clearFlag (s c a rep1) (h : s.frame c = .freeing (.entry a) rep1) : Step s ((s.flag a).setFrame c (.flagged a rep1))
  | clearFree (s c a rep1) (h : s.frame c = .flagged a rep1) :
      Step s ((s.setStage a .free).setFrame c (.freeing rep1 (s.next rep1)))
  | clearDone (s c rep1) (h : s.frame c = .freeing (.junk c) rep1) : Step s (s.setFrame c .absent)

end Wizard.RouteRcu
