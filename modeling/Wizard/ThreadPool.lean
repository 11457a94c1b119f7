import Mathlib.Tactic
import Wizard.Runs

/-! The thread pool. Workers sleep on a condition variable until there is a task or the
pool stops. A task has the number of its `push` for a name. -/

namespace Wizard.ThreadPool

def batchNum : Nat := 10

/-- A turn of a worker. From `check` to `unlock` it has the mutex; `sleep` is after a
predicate that was false, `decide` after one that was true. -/
inductive WorkerPc
  | lock
  | check
  | sleep
  | blocked
  | decide
  | unlock (exits : Bool)
  | pop
  | run (batch : List Nat)
  | exited
deriving DecidableEq

/-- `stopCheck` and `stopUnlock` have the mutex; `first` says that the call has found
`is_stop` false. -/
inductive CallerPc
  | idle
  | notify (task : Nat)
  | stopLock
  | stopCheck
  | stopUnlock (first : Bool)
  | notifyAll
  | join (i : Nat)
  | returned (first : Bool)
deriving DecidableEq

/-- `enqueued` are the tasks whose `enqueue` has returned, `early` those of them that were
there when `is_stop` was set, and `ran` what has been executed. -/
structure State (n : Nat) (C : Type*) where
  isStop : Bool
  mutex : Option (Fin n ⊕ C)
  tasks : List Nat
  pushed : Nat
  worker : Fin n → WorkerPc
  caller : C → CallerPc
  enqueued : List Nat
  early : List Nat
  ran : List Nat

variable {n : Nat} {C : Type*}

structure Init (s : State n C) : Prop where
  isStop : s.isStop = false
  mutex : s.mutex = none
  tasks : s.tasks = []
  pushed : s.pushed = 0
  worker : ∀ w, s.worker w = .lock
  caller : ∀ c, s.caller c = .idle
  enqueued : s.enqueued = []
  early : s.early = []
  ran : s.ran = []

namespace State

def setWorker (s : State n C) (w : Fin n) (pc : WorkerPc) : State n C :=
  { s with worker := Function.update s.worker w pc }

variable [DecidableEq C]

def setCaller (s : State n C) (c : C) (pc : CallerPc) : State n C :=
  { s with caller := Function.update s.caller c pc }

end State

def wake : WorkerPc → WorkerPc
  | .blocked => .lock
  | pc => pc

variable [DecidableEq C]

/-- One step of a worker. A wait may end spuriously. -/
inductive WorkerStep (graceful : Bool) (w : Fin n) : State n C → State n C → Prop
  | lock (s) (hw : s.worker w = .lock) (hm : s.mutex = none) :
      WorkerStep graceful w s ({ s with mutex := some (.inl w) }.setWorker w .check)
  | check (s) (hw : s.worker w = .check) :
      WorkerStep graceful w s (s.setWorker w (if s.isStop ∨ 0 < s.tasks.length then .decide else .sleep))
  | sleep (s) (hw : s.worker w = .sleep) :
      WorkerStep graceful w s ({ s with mutex := none }.setWorker w .blocked)
  | spurious (s) (hw : s.worker w = .blocked) : WorkerStep graceful w s (s.setWorker w .lock)
  | decide (s) (hw : s.worker w = .decide) :
      WorkerStep graceful w s (s.setWorker w (.unlock (s.isStop && (!graceful || s.tasks.length == 0))))
  | unlock (s exits) (hw : s.worker w = .unlock exits) :
      WorkerStep graceful w s ({ s with mutex := none }.setWorker w (if exits then .exited else .pop))
  | pop (s k) (hw : s.worker w = .pop) (hk : k ≤ batchNum) :
      WorkerStep graceful w s ({ s with tasks := s.tasks.drop k }.setWorker w (.run (s.tasks.take k)))
  | run (s task rest) (hw : s.worker w = .run (task :: rest)) :
      WorkerStep graceful w s ({ s with ran := task :: s.ran }.setWorker w (.run rest))
  | ran (s) (hw : s.worker w = .run []) : WorkerStep graceful w s (s.setWorker w .lock)

/-- One step of a thread that calls `enqueue` or `stop_and_wait`. -/
inductive CallerStep (c : C) : State n C → State n C → Prop
  | push (s) (hc : s.caller c = .idle) :
      CallerStep c s ({ s with tasks := s.tasks ++ [s.pushed], pushed := s.pushed + 1 }.setCaller c (.notify s.pushed))
  | notifyOne (s task w) (hc : s.caller c = .notify task) (hw : s.worker w = .blocked) :
      CallerStep c s (({ s with enqueued := task :: s.enqueued }.setWorker w .lock).setCaller c .idle)
  | notifyNone (s task) (hc : s.caller c = .notify task) (hw : ∀ w, s.worker w ≠ .blocked) :
      CallerStep c s ({ s with enqueued := task :: s.enqueued }.setCaller c .idle)
  | stop (s) (hc : s.caller c = .idle) : CallerStep c s (s.setCaller c .stopLock)
  | stopLock (s) (hc : s.caller c = .stopLock) (hm : s.mutex = none) :
      CallerStep c s ({ s with mutex := some (.inr c) }.setCaller c .stopCheck)
  | stopFound (s) (hc : s.caller c = .stopCheck) (hs : s.isStop = true) :
      CallerStep c s (s.setCaller c (.stopUnlock false))
  | stopSet (s) (hc : s.caller c = .stopCheck) (hs : s.isStop = false) :
      CallerStep c s ({ s with isStop := true, early := s.enqueued }.setCaller c (.stopUnlock true))
  | stopUnlock (s first) (hc : s.caller c = .stopUnlock first) :
      CallerStep c s ({ s with mutex := none }.setCaller c (if first then .notifyAll else .returned false))
  | notifyAll (s) (hc : s.caller c = .notifyAll) :
      CallerStep c s ({ s with worker := fun w => wake (s.worker w) }.setCaller c (.join 0))
  | join (s i) (hi : i < n) (hc : s.caller c = .join i) (hw : s.worker ⟨i, hi⟩ = .exited) :
      CallerStep c s (s.setCaller c (.join (i + 1)))
  | joined (s) (hc : s.caller c = .join n) : CallerStep c s (s.setCaller c (.returned true))
  | again (s first) (hc : s.caller c = .returned first) : CallerStep c s (s.setCaller c .idle)

def Step (graceful : Bool) (s s' : State n C) : Prop :=
  (∃ w, WorkerStep graceful w s s') ∨ ∃ c, CallerStep c s s'

end Wizard.ThreadPool
