import Mathlib.Algebra.Group.Int.Defs
import Mathlib.Algebra.Group.Nat.Defs
import Mathlib.Data.Int.Order.Basic
import Mathlib.Data.List.Basic

/-! The timer. Times are nanoseconds of the steady clock, and an operation takes the times at
which it reads the clock. It has no result when a sum or a difference of times does not fit
in 64 bits. Setting the timer always succeeds and replaces the previous setting. -/

namespace Wizard

structure Task where
  id : Nat
  expiredPt : Int
  interval : UInt32
  isReady : Bool
deriving DecidableEq

/-- `taskFd` is when the timer fires, `lastArm` is when it was set, and `ran` are the tasks
that were run. The map is in the order of its iteration. -/
structure TimerTask where
  anonymousTaskId : UInt32
  taskMap : List (String × Task)
  taskFd : Option Int
  lastArm : Int
  made : Nat
  ran : List Nat
deriving DecidableEq

namespace TimerTask

def maxTimePoint : Int := 2 ^ 63 - 1

def timePoint (n : Int) : Option Int := if -2 ^ 63 ≤ n ∧ n ≤ maxTimePoint then some n else none

def milliseconds (n : Int) : Int := n * 1000000

def minGapMilliSeconds : Int := 100

/-- Seconds and nanoseconds. -/
def howMuchTimeLeft (now expiredPt : Int) : Option (Int × Int) := do
  let duration ← timePoint (expiredPt - now)
  let ms := duration.tdiv 1000000
  let ms := if ms < minGapMilliSeconds then minGapMilliSeconds else ms
  return (ms / 1000, ms % 1000 * 1000000)

def setupATask (s : TimerTask) (now expiredPt : Int) : Option TimerTask := do
  let (sec, nsec) ← howMuchTimeLeft now expiredPt
  return { s with taskFd := some (now + (sec * 1000000000 + nsec)), lastArm := now }

def erase (m : List (String × Task)) (key : String) : List (String × Task) := m.filter (·.1 ≠ key)

/-- The clock is read again under the mutex, when the timer is set. -/
def addTaskInternal (s : TimerTask) (armed : Int) (key : String) (expiredPt : Int) (interval : UInt32) :
    Option TimerTask := do
  let s := { s with taskMap := erase s.taskMap key }
  let needUpdateTaskfd := s.taskMap.isEmpty || s.taskMap.any (fun p => expiredPt < p.2.expiredPt)
  let s ← if needUpdateTaskfd then s.setupATask armed expiredPt else some s
  return { s with taskMap := s.taskMap ++ [(key, ⟨s.made, expiredPt, interval, false⟩)], made := s.made + 1 }

def addTask (s : TimerTask) (now armed : Int) (key : String) (interval : UInt32) : Option TimerTask := do
  s.addTaskInternal armed key (← timePoint (now + milliseconds interval.toNat)) interval

/-- The first constant of an enumeration without a scope, which is converted to an integer. -/
def memoryOrderRelaxed : UInt32 := 0

/-- `anonymous_task_id.fetch_add(arg)`. -/
def fetchAdd (s : TimerTask) (arg : UInt32) : UInt32 × TimerTask :=
  (s.anonymousTaskId, { s with anonymousTaskId := s.anonymousTaskId + arg })

def anonymousKey (taskId : UInt32) : String := "anonymous_task_" ++ toString taskId.toNat

section Anonymous

variable (s : TimerTask)

def runEvery (now armed : Int) (interval : UInt32) : Option TimerTask :=
  let (taskId, s) := s.fetchAdd memoryOrderRelaxed
  s.addTask now armed (anonymousKey taskId) interval

def runAt (armed expiredPt : Int) : Option TimerTask :=
  let (taskId, s) := s.fetchAdd memoryOrderRelaxed
  s.addTaskInternal armed (anonymousKey taskId) expiredPt 0

def runAfter (now armed : Int) (delayMs : UInt32) : Option TimerTask := do
  let expiredPt ← timePoint (now + milliseconds delayMs.toNat)
  let (taskId, s) := s.fetchAdd memoryOrderRelaxed
  s.addTaskInternal armed (anonymousKey taskId) expiredPt 0

end Anonymous

/-- `Task::exec`. -/
def exec (s : TimerTask) (id : Nat) : TimerTask :=
  { s with taskMap := s.taskMap.map fun p => (p.1, if p.2.id = id then { p.2 with isReady := true } else p.2) }

def removeTask (s : TimerTask) (key : String) : TimerTask := { s with taskMap := erase s.taskMap key }

def updateExpiredPt (now : Int) (t : Task) : Option Task := do
  return { t with expiredPt := ← timePoint (now + milliseconds t.interval.toNat) }

/-- Whether the task is run. -/
def due (now : Int) (t : Task) : Bool := t.isReady && t.expiredPt ≤ now

/-- The body of the loop that runs the tasks. -/
def runTask (now : Int) (t : Task) : Option Task :=
  if due now t ∧ t.interval ≠ 0 then updateExpiredPt now t else some t

def runTasks (now : Int) (m : List (String × Task)) : Option (List (String × Task)) :=
  m.mapM fun p => do return (p.1, ← runTask now p.2)

def toDeleteKeys (now : Int) (m : List (String × Task)) : List String :=
  (m.filter fun p => due now p.2 && p.2.interval = 0).map Prod.fst

def earliestExpiredPt (m : List (String × Task)) : Int :=
  m.foldl (fun e p => if p.2.expiredPt < e then p.2.expiredPt else e) maxTimePoint

def checkAndRunTasks (s : TimerTask) (now armed : Int) : Option TimerTask := do
  let m ← runTasks now s.taskMap
  let m := (toDeleteKeys now s.taskMap).foldl erase m
  let s := { s with
    taskMap := m
    ran := (s.taskMap.filter fun p => due now p.2).map (·.2.id) ++ s.ran }
  if earliestExpiredPt m ≠ maxTimePoint then s.setupATask armed (earliestExpiredPt m) else return s

/-- The timer has fired at `now`, and it does not fire again. -/
def poll (s : TimerTask) (now : Int) : TimerTask :=
  { s with taskFd := s.taskFd.filter (now < ·) }

/-- A call, with the times at which it reads the clock. A task is handed its function after
it was added. `check` is a turn of the loop, from the time at which its `read` returns. -/
inductive Op
  | addTask (now armed : Int) (key : String) (interval : UInt32)
  | runEvery (now armed : Int) (interval : UInt32)
  | runAt (armed expiredPt : Int)
  | runAfter (now armed : Int) (delayMs : UInt32)
  | exec (id : Nat)
  | removeTask (key : String)
  | check (polled now armed : Int)

def Op.step (s : TimerTask) : Op → Option TimerTask
  | addTask now armed key interval => s.addTask now armed key interval
  | runEvery now armed interval => s.runEvery now armed interval
  | runAt armed expiredPt => s.runAt armed expiredPt
  | runAfter now armed delayMs => s.runAfter now armed delayMs
  | exec id => some (s.exec id)
  | removeTask key => some (s.removeTask key)
  | check polled now armed => (s.poll polled).checkAndRunTasks now armed

def init : TimerTask := ⟨1, [], none, 0, 0, []⟩

section Spec

variable {s s' : TimerTask} {m m' : List (String × Task)} {p q : String × Task} {key : String} {keys : List String}
  {now armed expiredPt n : Int} {interval : UInt32}

theorem timePoint_eq {k : Int} (h : timePoint n = some k) : k = n := by
  rw [timePoint] at h
  split at h
  · exact (Option.some.inj h).symm
  · cases h

/-- The duration in whole milliseconds, towards zero. -/
theorem tdiv_million (n : Int) :
    (100 ≤ n.tdiv 1000000 → n.tdiv 1000000 * 1000000 ≤ n) ∧ (n < 101000000 → n.tdiv 1000000 ≤ 100) := by
  by_cases hn : 0 ≤ n
  · rw [Int.tdiv_eq_ediv_of_nonneg hn]
    omega
  · have hle : n.tdiv 1000000 ≤ (0 : Int).tdiv 1000000 := Int.tdiv_le_tdiv (by decide) (by omega)
    rw [Int.zero_tdiv] at hle
    omega

/-- The timer is set at `now` to fire at `d`: when the task expires, but not before the least
gap has passed. -/
structure Fires (now expiredPt d : Int) : Prop where
  le : d ≤ max expiredPt (now + milliseconds minGapMilliSeconds)
  gap : expiredPt < now + milliseconds (minGapMilliSeconds + 1) → d = now + milliseconds minGapMilliSeconds

/-- The seconds and the nanoseconds make up the whole milliseconds, or the least gap. -/
theorem howMuchTimeLeft_split {sec nsec : Int} (h : howMuchTimeLeft now expiredPt = some (sec, nsec)) :
    (0 ≤ sec ∧ 0 ≤ nsec ∧ nsec < 1000000000) ∧
      sec * 1000000000 + nsec = max ((expiredPt - now).tdiv 1000000) minGapMilliSeconds * 1000000 := by
  obtain ⟨k, hk, hms⟩ := Option.bind_eq_some_iff.1 h
  cases timePoint_eq hk
  simp only [Option.pure_def, Option.some.injEq, Prod.mk.injEq] at hms
  generalize (expiredPt - now).tdiv 1000000 = ms at hms
  have hmax : (if ms < minGapMilliSeconds then minGapMilliSeconds else ms) = max ms minGapMilliSeconds := by
    by_cases hms : ms < minGapMilliSeconds
    · rw [if_pos hms]
      exact (max_eq_right (le_of_lt hms)).symm
    · rw [if_neg hms]
      exact (max_eq_left (not_lt.1 hms)).symm
  rw [hmax] at hms
  have hgap : 0 ≤ max ms minGapMilliSeconds := le_trans (by decide) (le_max_right ms minGapMilliSeconds)
  omega

theorem setupATask_fires (h : s.setupATask now expiredPt = some s') :
    ∃ d, Fires now expiredPt d ∧ s' = { s with taskFd := some d, lastArm := now } := by
  obtain ⟨⟨sec, nsec⟩, hleft, hs⟩ := Option.bind_eq_some_iff.1 h
  cases hs
  obtain ⟨-, hsum⟩ := howMuchTimeLeft_split hleft
  obtain ⟨hle, hgap⟩ := tdiv_million (expiredPt - now)
  refine ⟨_, ⟨?_, fun hlt => ?_⟩, rfl⟩
  · rw [hsum]
    simp only [milliseconds, minGapMilliSeconds]
    omega
  · rw [hsum]
    simp only [milliseconds, minGapMilliSeconds] at hlt ⊢
    omega

theorem setupATask_isSome (s : TimerTask) (h : (timePoint (expiredPt - now)).isSome) :
    ∃ s', s.setupATask now expiredPt = some s' := by
  obtain ⟨k, hk⟩ := Option.isSome_iff_exists.1 h
  simp [setupATask, howMuchTimeLeft, hk]

theorem mem_erase : p ∈ erase m key ↔ p ∈ m ∧ p.1 ≠ key := by
  simp [erase]

theorem mem_foldl_erase : p ∈ keys.foldl erase m ↔ p ∈ m ∧ p.1 ∉ keys := by
  induction keys generalizing m with
  | nil => simp
  | cons key keys ih =>
    rw [List.foldl_cons, ih, mem_erase, List.mem_cons]
    tauto

theorem keys_erase : ((erase m key).map Prod.fst).Sublist (m.map Prod.fst) :=
  List.filter_sublist.map _

theorem foldl_erase_sublist (m : List (String × Task)) (keys : List String) : (keys.foldl erase m).Sublist m := by
  induction keys generalizing m with
  | nil => exact .refl _
  | cons key keys ih => exact (ih _).trans List.filter_sublist

/-- `need_update_taskfd`. -/
def Rearms (s : TimerTask) (key : String) (expiredPt : Int) : Prop :=
  erase s.taskMap key = [] ∨ ∃ p ∈ erase s.taskMap key, expiredPt < p.2.expiredPt

/-- What an add does. -/
structure Added (s s' : TimerTask) (armed : Int) (key : String) (expiredPt : Int) (interval : UInt32) : Prop where
  taskMap : s'.taskMap = erase s.taskMap key ++ [(key, ⟨s.made, expiredPt, interval, false⟩)]
  made : s'.made = s.made + 1
  ran : s'.ran = s.ran
  keeps : ¬ s.Rearms key expiredPt → s'.taskFd = s.taskFd ∧ s'.lastArm = s.lastArm
  sets : s.Rearms key expiredPt → ∃ d, Fires armed expiredPt d ∧ s'.taskFd = some d ∧ s'.lastArm = armed

theorem rearms_iff : s.Rearms key expiredPt ↔ ((erase s.taskMap key).isEmpty ||
    (erase s.taskMap key).any fun p => expiredPt < p.2.expiredPt) = true := by
  simp only [Rearms, Bool.or_eq_true, List.isEmpty_iff, List.any_eq_true, decide_eq_true_eq]

theorem addTaskInternal_added (h : s.addTaskInternal armed key expiredPt interval = some s') :
    Added s s' armed key expiredPt interval := by
  simp only [addTaskInternal] at h
  by_cases hneed : s.Rearms key expiredPt
  · rw [if_pos (rearms_iff.1 hneed)] at h
    obtain ⟨s₁, harm, hs⟩ := Option.bind_eq_some_iff.1 h
    obtain ⟨d, hd, rfl⟩ := setupATask_fires harm
    cases hs
    exact ⟨rfl, rfl, rfl, fun hno => absurd hneed hno, fun _ => ⟨d, hd, rfl, rfl⟩⟩
  · rw [if_neg (fun hr => hneed (rearms_iff.2 hr))] at h
    cases h
    exact ⟨rfl, rfl, rfl, fun _ => ⟨rfl, rfl⟩, fun hr => absurd hr hneed⟩

theorem addTaskInternal_isSome (interval : UInt32)
    (h : s.Rearms key expiredPt → (timePoint (expiredPt - armed)).isSome) :
    ∃ s', s.addTaskInternal armed key expiredPt interval = some s' := by
  simp only [addTaskInternal]
  by_cases hneed : s.Rearms key expiredPt
  · obtain ⟨s₁, hs₁⟩ := setupATask_isSome { s with taskMap := erase s.taskMap key } (h hneed)
    rw [if_pos (rearms_iff.1 hneed), hs₁]
    exact ⟨_, rfl⟩
  · rw [if_neg (fun hr => hneed (rearms_iff.2 hr))]
    exact ⟨_, rfl⟩

/-- The task after the loop that runs the tasks. -/
def turn (now : Int) (t : Task) : Task :=
  if due now t ∧ t.interval ≠ 0 then { t with expiredPt := now + milliseconds t.interval.toNat } else t

theorem runTask_eq {t t' : Task} (h : runTask now t = some t') : t' = turn now t := by
  rw [runTask] at h
  rw [turn]
  split at h
  · rename_i hdue
    obtain ⟨e, he, ht⟩ := Option.bind_eq_some_iff.1 h
    cases ht
    rw [if_pos hdue, timePoint_eq he]
  · rename_i hdue
    cases h
    rw [if_neg hdue]

theorem runTask_isSome {t : Task}
    (h : due now t → t.interval ≠ 0 → (timePoint (now + milliseconds t.interval.toNat)).isSome) :
    ∃ t', runTask now t = some t' := by
  rw [runTask]
  split
  · rename_i hdue
    obtain ⟨e, he⟩ := Option.isSome_iff_exists.1 (h hdue.1 hdue.2)
    rw [updateExpiredPt, he]
    exact ⟨_, rfl⟩
  · exact ⟨t, rfl⟩

theorem runTasks_eq (h : runTasks now m = some m') : m' = m.map fun p => (p.1, turn now p.2) := by
  induction m generalizing m' with
  | nil =>
    cases h
    rfl
  | cons p m ih =>
    rw [runTasks, List.mapM_cons] at h
    obtain ⟨q, hq, h⟩ := Option.bind_eq_some_iff.1 h
    obtain ⟨l, hl, h⟩ := Option.bind_eq_some_iff.1 h
    obtain ⟨t, ht, hq⟩ := Option.bind_eq_some_iff.1 hq
    cases h
    cases hq
    rw [List.map_cons, ← ih hl, runTask_eq ht]

theorem runTasks_isSome (h : ∀ p ∈ m, due now p.2 → p.2.interval ≠ 0 →
    (timePoint (now + milliseconds p.2.interval.toNat)).isSome) : ∃ m', runTasks now m = some m' := by
  induction m with
  | nil => exact ⟨[], rfl⟩
  | cons p m ih =>
    obtain ⟨m', hm'⟩ := ih fun q hq => h q (List.mem_cons_of_mem p hq)
    obtain ⟨t, ht⟩ := runTask_isSome (h p List.mem_cons_self)
    rw [runTasks] at hm' ⊢
    rw [List.mapM_cons, hm', ht]
    exact ⟨_, rfl⟩

theorem earliest_foldl_le (e : Int) : m.foldl (fun e p => if p.2.expiredPt < e then p.2.expiredPt else e) e ≤ e ∧
    ∀ p ∈ m, m.foldl (fun e p => if p.2.expiredPt < e then p.2.expiredPt else e) e ≤ p.2.expiredPt := by
  induction m generalizing e with
  | nil => simp
  | cons p m ih =>
    obtain ⟨hle, hall⟩ := ih (if p.2.expiredPt < e then p.2.expiredPt else e)
    rw [List.foldl_cons]
    have hmin : (if p.2.expiredPt < e then p.2.expiredPt else e) ≤ e ∧
        (if p.2.expiredPt < e then p.2.expiredPt else e) ≤ p.2.expiredPt := by
      split <;> constructor <;> omega
    refine ⟨le_trans hle hmin.1, fun q hq => ?_⟩
    rcases List.mem_cons.1 hq with rfl | hq
    · exact le_trans hle hmin.2
    · exact hall q hq

theorem earliest_foldl_mem (e : Int) : m.foldl (fun e p => if p.2.expiredPt < e then p.2.expiredPt else e) e = e ∨
    ∃ p ∈ m, m.foldl (fun e p => if p.2.expiredPt < e then p.2.expiredPt else e) e = p.2.expiredPt := by
  induction m generalizing e with
  | nil => exact .inl rfl
  | cons p m ih =>
    rw [List.foldl_cons]
    rcases ih (if p.2.expiredPt < e then p.2.expiredPt else e) with heq | ⟨q, hq, heq⟩
    · by_cases hlt : p.2.expiredPt < e
      · rw [if_pos hlt] at heq ⊢
        exact .inr ⟨p, List.mem_cons_self, heq⟩
      · rw [if_neg hlt] at heq ⊢
        exact .inl heq
    · exact .inr ⟨q, List.mem_cons_of_mem p hq, heq⟩

theorem earliestExpiredPt_le (hp : p ∈ m) : earliestExpiredPt m ≤ p.2.expiredPt :=
  (earliest_foldl_le _).2 p hp

theorem earliestExpiredPt_mem (h : earliestExpiredPt m ≠ maxTimePoint) :
    ∃ p ∈ m, earliestExpiredPt m = p.2.expiredPt :=
  (earliest_foldl_mem _).resolve_left h

/-- What a turn of the loop does. -/
structure Checked (s s' : TimerTask) (now armed : Int) : Prop where
  taskMap : ∀ q, q ∈ s'.taskMap ↔ ∃ p ∈ s.taskMap, p.1 ∉ toDeleteKeys now s.taskMap ∧ q = (p.1, turn now p.2)
  keys : (s'.taskMap.map Prod.fst).Sublist (s.taskMap.map Prod.fst)
  made : s'.made = s.made
  ran : s'.ran = (s.taskMap.filter fun p => due now p.2).map (·.2.id) ++ s.ran
  keeps : earliestExpiredPt s'.taskMap = maxTimePoint → s'.taskFd = s.taskFd ∧ s'.lastArm = s.lastArm
  sets : earliestExpiredPt s'.taskMap ≠ maxTimePoint →
    ∃ d, Fires armed (earliestExpiredPt s'.taskMap) d ∧ s'.taskFd = some d ∧ s'.lastArm = armed

theorem mem_after {q : String × Task} :
    q ∈ (toDeleteKeys now m).foldl erase (m.map fun p => (p.1, turn now p.2)) ↔
      ∃ p ∈ m, p.1 ∉ toDeleteKeys now m ∧ q = (p.1, turn now p.2) := by
  rw [mem_foldl_erase, List.mem_map]
  constructor
  · rintro ⟨⟨p, hp, rfl⟩, hno⟩
    exact ⟨p, hp, hno, rfl⟩
  · rintro ⟨p, hp, hno, rfl⟩
    exact ⟨⟨p, hp, rfl⟩, hno⟩

theorem checkAndRunTasks_taskMap (h : s.checkAndRunTasks now armed = some s') :
    s'.taskMap = (toDeleteKeys now s.taskMap).foldl erase (s.taskMap.map fun p => (p.1, turn now p.2)) := by
  simp only [checkAndRunTasks] at h
  obtain ⟨m, hm, h⟩ := Option.bind_eq_some_iff.1 h
  cases runTasks_eq hm
  split at h
  · obtain ⟨d, -, rfl⟩ := setupATask_fires h
    rfl
  · cases h
    rfl

theorem checkAndRunTasks_checked (h : s.checkAndRunTasks now armed = some s') : Checked s s' now armed := by
  have hmap := checkAndRunTasks_taskMap h
  have hmem : ∀ q, q ∈ s'.taskMap ↔ ∃ p ∈ s.taskMap, p.1 ∉ toDeleteKeys now s.taskMap ∧ q = (p.1, turn now p.2) := by
    intro q
    rw [hmap]
    exact mem_after
  have hkeys : (s'.taskMap.map Prod.fst).Sublist (s.taskMap.map Prod.fst) := by
    have hsub := (foldl_erase_sublist (s.taskMap.map fun p => (p.1, turn now p.2))
      (toDeleteKeys now s.taskMap)).map Prod.fst
    rwa [List.map_map, ← hmap] at hsub
  simp only [checkAndRunTasks] at h
  obtain ⟨m, -, h⟩ := Option.bind_eq_some_iff.1 h
  split at h
  · rename_i hmax
    obtain ⟨d, hd, rfl⟩ := setupATask_fires h
    exact ⟨hmem, hkeys, rfl, rfl, fun he => absurd he hmax, fun _ => ⟨d, hd, rfl, rfl⟩⟩
  · rename_i hmax
    cases h
    exact ⟨hmem, hkeys, rfl, rfl, fun _ => ⟨rfl, rfl⟩, fun he => absurd he hmax⟩

/-- The timer is set for the earliest task that is left. -/
theorem checkAndRunTasks_sets (h : s.checkAndRunTasks now armed = some s')
    (hmax : earliestExpiredPt s'.taskMap ≠ maxTimePoint) :
    ∃ sec nsec, howMuchTimeLeft armed (earliestExpiredPt s'.taskMap) = some (sec, nsec) ∧
      s'.taskFd = some (armed + (sec * 1000000000 + nsec)) ∧ s'.lastArm = armed := by
  simp only [checkAndRunTasks] at h
  obtain ⟨m, -, h⟩ := Option.bind_eq_some_iff.1 h
  split at h
  · obtain ⟨⟨sec, nsec⟩, hleft, hs⟩ := Option.bind_eq_some_iff.1 h
    cases hs
    exact ⟨sec, nsec, hleft, rfl, rfl⟩
  · rename_i hno
    cases h
    exact absurd hmax hno

theorem checkAndRunTasks_isSome
    (hrun : ∀ p ∈ s.taskMap, due now p.2 → p.2.interval ≠ 0 →
      (timePoint (now + milliseconds p.2.interval.toNat)).isSome)
    (harm : ∀ p ∈ s.taskMap, p.1 ∉ toDeleteKeys now s.taskMap →
      (∀ q ∈ s.taskMap, q.1 ∉ toDeleteKeys now s.taskMap → (turn now p.2).expiredPt ≤ (turn now q.2).expiredPt) →
      (timePoint ((turn now p.2).expiredPt - armed)).isSome) :
    ∃ s', s.checkAndRunTasks now armed = some s' := by
  obtain ⟨m, hm⟩ := runTasks_isSome hrun
  simp only [checkAndRunTasks, hm, Option.bind_eq_bind, Option.bind_some]
  cases runTasks_eq hm
  split
  · rename_i hmax
    obtain ⟨q, hq, he⟩ := earliestExpiredPt_mem hmax
    obtain ⟨p, hp, hno, rfl⟩ := mem_after.1 hq
    rw [he]
    refine setupATask_isSome _ (harm p hp hno fun q hq hnoq => ?_)
    exact he ▸ earliestExpiredPt_le (mem_after.2 ⟨q, hq, hnoq, rfl⟩)
  · exact ⟨_, rfl⟩

end Spec

end TimerTask

end Wizard
