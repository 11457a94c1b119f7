import Mathlib.Data.List.Nodup
import Mathlib.Logic.Relation
import Wizard.Runs
import Wizard.TimerTask

/-! Anonymous tasks. The number of a task is taken by `fetch_add(std::memory_order_relaxed)`,
which adds the constant and leaves the number as it is, so that all anonymous tasks have one
key and each of them takes the place of the one before. -/

namespace Wizard.TimerTask

variable {s s' s'' : TimerTask} {op : Op} {key : String} {now armed expiredPt : Int} {interval : UInt32} {id : Nat}

/-- The interval of an anonymous task. -/
def Op.anonymous : Op → Option UInt32
  | runEvery _ _ interval => some interval
  | runAt _ _ | runAfter _ _ _ => some 0
  | _ => none

/-- Keys of users do not start like those of anonymous tasks. -/
def Op.Foreign : Op → Prop
  | addTask _ _ key _ | removeTask key => ∀ rest, key ≠ "anonymous_task_" ++ rest
  | _ => True

/-- There is no task with the key of a new anonymous task. -/
def Op.Alone (s : TimerTask) (op : Op) : Prop :=
  op.anonymous ≠ none → ∀ p ∈ s.taskMap, p.1 ≠ anonymousKey s.anonymousTaskId

def ForeignStep (s s' : TimerTask) : Prop := ∃ op : Op, op.Foreign ∧ op.step s = some s'

def AloneStep (s s' : TimerTask) : Prop := ∃ op : Op, op.Foreign ∧ op.Alone s ∧ op.step s = some s'

/-- The task is in the map, or it was to run once and has run. -/
def Kept (s : TimerTask) (id : Nat) (interval : UInt32) : Prop :=
  (∃ p ∈ s.taskMap, p.2.id = id) ∨ interval = 0 ∧ id ∈ s.ran

/-- What a call does to the state. -/
inductive Change (s s' : TimerTask) : Op → Prop
  | addTask {now armed : Int} {key : String} {interval : UInt32} {expiredPt : Int}
      (h : Added s s' armed key expiredPt interval) : Change s s' (.addTask now armed key interval)
  | anonymous {op : Op} {armed expiredPt : Int} {interval : UInt32} (ha : op.anonymous = some interval)
      (h : Added s s' armed (anonymousKey s.anonymousTaskId) expiredPt interval) : Change s s' op
  | exec (id : Nat) (h : s' = s.exec id) : Change s s' (.exec id)
  | removeTask (key : String) (h : s' = s.removeTask key) : Change s s' (.removeTask key)
  | check {polled now armed : Int} (h : Checked (s.poll polled) s' now armed) : Change s s' (.check polled now armed)

theorem Added.of_fetchAdd {arg : UInt32} (h : Added (s.fetchAdd arg).2 s' armed key expiredPt interval) :
    Added s s' armed key expiredPt interval :=
  ⟨h.taskMap, h.made, h.ran, h.keeps, h.sets⟩

theorem addTask_added (h : s.addTask now armed key interval = some s') :
    ∃ expiredPt, Added s s' armed key expiredPt interval := by
  obtain ⟨e, -, hadd⟩ := Option.bind_eq_some_iff.1 h
  exact ⟨e, addTaskInternal_added hadd⟩

theorem Op.change (h : op.step s = some s') : Change s s' op := by
  cases op with
  | addTask now armed key interval =>
    obtain ⟨e, hadd⟩ := addTask_added h
    exact .addTask hadd
  | runEvery now armed interval =>
    obtain ⟨e, hadd⟩ := addTask_added (s := (s.fetchAdd memoryOrderRelaxed).2) h
    exact .anonymous rfl hadd.of_fetchAdd
  | runAt armed expiredPt =>
    have hadd := addTaskInternal_added (s := (s.fetchAdd memoryOrderRelaxed).2) h
    exact .anonymous rfl hadd.of_fetchAdd
  | runAfter now armed delayMs =>
    obtain ⟨e, -, hadd⟩ := Option.bind_eq_some_iff.1 h
    have hadd := addTaskInternal_added (s := (s.fetchAdd memoryOrderRelaxed).2) hadd
    exact .anonymous rfl hadd.of_fetchAdd
  | exec id => exact .exec id (Option.some.inj h).symm
  | removeTask key => exact .removeTask key (Option.some.inj h).symm
  | check polled now armed => exact .check (checkAndRunTasks_checked h)

/-- No key is in the map twice. -/
def Keys (s : TimerTask) : Prop := (s.taskMap.map Prod.fst).Nodup

theorem Added.keys (hk : s.Keys) (h : Added s s' armed key expiredPt interval) : s'.Keys := by
  rw [Keys, h.taskMap, List.map_append, List.map_singleton]
  refine List.Nodup.append (hk.sublist keys_erase) (List.nodup_singleton key) ?_
  intro k hk' hkey
  rw [List.mem_singleton] at hkey
  subst hkey
  obtain ⟨p, hp, rfl⟩ := List.mem_map.1 hk'
  exact (mem_erase.1 hp).2 rfl

theorem Change.keys (hk : s.Keys) (h : Change s s' op) : s'.Keys := by
  cases h with
  | addTask h => exact h.keys hk
  | anonymous _ h => exact h.keys hk
  | exec id h =>
    subst h
    rw [Keys, TimerTask.exec, List.map_map]
    exact hk
  | removeTask key h =>
    subst h
    exact hk.sublist keys_erase
  | check h => exact hk.sublist h.keys

/-- The anonymous task is in the map under its key. -/
def Stored (s : TimerTask) (key : String) (id : Nat) (interval : UInt32) : Prop :=
  (∃ t, (key, t) ∈ s.taskMap ∧ t.id = id ∧ t.interval = interval) ∨ interval = 0 ∧ id ∈ s.ran

theorem Stored.kept (h : s.Stored key id interval) : s.Kept id interval := by
  rcases h with ⟨t, ht, hid, -⟩ | h
  · exact .inl ⟨_, ht, hid⟩
  · exact .inr h

theorem Added.stored {key' : String} {interval' : UInt32} (hs : s.Stored key id interval)
    (h : Added s s' armed key' expiredPt interval') (hne : (∃ t, (key, t) ∈ s.taskMap) → key ≠ key') :
    s'.Stored key id interval := by
  rcases hs with ⟨t, ht, hid, hint⟩ | ⟨hint, hran⟩
  · refine .inl ⟨t, ?_, hid, hint⟩
    rw [h.taskMap]
    exact List.mem_append_left _ (mem_erase.2 ⟨ht, hne ⟨t, ht⟩⟩)
  · exact .inr ⟨hint, h.ran ▸ hran⟩

theorem Checked.stored (hk : s.Keys) (hs : s.Stored key id interval) (h : Checked s s' now armed) :
    s'.Stored key id interval := by
  rcases hs with ⟨t, ht, rfl, rfl⟩ | ⟨hint, hran⟩
  · by_cases hdel : key ∈ toDeleteKeys now s.taskMap
    · -- the task that is deleted is this one, and it has run
      obtain ⟨⟨key', t'⟩, ht', rfl⟩ := List.mem_map.1 hdel
      obtain ⟨hmem, hdue⟩ := List.mem_filter.1 ht'
      have he : t' = t := by
        have hpair := List.inj_on_of_nodup_map hk hmem ht rfl
        exact (Prod.mk.inj hpair).2
      subst he
      simp only [Bool.and_eq_true, decide_eq_true_eq] at hdue
      refine .inr ⟨hdue.2, ?_⟩
      rw [h.ran]
      apply List.mem_append_left
      exact List.mem_map.2 ⟨_, List.mem_filter.2 ⟨ht, hdue.1⟩, rfl⟩
    · refine .inl ⟨turn now t, (h.taskMap _).2 ⟨_, ht, hdel, rfl⟩, ?_⟩
      rw [turn]
      split <;> exact ⟨rfl, rfl⟩
  · refine .inr ⟨hint, ?_⟩
    rw [h.ran]
    exact List.mem_append_right _ hran

theorem Change.stored {taskId : UInt32} (hk : s.Keys) (hs : s.Stored (anonymousKey taskId) id interval)
    (hf : op.Foreign) (ha : op.Alone s) (h : Change s s' op) : s'.Stored (anonymousKey taskId) id interval := by
  cases h with
  | addTask h => exact h.stored hs fun _ he => hf _ he.symm
  | anonymous hsome h =>
    apply h.stored hs
    rintro ⟨t, ht⟩
    exact ha (by rw [hsome]; exact Option.some_ne_none _) _ ht
  | exec i h =>
    subst h
    rcases hs with ⟨t, ht, hid, hint⟩ | hs
    · refine .inl ⟨_, List.mem_map.2 ⟨_, ht, rfl⟩, ?_⟩
      dsimp only
      split <;> exact ⟨hid, hint⟩
    · exact .inr hs
  | removeTask key h =>
    subst h
    rcases hs with ⟨t, ht, hid, hint⟩ | hs
    · exact .inl ⟨t, mem_erase.2 ⟨ht, fun he => hf _ he.symm⟩, hid, hint⟩
    · exact .inr hs
  | check h => exact Checked.stored (s := s.poll _) hk hs h

theorem keys_of_reachable (hr : Reachable (· = init) ForeignStep s) : s.Keys := by
  apply hr.invariant
  · rintro s rfl
    exact List.nodup_nil
  · rintro s s' - hk ⟨op, -, hs⟩
    exact (Op.change hs).keys hk

/-- An anonymous task stays until it has run, and for ever if it is periodic, when no anonymous
task is added beside another one. -/
theorem anonymous_kept (hr : Reachable (· = init) ForeignStep s) (ha : op.anonymous = some interval)
    (hs : op.step s = some s') (hrun : Relation.ReflTransGen AloneStep s' s'') : s''.Kept s.made interval := by
  have hk := keys_of_reachable hr
  have hstored : s'.Keys ∧ s'.Stored (anonymousKey s.anonymousTaskId) s.made interval := by
    refine ⟨(Op.change hs).keys hk, .inl ?_⟩
    cases Op.change hs with
    | anonymous ha' h =>
      rw [ha] at ha'
      cases ha'
      exact ⟨_, by rw [h.taskMap]; exact List.mem_append_right _ (List.mem_singleton_self _), rfl, rfl⟩
    | _ => cases ha
  have hkept : s''.Keys ∧ s''.Stored (anonymousKey s.anonymousTaskId) s.made interval := by
    induction hrun with
    | refl => exact hstored
    | tail _ hstep ih =>
      obtain ⟨op, hf, hal, hs⟩ := hstep
      exact ⟨(Op.change hs).keys ih.1, (Op.change hs).stored ih.1 ih.2 hf hal⟩
  exact hkept.2.kept

/-- A periodic task stays when it has run. -/
theorem anonymous_kept_one : ∃ s' s'' : TimerTask, (Op.runEvery 0 0 1000).step init = some s' ∧
    s''.ran = [0] ∧ s''.Kept init.made 1000 := by
  have hrun : Relation.ReflTransGen AloneStep
      ⟨1, [("anonymous_task_1", ⟨0, 1000000000, 1000, false⟩)], some 1000000000, 0, 1, []⟩
      ⟨1, [("anonymous_task_1", ⟨0, 2000000000, 1000, true⟩)], some 2000000000, 1000000000, 1, [0]⟩ :=
    .head (b := ⟨1, [("anonymous_task_1", ⟨0, 1000000000, 1000, true⟩)], some 1000000000, 0, 1, []⟩)
      ⟨.exec 0, trivial, fun h => absurd rfl h, by decide +kernel⟩
      (.single ⟨.check 1000000000 1000000000 1000000000, trivial, fun h => absurd rfl h, by decide +kernel⟩)
  have hs : (Op.runEvery 0 0 1000).step init =
      some ⟨1, [("anonymous_task_1", ⟨0, 1000000000, 1000, false⟩)], some 1000000000, 0, 1, []⟩ := by decide +kernel
  exact ⟨_, _, hs, rfl, anonymous_kept (.of_init rfl) rfl hs hrun⟩

/-- The second task takes the place of the first. -/
theorem anonymous_replaced : ∃ s s' : TimerTask, (Op.runEvery 0 0 1000).step init = some s ∧
    (Op.runEvery 0 0 2000).step s = some s' ∧ ¬ s'.Kept init.made 1000 := by
  refine ⟨⟨1, [("anonymous_task_1", ⟨0, 1000000000, 1000, false⟩)], some 1000000000, 0, 1, []⟩,
    ⟨1, [("anonymous_task_1", ⟨1, 2000000000, 2000, false⟩)], some 2000000000, 0, 2, []⟩, by decide +kernel,
    by decide +kernel, ?_⟩
  rintro (⟨p, hp, hid⟩ | ⟨hint, -⟩)
  · rw [List.mem_singleton.1 hp] at hid
    cases hid
  · cases hint

end Wizard.TimerTask
