import Mathlib.Data.List.Count
import Wizard.TimerTaskAnonymous

/-! One round of the timer. The loops over the map run what is due, delete what has run for
the last time, and look for the earliest of the others. `TimePoint::max()` stands for an
empty map. -/

namespace Wizard.TimerTask

variable {s s' : TimerTask} {op : Op} {m : List (String × Task)} {p q : String × Task} {key : String}
  {now armed expiredPt e : Int} {interval : UInt32}

/-- Keys and tasks are all different, and every task has a time point. -/
structure TaskMap (m : List (String × Task)) : Prop where
  keys : (m.map Prod.fst).Nodup
  ids : (m.map (·.2.id)).Nodup
  fits : ∀ p ∈ m, (timePoint p.2.expiredPt).isSome

/-- What a round at `now` is to do that sets the timer at `armed`. -/
structure Round (m : List (String × Task)) (now armed : Int) (s s' : TimerTask) : Prop where
  ran : ∃ l, s'.ran = l ++ s.ran ∧
    ∀ id, l.count id = if ∃ p ∈ m, p.2.id = id ∧ p.2.isReady ∧ p.2.expiredPt ≤ now then 1 else 0
  once : ∀ p ∈ m, p.2.isReady → p.2.expiredPt ≤ now → p.2.interval = 0 → p.1 ∉ s'.taskMap.map Prod.fst
  periodic : ∀ p ∈ m, p.2.isReady → p.2.expiredPt ≤ now → p.2.interval ≠ 0 →
    (p.1, { p.2 with expiredPt := now + milliseconds p.2.interval.toNat }) ∈ s'.taskMap
  others : ∀ p ∈ m, ¬ (p.2.isReady ∧ p.2.expiredPt ≤ now) → p ∈ s'.taskMap
  keys : (s'.taskMap.map Prod.fst).Sublist (m.map Prod.fst)
  armed : ∀ e, (s'.taskMap.map (·.2.expiredPt)).min? = some e →
    ∃ sec nsec, howMuchTimeLeft armed e = some (sec, nsec) ∧ (0 ≤ sec ∧ 0 ≤ nsec ∧ nsec < 1000000000) ∧
      sec * 1000000000 + nsec = max ((e - armed).tdiv 1000000) 100 * 1000000 ∧
      s'.taskFd = some (armed + (sec * 1000000000 + nsec)) ∧ s'.lastArm = armed

/-- Whatever the timer was set to before, and whatever was run. -/
def RoundRight (m : List (String × Task)) (now armed : Int) : Prop :=
  ∀ s : TimerTask, s.taskMap = m → ∃ s', s.checkAndRunTasks now armed = some s' ∧ Round m now armed s s'

/-- The task is not deleted by a round. -/
def Remains (now : Int) (t : Task) : Prop := ¬ (due now t ∧ t.interval = 0)

/-- The new expiries are time points, and the earliest task that remains expires at a time
that is not `TimePoint::max()` and whose distance is one. -/
structure Timely (m : List (String × Task)) (now armed : Int) : Prop where
  runs : ∀ p ∈ m, due now p.2 → p.2.interval ≠ 0 → (timePoint (now + milliseconds p.2.interval.toNat)).isSome
  left : ∀ p ∈ m, Remains now p.2 →
    (∀ q ∈ m, Remains now q.2 → (turn now p.2).expiredPt ≤ (turn now q.2).expiredPt) →
    (turn now p.2).expiredPt ≠ maxTimePoint ∧ (timePoint ((turn now p.2).expiredPt - armed)).isSome

theorem due_iff {t : Task} : due now t ↔ t.isReady ∧ t.expiredPt ≤ now := by
  rw [due, Bool.and_eq_true, decide_eq_true_eq]

namespace TaskMap

theorem mem_toDeleteKeys (hm : TaskMap m) (hp : p ∈ m) : p.1 ∉ toDeleteKeys now m ↔ Remains now p.2 := by
  rw [Remains, not_iff_not, toDeleteKeys, List.mem_map]
  constructor
  · rintro ⟨q, hq, he⟩
    obtain ⟨hq, hdue⟩ := List.mem_filter.1 hq
    obtain rfl := List.inj_on_of_nodup_map hm.keys hq hp he
    simpa using hdue
  · intro h
    exact ⟨p, List.mem_filter.2 ⟨hp, by simpa using h⟩, rfl⟩

theorem count_due (hm : TaskMap m) (id : Nat) : ((m.filter fun p => due now p.2).map (·.2.id)).count id =
    if ∃ p ∈ m, p.2.id = id ∧ p.2.isReady ∧ p.2.expiredPt ≤ now then 1 else 0 := by
  have hnodup : ((m.filter fun p => due now p.2).map (·.2.id)).Nodup :=
    hm.ids.sublist (List.filter_sublist.map _)
  have hmem : id ∈ (m.filter fun p => due now p.2).map (·.2.id) ↔
      ∃ p ∈ m, p.2.id = id ∧ p.2.isReady ∧ p.2.expiredPt ≤ now := by
    simp only [List.mem_map, List.mem_filter, due_iff]
    constructor
    · rintro ⟨p, ⟨hp, hdue⟩, he⟩
      exact ⟨p, hp, he, hdue⟩
    · rintro ⟨p, hp, he, hdue⟩
      exact ⟨p, ⟨hp, hdue⟩, he⟩
  split
  · rename_i h
    exact List.count_eq_one_of_mem hnodup (hmem.2 h)
  · rename_i h
    exact List.count_eq_zero.2 (mt hmem.1 h)

theorem mem_taskMap (hm : TaskMap s.taskMap) (hs : Checked s s' now armed) :
    q ∈ s'.taskMap ↔ ∃ p ∈ s.taskMap, Remains now p.2 ∧ q = (p.1, turn now p.2) := by
  rw [hs.taskMap]
  exact exists_congr fun p => and_congr_right fun hp => and_congr_left fun _ => hm.mem_toDeleteKeys hp

end TaskMap

theorem turn_of_not_due {t : Task} (h : ¬ due now t) : turn now t = t := by
  rw [turn, if_neg fun hd => h hd.1]

/-- The earliest expiry is the least one when the timer is set. -/
theorem earliestExpiredPt_eq (he : (m.map (·.2.expiredPt)).min? = some e) (hle : e ≤ maxTimePoint) :
    earliestExpiredPt m = e := by
  obtain ⟨hmem, hmin⟩ := List.min?_eq_some_iff.1 he
  obtain ⟨p, hp, rfl⟩ := List.mem_map.1 hmem
  refine le_antisymm (earliestExpiredPt_le hp) ?_
  by_cases hmax : earliestExpiredPt m = maxTimePoint
  · rwa [hmax]
  · obtain ⟨q, hq, heq⟩ := earliestExpiredPt_mem hmax
    rw [heq]
    exact hmin _ (List.mem_map_of_mem hq)

theorem timePoint_le {k : Int} (h : (timePoint k).isSome) : k ≤ maxTimePoint := by
  rw [timePoint] at h
  split at h
  · rename_i hk
    exact hk.2
  · cases h

/-- A task that remains has a time point again. -/
theorem turn_fits {t : Task} (ht : (timePoint t.expiredPt).isSome)
    (hrun : due now t → t.interval ≠ 0 → (timePoint (now + milliseconds t.interval.toNat)).isSome) :
    (turn now t).expiredPt ≤ maxTimePoint := by
  rw [turn]
  split
  · rename_i hdue
    exact timePoint_le (hrun hdue.1 hdue.2)
  · exact timePoint_le ht

theorem Round.of_timely (hm : TaskMap m) (ht : Timely m now armed) : RoundRight m now armed := by
  rintro s rfl
  have hsome : ∃ s', s.checkAndRunTasks now armed = some s' :=
    checkAndRunTasks_isSome ht.runs fun p hp hno hmin => (ht.left p hp ((hm.mem_toDeleteKeys hp).1 hno)
      fun q hq hr => hmin q hq ((hm.mem_toDeleteKeys hq).2 hr)).2
  obtain ⟨s', hs⟩ := hsome
  have hc := checkAndRunTasks_checked hs
  refine ⟨s', hs, ⟨⟨_, hc.ran, hm.count_due⟩, ?_, ?_, ?_, hc.keys, ?_⟩⟩
  · intro p hp hready hle hint hmem
    obtain ⟨q, hq, he⟩ := List.mem_map.1 hmem
    obtain ⟨p', hp', hno, rfl⟩ := (hm.mem_taskMap hc).1 hq
    obtain rfl := List.inj_on_of_nodup_map hm.keys hp' hp he
    exact hno ⟨due_iff.2 ⟨hready, hle⟩, hint⟩
  · intro p hp hready hle hint
    refine (hm.mem_taskMap hc).2 ⟨p, hp, fun h => hint h.2, ?_⟩
    rw [turn, if_pos ⟨due_iff.2 ⟨hready, hle⟩, hint⟩]
  · intro p hp hno
    refine (hm.mem_taskMap hc).2 ⟨p, hp, fun h => hno (due_iff.1 h.1), ?_⟩
    rw [turn_of_not_due (mt due_iff.1 hno)]
  · intro e he
    obtain ⟨hmem, hmin⟩ := List.min?_eq_some_iff.1 he
    obtain ⟨q, hq, rfl⟩ := List.mem_map.1 hmem
    obtain ⟨p, hp, hr, rfl⟩ := (hm.mem_taskMap hc).1 hq
    have hfits := turn_fits (hm.fits p hp) (ht.runs p hp)
    have hne := (ht.left p hp hr fun q hq hr' =>
      hmin _ (List.mem_map_of_mem ((hm.mem_taskMap hc).2 ⟨q, hq, hr', rfl⟩))).1
    have heq := earliestExpiredPt_eq he hfits
    obtain ⟨sec, nsec, hleft, hfd, hlast⟩ := checkAndRunTasks_sets hs (heq ▸ hne)
    rw [heq] at hleft
    obtain ⟨hsplit, hsum⟩ := howMuchTimeLeft_split hleft
    exact ⟨sec, nsec, hleft, hsplit, hsum, hfd, hlast⟩

theorem runTasks_runs {m' : List (String × Task)} (h : runTasks now m = some m') (hp : p ∈ m) (hdue : due now p.2)
    (hint : p.2.interval ≠ 0) : (timePoint (now + milliseconds p.2.interval.toNat)).isSome := by
  induction m generalizing m' with
  | nil => cases hp
  | cons q m ih =>
    rw [runTasks, List.mapM_cons] at h
    obtain ⟨q', hq, h⟩ := Option.bind_eq_some_iff.1 h
    obtain ⟨l, hl, -⟩ := Option.bind_eq_some_iff.1 h
    obtain rfl | hp := List.mem_cons.1 hp
    · obtain ⟨t, ht, -⟩ := Option.bind_eq_some_iff.1 hq
      rw [runTask, if_pos ⟨hdue, hint⟩] at ht
      obtain ⟨k, hk, -⟩ := Option.bind_eq_some_iff.1 ht
      rw [hk]
      rfl
    · exact ih hl hp

section Reachable

/-- The time that a caller gives is a time point. -/
def Op.Representable : Op → Prop
  | runAt _ expiredPt => (timePoint expiredPt).isSome
  | _ => True

/-- The map of a timer, with a task for every number below `made` at most. -/
def Numbered (s : TimerTask) : Prop := TaskMap s.taskMap ∧ ∀ p ∈ s.taskMap, p.2.id < s.made

theorem timePoint_isSome {k n : Int} (h : timePoint n = some k) : (timePoint k).isSome := by
  rw [timePoint_eq h, h]
  rfl

theorem Numbered.added (hn : s.Numbered) (he : (timePoint expiredPt).isSome)
    (h : Added s s' armed key expiredPt interval) : s'.Numbered := by
  obtain ⟨hm, hlt⟩ := hn
  have hold : ∀ p ∈ erase s.taskMap key, p.2.id < s.made := fun p hp => hlt p (mem_erase.1 hp).1
  refine ⟨⟨Added.keys hm.keys h, ?_, ?_⟩, ?_⟩
  · rw [h.taskMap, List.map_append, List.map_singleton]
    refine List.Nodup.append (hm.ids.sublist (List.filter_sublist.map _)) (List.nodup_singleton _) ?_
    intro id hid hid'
    obtain ⟨p, hp, rfl⟩ := List.mem_map.1 hid
    rw [List.mem_singleton] at hid'
    exact Nat.ne_of_lt (hold p hp) hid'
  · rw [h.taskMap]
    intro p hp
    obtain hp | hp := List.mem_append.1 hp
    · exact hm.fits p (mem_erase.1 hp).1
    · obtain rfl := List.mem_singleton.1 hp
      exact he
  · rw [h.taskMap, h.made]
    intro p hp
    obtain hp | hp := List.mem_append.1 hp
    · exact Nat.lt_succ_of_lt (hold p hp)
    · obtain rfl := List.mem_singleton.1 hp
      exact Nat.lt_succ_self _

theorem Numbered.checked (hn : s.Numbered) (hs : s.checkAndRunTasks now armed = some s')
    (h : Checked s s' now armed) : s'.Numbered := by
  obtain ⟨hm, hlt⟩ := hn
  obtain ⟨m, hrun, -⟩ := Option.bind_eq_some_iff.1 hs
  have hid : ∀ t : Task, (turn now t).id = t.id := fun t => by
    rw [turn]
    split <;> rfl
  refine ⟨⟨hm.keys.sublist h.keys, ?_, ?_⟩, ?_⟩
  · have hsub := (foldl_erase_sublist (s.taskMap.map fun p => (p.1, turn now p.2))
      (toDeleteKeys now s.taskMap)).map (·.2.id)
    rw [← checkAndRunTasks_taskMap hs, List.map_map] at hsub
    simp only [Function.comp_def, hid] at hsub
    exact hm.ids.sublist hsub
  · intro q hq
    obtain ⟨p, hp, -, rfl⟩ := (hm.mem_taskMap h).1 hq
    rw [turn]
    split
    · rename_i hdue
      exact runTasks_runs hrun hp hdue.1 hdue.2
    · exact hm.fits p hp
  · intro q hq
    obtain ⟨p, hp, -, rfl⟩ := (hm.mem_taskMap h).1 hq
    rw [hid, h.made]
    exact hlt p hp

theorem Numbered.step (hn : s.Numbered) (hop : op.Representable) (hs : op.step s = some s') : s'.Numbered := by
  cases op with
  | addTask now armed key interval =>
    obtain ⟨e, he, hadd⟩ := Option.bind_eq_some_iff.1 hs
    exact hn.added (timePoint_isSome he) (addTaskInternal_added hadd)
  | runEvery now armed interval =>
    obtain ⟨e, he, hadd⟩ := Option.bind_eq_some_iff.1 hs
    exact hn.added (timePoint_isSome he) (addTaskInternal_added hadd).of_fetchAdd
  | runAt armed expiredPt => exact hn.added hop (addTaskInternal_added hs).of_fetchAdd
  | runAfter now armed delayMs =>
    obtain ⟨e, he, hadd⟩ := Option.bind_eq_some_iff.1 hs
    exact hn.added (timePoint_isSome he) (addTaskInternal_added hadd).of_fetchAdd
  | exec id =>
    cases hs
    obtain ⟨hm, hlt⟩ := hn
    -- only `is_ready` changes
    have hsame : ∀ p ∈ (s.exec id).taskMap, ∃ q ∈ s.taskMap, p.2.id = q.2.id ∧ p.2.expiredPt = q.2.expiredPt := by
      intro p hp
      obtain ⟨q, hq, rfl⟩ := List.mem_map.1 hp
      refine ⟨q, hq, ?_⟩
      dsimp only
      split <;> exact ⟨rfl, rfl⟩
    have hids : (s.exec id).taskMap.map (·.2.id) = s.taskMap.map (·.2.id) := by
      rw [exec, List.map_map]
      refine List.map_congr_left fun p _ => ?_
      dsimp only [Function.comp]
      split <;> rfl
    refine ⟨⟨?_, hids ▸ hm.ids, fun p hp => ?_⟩, fun p hp => ?_⟩
    · rw [exec, List.map_map]
      exact hm.keys
    · obtain ⟨q, hq, -, he⟩ := hsame p hp
      rw [he]
      exact hm.fits q hq
    · obtain ⟨q, hq, he, -⟩ := hsame p hp
      rw [he]
      exact hlt q hq
  | removeTask key =>
    cases hs
    obtain ⟨hm, hlt⟩ := hn
    exact ⟨⟨hm.keys.sublist keys_erase, hm.ids.sublist (List.filter_sublist.map _),
      fun p hp => hm.fits p (mem_erase.1 hp).1⟩, fun p hp => hlt p (mem_erase.1 hp).1⟩
  | check polled now armed =>
    exact Numbered.checked (s := s.poll polled) hn hs (checkAndRunTasks_checked hs)

def RepresentableStep (s s' : TimerTask) : Prop := ∃ op : Op, op.Representable ∧ op.step s = some s'

/-- The map of a timer is always a task map. -/
theorem taskMap_of_reachable (hr : Reachable (· = init) RepresentableStep s) : TaskMap s.taskMap := by
  have hn : s.Numbered := by
    apply hr.invariant
    · rintro s rfl
      exact ⟨⟨List.nodup_nil, List.nodup_nil, by simp [init]⟩, by simp [init]⟩
    · rintro s s' - hn ⟨op, hop, hs⟩
      exact hn.step hop hs
  exact hn.1

end Reachable

theorem Timely.of_right (hm : TaskMap m) (hr : RoundRight m now armed) : Timely m now armed := by
  obtain ⟨s', hs, hround⟩ := hr ⟨1, m, none, 0, 0, []⟩ rfl
  have hc := checkAndRunTasks_checked hs
  have hruns : ∀ p ∈ m, due now p.2 → p.2.interval ≠ 0 →
      (timePoint (now + milliseconds p.2.interval.toNat)).isSome := by
    intro p hp hdue hint
    obtain ⟨m', hm', -⟩ := Option.bind_eq_some_iff.1 hs
    exact runTasks_runs hm' hp hdue hint
  refine ⟨hruns, fun p hp hrem hmin => ?_⟩
  have he : (s'.taskMap.map (·.2.expiredPt)).min? = some (turn now p.2).expiredPt := by
    refine List.min?_eq_some_iff.2 ⟨?_, fun e he => ?_⟩
    · exact List.mem_map.2 ⟨_, (hm.mem_taskMap hc).2 ⟨p, hp, hrem, rfl⟩, rfl⟩
    · obtain ⟨q', hq', rfl⟩ := List.mem_map.1 he
      obtain ⟨q, hq, hrem', rfl⟩ := (hm.mem_taskMap hc).1 hq'
      exact hmin q hq hrem'
  have heq := earliestExpiredPt_eq he (turn_fits (hm.fits p hp) (hruns p hp))
  obtain ⟨sec, nsec, hleft, -, -, hfd, -⟩ := hround.armed _ he
  refine ⟨fun hmax => ?_, ?_⟩
  · -- the timer would not be set
    rw [hmax] at heq
    rw [(hc.keeps heq).1] at hfd
    cases hfd
  · obtain ⟨k, hk, -⟩ := Option.bind_eq_some_iff.1 hleft
    rw [hk]
    rfl

/-- A round runs each due task once and sets the timer for the earliest of the others if and
only if the times fit and the earliest one is not taken for an empty map. -/
theorem round_iff_timely (hm : TaskMap m) : RoundRight m now armed ↔ Timely m now armed :=
  ⟨Timely.of_right hm, Round.of_timely hm⟩

/-- A task that runs once and one that is not ready. -/
theorem round_iff_timely_two : TaskMap [("a", ⟨0, 5, 0, true⟩), ("b", ⟨1, 3, 1000, false⟩)] ∧
    (RoundRight [("a", ⟨0, 5, 0, true⟩), ("b", ⟨1, 3, 1000, false⟩)] 7 8 ↔
      Timely [("a", ⟨0, 5, 0, true⟩), ("b", ⟨1, 3, 1000, false⟩)] 7 8) := by
  have hm : TaskMap [("a", ⟨0, 5, 0, true⟩), ("b", ⟨1, 3, 1000, false⟩)] :=
    ⟨by decide, by decide, by decide⟩
  exact ⟨hm, round_iff_timely hm⟩

/-- The timer has fired for the first task, and it is not set for the other one, which is at
`TimePoint::max()`. -/
theorem last_task_unarmed : TaskMap [("k", ⟨0, 0, 0, true⟩), ("anonymous_task_1", ⟨1, maxTimePoint, 0, true⟩)] ∧
    ¬ RoundRight [("k", ⟨0, 0, 0, true⟩), ("anonymous_task_1", ⟨1, maxTimePoint, 0, true⟩)] 100000000 100000000 := by
  refine ⟨⟨by decide, by decide, by decide⟩, fun h => ?_⟩
  obtain ⟨s', hs, hround⟩ := h ⟨1, [("k", ⟨0, 0, 0, true⟩), ("anonymous_task_1", ⟨1, maxTimePoint, 0, true⟩)],
    none, 0, 2, []⟩ rfl
  have hs' : checkAndRunTasks ⟨1, [("k", ⟨0, 0, 0, true⟩), ("anonymous_task_1", ⟨1, maxTimePoint, 0, true⟩)],
      none, 0, 2, []⟩ 100000000 100000000 =
      some ⟨1, [("anonymous_task_1", ⟨1, maxTimePoint, 0, true⟩)], none, 0, 2, [0]⟩ := by
    decide +kernel
  rw [hs] at hs'
  cases hs'
  obtain ⟨sec, nsec, -, -, -, hfd, -⟩ := hround.armed maxTimePoint rfl
  cases hfd

end Wizard.TimerTask
