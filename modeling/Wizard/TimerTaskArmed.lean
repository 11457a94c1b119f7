import Mathlib.Order.MinMax
import Wizard.Runs
import Wizard.TimerTask

/-! When the timer is armed. An add arms it for the new task as soon as some task expires
later, even if another one expires earlier. -/

namespace Wizard.TimerTask

variable {s s' : TimerTask} {key : String} {now armed expiredPt d : Int} {interval : UInt32}

/-- The timer fires no later than the earliest task expires and the least gap has passed
since it was armed. -/
def Armed (s : TimerTask) : Prop :=
  ∀ e, (s.taskMap.map (·.2.expiredPt)).min? = some e →
    ∃ d, s.taskFd = some d ∧ d ≤ max e (s.lastArm + milliseconds minGapMilliSeconds)

theorem armed_iff : s.Armed ↔ (s.taskMap ≠ [] → ∃ d, s.taskFd = some d ∧
    ∀ p ∈ s.taskMap, d ≤ max p.2.expiredPt (s.lastArm + milliseconds minGapMilliSeconds)) := by
  constructor
  · intro h hne
    obtain ⟨e, he⟩ : ∃ e, (s.taskMap.map (·.2.expiredPt)).min? = some e := by
      cases hm : (s.taskMap.map (·.2.expiredPt)).min? with
      | none => exact absurd (List.map_eq_nil_iff.1 (List.min?_eq_none_iff.1 hm)) hne
      | some e => exact ⟨e, rfl⟩
    obtain ⟨d, hd, hle⟩ := h e he
    refine ⟨d, hd, fun p hp => ?_⟩
    have hep : e ≤ p.2.expiredPt := (List.min?_eq_some_iff.1 he).2 _ (List.mem_map_of_mem hp)
    exact le_trans hle (max_le_max_right _ hep)
  · intro h e he
    obtain ⟨p, hp, rfl⟩ := List.mem_map.1 (List.min?_eq_some_iff.1 he).1
    obtain ⟨d, hd, hle⟩ := h (List.ne_nil_of_mem hp)
    exact ⟨d, hd, hle p hp⟩

/-- What an add is asked for: when it arms the timer, the task does not expire later than
another one, or it expires within the least gap. -/
structure Adds (s : TimerTask) (armed : Int) (key : String) (expiredPt : Int) : Prop where
  fits : s.Rearms key expiredPt → (timePoint (expiredPt - armed)).isSome
  first : s.Rearms key expiredPt → (∀ p ∈ erase s.taskMap key, expiredPt ≤ p.2.expiredPt) ∨
    expiredPt < armed + milliseconds (minGapMilliSeconds + 1)

/-- A task that is not deleted by a turn of the loop at `now`. -/
def Stays (s : TimerTask) (now : Int) (p : String × Task) : Prop :=
  p ∈ s.taskMap ∧ p.1 ∉ toDeleteKeys now s.taskMap

/-- What a turn of the loop is asked for: when the timer has fired and tasks are left, one
of them expires before `TimePoint::max()`. -/
structure Checks (s : TimerTask) (polled now armed : Int) : Prop where
  runs : ∀ p ∈ s.taskMap, due now p.2 → p.2.interval ≠ 0 →
    (timePoint (now + milliseconds p.2.interval.toNat)).isSome
  fits : ∀ p, s.Stays now p → (timePoint ((turn now p.2).expiredPt - armed)).isSome
  expires : ∀ d, s.taskFd = some d → d ≤ polled → (∃ p, s.Stays now p) →
    ∃ p, s.Stays now p ∧ (turn now p.2).expiredPt < maxTimePoint

def Op.Careful (s : TimerTask) : Op → Prop
  | addTask now armed key interval => (timePoint (now + milliseconds interval.toNat)).isSome ∧
      s.Adds armed key (now + milliseconds interval.toNat)
  | runEvery now armed interval => (timePoint (now + milliseconds interval.toNat)).isSome ∧
      s.Adds armed (anonymousKey s.anonymousTaskId) (now + milliseconds interval.toNat)
  | runAt armed expiredPt => s.Adds armed (anonymousKey s.anonymousTaskId) expiredPt
  | runAfter now armed delayMs => (timePoint (now + milliseconds delayMs.toNat)).isSome ∧
      s.Adds armed (anonymousKey s.anonymousTaskId) (now + milliseconds delayMs.toNat)
  | exec _ | removeTask _ => True
  | check polled now armed => s.Checks polled now armed

def CarefulStep (s s' : TimerTask) : Prop := ∃ op : Op, op.Careful s ∧ op.step s = some s'

/-- A task never expires earlier after a turn. -/
theorem le_turn (now : Int) (t : Task) : t.expiredPt ≤ (turn now t).expiredPt := by
  rw [turn]
  split
  · rename_i hdue
    have hle : t.expiredPt ≤ now := of_decide_eq_true (Bool.and_eq_true_iff.1 hdue.1).2
    have hnonneg : 0 ≤ milliseconds t.interval.toNat := by
      rw [milliseconds]
      omega
    change t.expiredPt ≤ now + milliseconds t.interval.toNat
    omega
  · exact le_refl _

namespace Armed

theorem added (h : s.Armed) (ha : s.Adds armed key expiredPt) (hs : Added s s' armed key expiredPt interval) :
    s'.Armed := by
  rw [armed_iff] at h ⊢
  intro _
  by_cases hr : s.Rearms key expiredPt
  · obtain ⟨d, hd, hfd, hlast⟩ := hs.sets hr
    refine ⟨d, hfd, fun p hp => ?_⟩
    rw [hlast]
    rcases ha.first hr with hall | hgap
    · have hle : expiredPt ≤ p.2.expiredPt := by
        rw [hs.taskMap, List.mem_append, List.mem_singleton] at hp
        rcases hp with hp | rfl
        · exact hall p hp
        · exact le_refl expiredPt
      exact le_trans hd.le (max_le_max_right _ hle)
    · rw [hd.gap hgap]
      exact le_max_right _ _
  · obtain ⟨hfd, hlast⟩ := hs.keeps hr
    rw [Rearms, not_or] at hr
    obtain ⟨q, hq⟩ := List.exists_mem_of_ne_nil _ hr.1
    obtain ⟨d, hd, hle⟩ := h (List.ne_nil_of_mem (mem_erase.1 hq).1)
    refine ⟨d, hfd.trans hd, fun p hp => ?_⟩
    rw [hlast]
    rw [hs.taskMap, List.mem_append, List.mem_singleton] at hp
    rcases hp with hp | rfl
    · exact hle p (mem_erase.1 hp).1
    · -- the new task is not earlier than one that was there
      have hqe : q.2.expiredPt ≤ expiredPt := not_lt.1 fun hlt => hr.2 ⟨q, hq, hlt⟩
      exact le_trans (hle q (mem_erase.1 hq).1) (max_le_max_right _ hqe)

theorem removeTask (h : s.Armed) (key : String) : (s.removeTask key).Armed := by
  rw [armed_iff] at h ⊢
  intro hne
  obtain ⟨q, hq⟩ := List.exists_mem_of_ne_nil _ hne
  obtain ⟨d, hd, hle⟩ := h (List.ne_nil_of_mem (mem_erase.1 hq).1)
  exact ⟨d, hd, fun p hp => hle p (mem_erase.1 hp).1⟩

theorem exec (h : s.Armed) (id : Nat) : (s.exec id).Armed := by
  have he : (s.exec id).taskMap.map (·.2.expiredPt) = s.taskMap.map (·.2.expiredPt) := by
    rw [TimerTask.exec, List.map_map]
    apply List.map_congr_left
    intro p _
    dsimp only [Function.comp]
    split <;> rfl
  intro e hmin
  rw [he] at hmin
  exact h e hmin

theorem check {polled : Int} (h : s.Armed) (hc : s.Checks polled now armed)
    (hs : Checked (s.poll polled) s' now armed) : s'.Armed := by
  rw [armed_iff] at h ⊢
  intro hne
  by_cases hmax : earliestExpiredPt s'.taskMap = maxTimePoint
  · obtain ⟨hfd, hlast⟩ := hs.keeps hmax
    obtain ⟨q, hq⟩ := List.exists_mem_of_ne_nil _ hne
    obtain ⟨p, hp, hstay, -⟩ := (hs.taskMap q).1 hq
    obtain ⟨d, hd, hle⟩ := h (List.ne_nil_of_mem hp)
    -- the timer has not fired, or a task would be left that expires
    have hlt : polled < d := by
      by_contra hge
      obtain ⟨r, hr, hexp⟩ := hc.expires d hd (not_lt.1 hge) ⟨p, hp, hstay⟩
      have hle' := earliestExpiredPt_le ((hs.taskMap _).2 ⟨r, hr.1, hr.2, rfl⟩)
      rw [hmax] at hle'
      exact absurd hexp (not_lt.2 hle')
    have hpoll : (s.poll polled).taskFd = some d := by simp [poll, hd, hlt]
    refine ⟨d, hfd.trans hpoll, fun q hq => ?_⟩
    obtain ⟨p, hp, -, rfl⟩ := (hs.taskMap q).1 hq
    rw [hlast]
    exact le_trans (hle p hp) (max_le_max_right _ (le_turn now p.2))
  · obtain ⟨d, hd, hfd, hlast⟩ := hs.sets hmax
    refine ⟨d, hfd, fun p hp => ?_⟩
    rw [hlast]
    exact le_trans hd.le (max_le_max_right _ (earliestExpiredPt_le hp))

theorem step {op : Op} (h : s.Armed) (hc : op.Careful s) : ∃ s', op.step s = some s' ∧ s'.Armed := by
  -- every add ends in `_add_task_internal`
  have hadd : ∀ (s₁ : TimerTask) (armed : Int) (key : String) (expiredPt : Int) (interval : UInt32),
      s₁.Armed → s₁.Adds armed key expiredPt →
        ∃ s', s₁.addTaskInternal armed key expiredPt interval = some s' ∧ s'.Armed := by
    intro s₁ armed key expiredPt interval h ha
    obtain ⟨s', hs⟩ := addTaskInternal_isSome interval ha.fits
    exact ⟨s', hs, h.added ha (addTaskInternal_added hs)⟩
  cases op with
  | addTask now armed key interval =>
    obtain ⟨hfits, ha⟩ := hc
    obtain ⟨e, he⟩ := Option.isSome_iff_exists.1 hfits
    cases timePoint_eq he
    obtain ⟨s', hs, hs'⟩ := hadd s armed key _ interval h ha
    exact ⟨s', by simp only [Op.step, TimerTask.addTask, he]; exact hs, hs'⟩
  | runEvery now armed interval =>
    obtain ⟨hfits, ha⟩ := hc
    obtain ⟨e, he⟩ := Option.isSome_iff_exists.1 hfits
    cases timePoint_eq he
    obtain ⟨s', hs, hs'⟩ := hadd (s.fetchAdd memoryOrderRelaxed).2 armed (anonymousKey s.anonymousTaskId) _ interval
      h ⟨ha.fits, ha.first⟩
    refine ⟨s', ?_, hs'⟩
    change (s.fetchAdd memoryOrderRelaxed).2.addTask now armed (anonymousKey s.anonymousTaskId) interval = some s'
    rw [TimerTask.addTask, he]
    exact hs
  | runAt armed expiredPt =>
    exact hadd (s.fetchAdd memoryOrderRelaxed).2 armed (anonymousKey s.anonymousTaskId) _ 0 h ⟨hc.fits, hc.first⟩
  | runAfter now armed delayMs =>
    obtain ⟨hfits, ha⟩ := hc
    obtain ⟨e, he⟩ := Option.isSome_iff_exists.1 hfits
    cases timePoint_eq he
    obtain ⟨s', hs, hs'⟩ := hadd (s.fetchAdd memoryOrderRelaxed).2 armed (anonymousKey s.anonymousTaskId) _ 0
      h ⟨ha.fits, ha.first⟩
    exact ⟨s', by rw [Op.step, runAfter, he]; exact hs, hs'⟩
  | exec id => exact ⟨_, rfl, h.exec id⟩
  | removeTask key => exact ⟨_, rfl, h.removeTask key⟩
  | check polled now armed =>
    obtain ⟨s', hs⟩ := checkAndRunTasks_isSome (s := s.poll polled) hc.runs fun p hp hno _ =>
      hc.fits p ⟨hp, hno⟩
    exact ⟨s', hs, h.check hc (checkAndRunTasks_checked hs)⟩

end Armed

theorem armed_of_reachable (hr : Reachable (· = init) CarefulStep s) : s.Armed := by
  apply hr.invariant
  · rintro s rfl e he
    cases he
  · rintro s s' - h ⟨op, hc, hs⟩
    obtain ⟨s'', hs', hs''⟩ := h.step hc
    rw [hs] at hs'
    cases hs'
    exact hs''

/-- While the timer is armed for the earliest task only, it is armed for the earliest task, and
every call returns. -/
theorem armed_of_careful (hr : Reachable (· = init) CarefulStep s) :
    s.Armed ∧ ∀ op : Op, op.Careful s → ∃ s', op.step s = some s' := by
  have h := armed_of_reachable hr
  refine ⟨h, fun op hc => ?_⟩
  obtain ⟨s', hs, -⟩ := h.step hc
  exact ⟨s', hs⟩

/-- A task is added to an empty timer, and then a later one. -/
theorem armed_of_careful_two : ∃ s : TimerTask, Reachable (· = init) CarefulStep s ∧
    s.taskMap.map Prod.fst = ["a", "b"] ∧ s.Armed ∧ ∀ op : Op, op.Careful s → ∃ s', op.step s = some s' := by
  have h₀ : Reachable (· = init) CarefulStep init := .of_init rfl
  have h₁ : Reachable (· = init) CarefulStep ⟨1, [("a", ⟨0, 1000000000, 1000, false⟩)], some 1000000000, 0, 1, []⟩ :=
    h₀.tail ⟨.addTask 0 0 "a" 1000, ⟨by decide, fun _ => by decide, fun _ => .inl (by simp [init, erase])⟩,
      by decide +kernel⟩
  have h₂ : Reachable (· = init) CarefulStep ⟨1, [("a", ⟨0, 1000000000, 1000, false⟩),
      ("b", ⟨1, 5000000000, 5000, false⟩)], some 1000000000, 0, 2, []⟩ := by
    refine h₁.tail ⟨.addTask 0 0 "b" 5000, ⟨by decide, fun _ => by decide, fun hr => ?_⟩, by decide +kernel⟩
    exact absurd (rearms_iff.1 hr) (by decide +kernel)
  exact ⟨_, h₂, rfl, armed_of_careful h₂⟩

/-- Tasks after one, five and three seconds: the third add arms the timer for three. -/
theorem later_task_armed : ∃ s : TimerTask, [Op.addTask 0 0 "a" 1000, .addTask 0 0 "b" 5000,
    .addTask 0 0 "c" 3000].foldlM Op.step init = some s ∧ ¬ s.Armed := by
  refine ⟨⟨1, [("a", ⟨0, 1000000000, 1000, false⟩), ("b", ⟨1, 5000000000, 5000, false⟩),
    ("c", ⟨2, 3000000000, 3000, false⟩)], some 3000000000, 0, 3, []⟩, by decide +kernel, fun h => ?_⟩
  obtain ⟨d, hd, hle⟩ := h 1000000000 (by decide)
  cases hd
  exact absurd hle (by decide)

end Wizard.TimerTask
