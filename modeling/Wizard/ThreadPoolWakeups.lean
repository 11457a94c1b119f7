import Wizard.Exclusion
import Wizard.ThreadPool

/-! Wake-ups. `enqueue` sends its notification without the mutex, so it may come when a
worker has seen an empty queue and does not sleep yet. With a second worker there is
always one that looks at the queue again. -/

namespace Wizard.ThreadPool

variable {n : Nat} {C : Type*}

def WorkerPc.Inside : WorkerPc → Prop
  | .check | .sleep | .decide | .unlock _ => True
  | _ => False

def CallerPc.Inside : CallerPc → Prop
  | .stopCheck | .stopUnlock _ => True
  | _ => False

def State.Inside (s : State n C) : Fin n ⊕ C → Prop
  | .inl w => (s.worker w).Inside
  | .inr c => (s.caller c).Inside

/-- The worker has ended, or it is about to. -/
def WorkerPc.Leaving : WorkerPc → Prop
  | .unlock exits => exits = true
  | .exited => True
  | _ => False

/-- The worker will look at the queue or take tasks from it. -/
def WorkerPc.Awake : WorkerPc → Prop
  | .sleep | .blocked | .exited => False
  | .unlock exits => exits = false
  | _ => True

/-- A task is there, everybody sleeps and nobody is about to be woken. -/
structure Lost (s : State n C) : Prop where
  running : s.isStop = false
  tasks : s.tasks ≠ []
  blocked : ∀ w, s.worker w = .blocked
  silent : ∀ c, s.caller c ≠ .notifyAll ∧ ∀ task, s.caller c ≠ .notify task

variable [DecidableEq C] {s s' : State n C} {graceful : Bool}

/-- An `enqueue` that notifies meets a worker that is not between a false predicate and
its sleep. -/
def Timely (s s' : State n C) : Prop :=
  ∀ c task, s.caller c = .notify task → s'.caller c ≠ .notify task → ∃ w, s.worker w ≠ .sleep

def TimelyStep (graceful : Bool) (s s' : State n C) : Prop := Step graceful s s' ∧ Timely s s'

section Mutex

omit [DecidableEq C] in
theorem inside_worker_of_ne {w : Fin n} {pc : WorkerPc} {a : Fin n ⊕ C} (ha : a ≠ .inl w) :
    (s.setWorker w pc).Inside a ↔ s.Inside a := by
  cases a with
  | inl v =>
    have hv : v ≠ w := fun he => ha (he ▸ rfl)
    simp [State.Inside, State.setWorker, hv]
  | inr c => rfl

omit [DecidableEq C] in
theorem inside_worker_self {w : Fin n} {pc : WorkerPc} : (s.setWorker w pc).Inside (.inl w) ↔ pc.Inside := by
  simp [State.Inside, State.setWorker]

theorem inside_caller_of_ne {c : C} {pc : CallerPc} {a : Fin n ⊕ C} (ha : a ≠ .inr c) :
    (s.setCaller c pc).Inside a ↔ s.Inside a := by
  cases a with
  | inl w => rfl
  | inr b =>
    have hb : b ≠ c := fun he => ha (he ▸ rfl)
    simp [State.Inside, State.setCaller, hb]

theorem inside_caller_self {c : C} {pc : CallerPc} : (s.setCaller c pc).Inside (.inr c) ↔ pc.Inside := by
  simp [State.Inside, State.setCaller]

omit [DecidableEq C] in
/-- A worker that does not come in leaves the mutex as it is. -/
theorem inside_worker {w : Fin n} {pc : WorkerPc} (hpc : pc.Inside → (s.worker w).Inside) (a : Fin n ⊕ C)
    (ha : (s.setWorker w pc).Inside a) : s.Inside a := by
  by_cases haw : a = .inl w
  · rw [haw] at ha ⊢
    exact hpc (inside_worker_self.1 ha)
  · exact (inside_worker_of_ne haw).1 ha

theorem inside_caller {c : C} {pc : CallerPc} (hpc : pc.Inside → (s.caller c).Inside) (a : Fin n ⊕ C)
    (ha : (s.setCaller c pc).Inside a) : s.Inside a := by
  by_cases hac : a = .inr c
  · rw [hac] at ha ⊢
    exact hpc (inside_caller_self.1 ha)
  · exact (inside_caller_of_ne hac).1 ha

omit [DecidableEq C] in
theorem WorkerStep.exclusive {w : Fin n} (hs : WorkerStep graceful w s s') (h : Exclusive s.mutex s.Inside) :
    Exclusive s'.mutex s'.Inside := by
  cases hs with
  | lock hw hm =>
    rw [hm] at h
    exact h.acquire fun a ha => (inside_worker_of_ne ha).1
  | check hw => exact h.mono (inside_worker fun _ => by rw [hw]; trivial)
  | sleep hw =>
    have hin : s.Inside (.inl w) := by rw [State.Inside, hw]; trivial
    exact h.release hin (fun hh => inside_worker_self.1 hh) fun a ha => (inside_worker_of_ne ha).1
  | decide hw => exact h.mono (inside_worker fun _ => by rw [hw]; trivial)
  | unlock exits hw =>
    have hin : s.Inside (.inl w) := by rw [State.Inside, hw]; trivial
    refine h.release hin (fun hh => ?_) fun a ha => (inside_worker_of_ne ha).1
    have hpc := inside_worker_self.1 hh
    cases exits
    · exact hpc
    · exact hpc
  | _ => exact h.mono (inside_worker (by rintro ⟨⟩))

theorem CallerStep.exclusive {c : C} (hs : CallerStep c s s') (h : Exclusive s.mutex s.Inside) :
    Exclusive s'.mutex s'.Inside := by
  cases hs with
  | notifyOne task w hc hw =>
    refine h.mono fun a ha => ?_
    have ha' : (s.setWorker w .lock).Inside a := inside_caller (by rintro ⟨⟩) a ha
    exact inside_worker (by rintro ⟨⟩) a ha'
  | stopLock hc hm =>
    rw [hm] at h
    exact h.acquire fun a ha => (inside_caller_of_ne ha).1
  | stopFound hc hst => exact h.mono (inside_caller fun _ => by rw [hc]; trivial)
  | stopSet hc hst => exact h.mono (inside_caller fun _ => by rw [hc]; trivial)
  | stopUnlock first hc =>
    have hin : s.Inside (.inr c) := by rw [State.Inside, hc]; trivial
    refine h.release hin (fun hh => ?_) fun a ha => (inside_caller_of_ne ha).1
    have hpc := inside_caller_self.1 hh
    cases first
    · exact hpc
    · exact hpc
  | notifyAll hc =>
    have hwake : ∀ pc, (wake pc).Inside → pc.Inside := by
      intro pc hpc
      cases pc <;> exact hpc
    refine h.mono fun a ha => ?_
    have ha' : { s with worker := fun w => wake (s.worker w) }.Inside a := inside_caller (by rintro ⟨⟩) a ha
    cases a with
    | inl w => exact hwake _ ha'
    | inr b => exact ha'
  | _ => exact h.mono (inside_caller (by rintro ⟨⟩))

omit [DecidableEq C] in
theorem Init.exclusive (h : Init s) : Exclusive s.mutex s.Inside := by
  intro a ha
  cases a with
  | inl w =>
    rw [State.Inside, h.worker w] at ha
    exact ha.elim
  | inr c =>
    rw [State.Inside, h.caller c] at ha
    exact ha.elim

end Mutex

section Halt

/-- Nobody leaves before the pool stops. -/
def Halting (s : State n C) : Prop := ∀ w, (s.worker w).Leaving → s.isStop = true

omit [DecidableEq C] in
theorem Halting.worker {w : Fin n} {pc : WorkerPc} (h : Halting s) (hstop : s'.isStop = s.isStop)
    (hworker : s'.worker = Function.update s.worker w pc) (hl : pc.Leaving → s.isStop = true) : Halting s' := by
  rw [Halting, hworker, hstop]
  exact (Function.forall_update_iff s.worker (p := fun _ x => x.Leaving → s.isStop = true)).2 ⟨hl, fun v _ => h v⟩

omit [DecidableEq C] in
theorem WorkerStep.halting {w : Fin n} (hs : WorkerStep graceful w s s') (h : Halting s) : Halting s' := by
  cases hs with
  | check hw =>
    refine h.worker rfl rfl fun hl => ?_
    split at hl
    · exact hl.elim
    · exact hl.elim
  | decide hw => exact h.worker rfl rfl fun hl => (Bool.and_eq_true_iff.1 hl).1
  | unlock exits hw =>
    refine h.worker rfl rfl fun hl => h w ?_
    rw [hw]
    cases exits
    · exact hl.elim
    · rfl
  | _ => exact h.worker rfl rfl (by rintro ⟨⟩)

theorem CallerStep.halting {c : C} (hs : CallerStep c s s') (h : Halting s) : Halting s' := by
  cases hs with
  | notifyOne task w hc hw =>
    have hh : Halting (s.setWorker w .lock) := h.worker rfl rfl (by rintro ⟨⟩)
    exact hh
  | stopSet hc hst => exact fun _ _ => rfl
  | notifyAll hc =>
    intro w hw
    apply h w
    change (wake (s.worker w)).Leaving at hw
    cases hpc : s.worker w with
    | blocked =>
      rw [hpc] at hw
      exact hw.elim
    | _ =>
      rw [hpc] at hw
      exact hw
  | _ => exact h

omit [DecidableEq C] in
theorem Init.halting (h : Init s) : Halting s := by
  intro w hw
  rw [h.worker w] at hw
  exact hw.elim

end Halt

section Watch

/-- While the pool runs, somebody will look after the tasks. -/
def Watched (s : State n C) : Prop :=
  s.isStop = false → s.tasks ≠ [] → (∃ c task, s.caller c = .notify task) ∨ ∃ w, (s.worker w).Awake

omit [DecidableEq C] in
theorem Watched.not_lost (h : Watched s) : ¬ Lost s := by
  intro hl
  rcases h hl.running hl.tasks with ⟨c, task, hc⟩ | ⟨w, hw⟩
  · exact (hl.silent c).2 task hc
  · rw [hl.blocked w] at hw
    exact hw

omit [DecidableEq C] in
/-- A worker that takes care of the tasks goes on to do so. -/
theorem Watched.worker {w : Fin n} {pc : WorkerPc} (h : Watched s) (hstop : s'.isStop = s.isStop)
    (hcaller : s'.caller = s.caller) (hworker : s'.worker = Function.update s.worker w pc)
    (htasks : s'.tasks ≠ [] → s.tasks ≠ [])
    (ha : s.isStop = false → s'.tasks ≠ [] → (s.worker w).Awake → pc.Awake) : Watched s' := by
  intro hrun ht
  rw [hstop] at hrun
  rw [hcaller, hworker]
  rcases h hrun (htasks ht) with hn | ⟨v, hv⟩
  · exact .inl hn
  · refine .inr ⟨v, ?_⟩
    by_cases hvw : v = w
    · rw [hvw] at hv ⊢
      rw [Function.update_self]
      exact ha hrun ht hv
    · rw [Function.update_of_ne hvw]
      exact hv

omit [DecidableEq C] in
theorem WorkerStep.watched {w : Fin n} (hs : WorkerStep graceful w s s') (h : Watched s) : Watched s' := by
  cases hs with
  | check hw =>
    refine h.worker rfl rfl rfl id fun _ ht _ => ?_
    rw [if_pos (.inr (List.length_pos_of_ne_nil ht))]
    trivial
  | sleep hw =>
    refine h.worker rfl rfl rfl id fun _ _ ha => ?_
    rw [hw] at ha
    exact ha
  | decide hw =>
    refine h.worker rfl rfl rfl id fun hrun _ _ => ?_
    rw [hrun]
    rfl
  | unlock exits hw =>
    refine h.worker rfl rfl rfl id fun _ _ ha => ?_
    rw [hw] at ha
    have hexits : exits = false := ha
    rw [hexits]
    trivial
  | pop k hw hk =>
    refine h.worker rfl rfl rfl (fun ht he => ht ?_) fun _ _ _ => trivial
    change s.tasks.drop k = []
    rw [he, List.drop_nil]
  | _ => exact h.worker rfl rfl rfl id fun _ _ _ => trivial

theorem CallerStep.watched {c : C} (hs : CallerStep c s s') (h : Watched s) (hl : Halting s) (ht : Timely s s') :
    Watched s' := by
  have hcaller : ∀ {pc : CallerPc}, (∀ task, s.caller c ≠ .notify task) → (∃ b task, s.caller b = .notify task) →
      ∃ b task, Function.update s.caller c pc b = .notify task := by
    rintro pc hno ⟨b, task, hb⟩
    have hbc : b ≠ c := fun he => hno task (he ▸ hb)
    exact ⟨b, task, by rw [Function.update_of_ne hbc]; exact hb⟩
  cases hs with
  | push hc => exact fun _ _ => .inl ⟨c, s.pushed, Function.update_self _ _ _⟩
  | notifyOne task w hc hw =>
    refine fun _ _ => .inr ⟨w, ?_⟩
    simp [State.setCaller, State.setWorker, WorkerPc.Awake]
  | notifyNone task hc hno =>
    refine fun hrun _ => .inr ?_
    obtain ⟨w, hw⟩ := ht c task hc (by simp [State.setCaller])
    refine ⟨w, ?_⟩
    have hstay : ¬ (s.worker w).Leaving := by
      intro hleave
      have hstop := hl w hleave
      rw [show s.isStop = false from hrun] at hstop
      cases hstop
    have hb := hno w
    change (s.worker w).Awake
    cases hpc : s.worker w with
    | sleep => exact hw hpc
    | blocked => exact hb hpc
    | exited =>
      rw [hpc] at hstay
      exact hstay trivial
    | unlock exits =>
      rw [hpc] at hstay
      cases exits
      · rfl
      · exact (hstay rfl).elim
    | _ => trivial
  | stopSet hc hst =>
    intro hrun
    cases hrun
  | notifyAll hc =>
    have hwake : ∀ pc : WorkerPc, pc.Awake → (wake pc).Awake := by
      intro pc
      cases pc with
      | blocked => exact False.elim
      | _ => exact id
    intro hrun htasks
    rcases h hrun htasks with hn | ⟨v, hv⟩
    · exact .inl (hcaller (by simp [hc]) hn)
    · exact .inr ⟨v, hwake _ hv⟩
  | _ =>
    refine fun hrun htasks => (h hrun htasks).imp_left (hcaller ?_)
    simp [*]

omit [DecidableEq C] in
theorem Init.watched (h : Init s) : Watched s :=
  fun _ ht => absurd h.tasks ht

end Watch

section Runs

theorem watched_of_reachable (h : Reachable Init (TimelyStep graceful) s) : Watched s ∧ Halting s := by
  apply h.invariant
  · intro s hi
    exact ⟨hi.watched, hi.halting⟩
  · rintro s s' - ⟨hw, hl⟩ ⟨⟨w, hs⟩ | ⟨c, hs⟩, ht⟩
    · exact ⟨hs.watched hw, hs.halting hl⟩
    · exact ⟨hs.watched hw hl ht, hs.halting hl⟩

omit [DecidableEq C] in
/-- Two workers are not both between a false predicate and their sleep. -/
theorem timely_of_two (hn : 2 ≤ n) (h : Exclusive s.mutex s.Inside) : Timely s s' := by
  intro c task _ _
  by_contra hno
  have hall : ∀ w, s.worker w = .sleep := fun w => by_contra fun hw => hno ⟨w, hw⟩
  have hin : ∀ w : Fin n, s.Inside (.inl w) := by
    intro w
    rw [State.Inside, hall w]
    trivial
  have hh := Sum.inl.inj (h.unique (hin ⟨0, by omega⟩) (hin ⟨1, by omega⟩))
  exact absurd (congrArg Fin.val hh) Nat.zero_ne_one

theorem timely_of_reachable (hn : 2 ≤ n) (h : Reachable Init (Step graceful) s) :
    Reachable Init (TimelyStep graceful) s ∧ Exclusive s.mutex s.Inside := by
  apply h.invariant
  · intro s hi
    exact ⟨.of_init hi, hi.exclusive⟩
  · rintro s s' - ⟨hr, hex⟩ hs
    refine ⟨hr.tail ⟨hs, timely_of_two hn hex⟩, ?_⟩
    rcases hs with ⟨w, hs⟩ | ⟨c, hs⟩
    · exact hs.exclusive hex
    · exact hs.exclusive hex

/-- No task waits for a worker that is not woken: always with two workers, and with one as
long as no notification comes between its predicate and its sleep. -/
theorem tasks_watched (n : Nat) (C : Type*) [DecidableEq C] (graceful : Bool) :
    (∀ s : State n C, Reachable Init (TimelyStep graceful) s → ¬ Lost s) ∧
      (2 ≤ n → ∀ s : State n C, Reachable Init (Step graceful) s → ¬ Lost s) := by
  constructor
  · intro s h
    exact (watched_of_reachable h).1.not_lost
  · intro htwo s h
    exact (watched_of_reachable (timely_of_reachable htwo h).1).1.not_lost

def fresh (n : Nat) (C : Type*) : State n C :=
  ⟨false, none, [], 0, fun _ => .lock, fun _ => .idle, [], [], []⟩

omit [DecidableEq C] in
theorem init_fresh : Init (fresh n C) := ⟨rfl, rfl, rfl, rfl, fun _ => rfl, fun _ => rfl, rfl, rfl, rfl⟩

/-- One worker has gone to sleep before the task comes, two have not started. -/
theorem tasks_watched_one : (∃ s : State 1 Unit, Reachable Init (TimelyStep true) s ∧ s.tasks = [0] ∧ ¬ Lost s) ∧
    2 ≤ 2 ∧ ∃ s : State 2 Unit, Reachable Init (Step true) s ∧ ¬ Lost s := by
  have h0 : Reachable Init (TimelyStep true) (fresh 1 Unit) := .of_init init_fresh
  have h1 := h0.tail ⟨.inl ⟨0, .lock _ rfl rfl⟩, nofun⟩
  have h2 := h1.tail ⟨.inl ⟨0, .check _ rfl⟩, nofun⟩
  have h3 := h2.tail ⟨.inl ⟨0, .sleep _ rfl⟩, nofun⟩
  have h4 := h3.tail ⟨.inr ⟨(), .push _ rfl⟩, nofun⟩
  have h5 := h4.tail ⟨.inr ⟨(), .notifyOne _ 0 0 rfl rfl⟩, fun _ _ _ _ => ⟨0, nofun⟩⟩
  refine ⟨⟨_, h5, rfl, (tasks_watched 1 Unit true).1 _ h5⟩, le_rfl, fresh 2 Unit, .of_init init_fresh, ?_⟩
  exact (tasks_watched 2 Unit true).2 le_rfl _ (.of_init init_fresh)

/-- The worker has seen an empty queue, the task comes and its notification wakes nobody,
and the worker goes to sleep. -/
theorem wakeup_lost : ¬ ∀ s : State 1 Unit, Reachable Init (Step true) s → ¬ Lost s := by
  intro hall
  have h0 : Reachable Init (Step true) (fresh 1 Unit) := .of_init init_fresh
  have h1 := h0.tail (.inl ⟨0, .lock _ rfl rfl⟩)
  have h2 := h1.tail (.inl ⟨0, .check _ rfl⟩)
  have h3 := h2.tail (.inr ⟨(), .push _ rfl⟩)
  have h4 := h3.tail (.inr ⟨(), .notifyNone _ 0 rfl fun w => by
    obtain rfl : w = 0 := Subsingleton.elim _ _
    nofun⟩)
  have h5 := h4.tail (.inl ⟨0, .sleep _ rfl⟩)
  refine hall _ h5 ⟨rfl, nofun, fun w => ?_, fun c => ⟨nofun, nofun⟩⟩
  obtain rfl : w = 0 := Subsingleton.elim _ _
  rfl

end Runs

end Wizard.ThreadPool
