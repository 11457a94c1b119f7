import Wizard.Tally
import Wizard.ThreadPoolWakeups

/-! Stopping. Every task is in the queue, in the batch of a worker, or executed, and with
`graceful_stop` no worker leaves before the tasks that came before the stop are taken. -/

namespace Wizard.ThreadPool

variable {n : Nat} {C : Type*} {s s' : State n C} {graceful : Bool}

def WorkerPc.batch : WorkerPc → List Nat
  | .run batch => batch
  | _ => []

/-- Each task that has been pushed is in one place. -/
def Ledger (s : State n C) : Prop :=
  ∀ k, s.ran.count k + s.tasks.count k + ∑ w, (s.worker w).batch.count k = if k < s.pushed then 1 else 0

section Ledger

theorem sum_batch (worker : Fin n → WorkerPc) (w : Fin n) (pc : WorkerPc) (k : Nat) :
    ∑ v, (Function.update worker w pc v).batch.count k + (worker w).batch.count k =
      ∑ v, (worker v).batch.count k + pc.batch.count k := by
  have hh := sum_change (S := Finset.univ) (a := w) (u := fun v => (worker v).batch.count k)
    (v := fun v => (Function.update worker w pc v).batch.count k) (Finset.mem_univ w)
    (fun b _ hb => by rw [Function.update_of_ne hb])
  rw [Function.update_self] at hh
  exact hh

/-- What a worker takes from the queue and executes stays the same in sum. -/
theorem Ledger.worker {w : Fin n} {pc : WorkerPc} (h : Ledger s) (hpushed : s'.pushed = s.pushed)
    (hworker : s'.worker = Function.update s.worker w pc)
    (hcount : ∀ k, s'.ran.count k + s'.tasks.count k + pc.batch.count k =
      s.ran.count k + s.tasks.count k + (s.worker w).batch.count k) : Ledger s' := by
  intro k
  have hk := h k
  have hsum := sum_batch s.worker w pc k
  have hh := hcount k
  rw [hpushed, hworker]
  omega

theorem WorkerStep.ledger {w : Fin n} (hs : WorkerStep graceful w s s') (h : Ledger s) : Ledger s' := by
  cases hs with
  | check hw =>
    refine h.worker rfl rfl fun k => ?_
    rw [hw]
    split
    · rfl
    · rfl
  | unlock exits hw =>
    refine h.worker rfl rfl fun k => ?_
    rw [hw]
    cases exits
    · rfl
    · rfl
  | pop k hw hk =>
    refine h.worker rfl rfl fun j => ?_
    have hsplit : (s.tasks.take k).count j + (s.tasks.drop k).count j = s.tasks.count j := by
      rw [← List.count_append, List.take_append_drop]
    rw [hw]
    change s.ran.count j + (s.tasks.drop k).count j + (s.tasks.take k).count j = s.ran.count j + s.tasks.count j + 0
    omega
  | run task rest hw =>
    refine h.worker rfl rfl fun k => ?_
    rw [hw]
    change (task :: s.ran).count k + s.tasks.count k + rest.count k =
      s.ran.count k + s.tasks.count k + (task :: rest).count k
    rw [List.count_cons, List.count_cons]
    omega
  | lock hw hm => exact h.worker rfl rfl fun k => by rw [hw]; rfl
  | sleep hw => exact h.worker rfl rfl fun k => by rw [hw]; rfl
  | spurious hw => exact h.worker rfl rfl fun k => by rw [hw]; rfl
  | decide hw => exact h.worker rfl rfl fun k => by rw [hw]; rfl
  | ran hw => exact h.worker rfl rfl fun k => by rw [hw]; rfl

variable [DecidableEq C]

theorem CallerStep.ledger {c : C} (hs : CallerStep c s s') (h : Ledger s) : Ledger s' := by
  cases hs with
  | push hc =>
    intro k
    have hk := h k
    change s.ran.count k + (s.tasks ++ [s.pushed]).count k + ∑ w, (s.worker w).batch.count k =
      if k < s.pushed + 1 then 1 else 0
    rw [List.count_append, List.count_singleton]
    simp only [beq_iff_eq]
    split_ifs at hk ⊢ <;> omega
  | notifyOne task w hc hw =>
    have hh : Ledger (s.setWorker w .lock) := h.worker rfl rfl fun k => by rw [hw]; rfl
    exact hh
  | notifyAll hc =>
    have hwake : ∀ pc, (wake pc).batch = pc.batch := by
      intro pc
      cases pc <;> rfl
    intro k
    have hk := h k
    simp only [← hwake (s.worker _)] at hk
    exact hk
  | _ => exact h

omit [DecidableEq C] in
theorem Init.ledger (h : Init s) : Ledger s := by
  intro k
  simp [h.ran, h.tasks, h.worker, h.pushed, WorkerPc.batch]

end Ledger

section Early

/-- The tasks that came before the stop are not in the queue when a worker leaves. -/
structure Taken (graceful : Bool) (s : State n C) : Prop where
  enqueued : ∀ k ∈ s.enqueued, k < s.pushed
  notify : ∀ c k, s.caller c = .notify k → k < s.pushed
  early : ∀ k ∈ s.early, k < s.pushed
  gone : graceful = true → ∀ w, (s.worker w).Leaving → ∀ k ∈ s.early, k ∉ s.tasks

theorem Taken.worker {w : Fin n} {pc : WorkerPc} (h : Taken graceful s) (hpushed : s'.pushed = s.pushed)
    (henq : s'.enqueued = s.enqueued) (hearly : s'.early = s.early) (hcaller : s'.caller = s.caller)
    (hworker : s'.worker = Function.update s.worker w pc) (htasks : s'.tasks ⊆ s.tasks)
    (hgone : graceful = true → pc.Leaving → ∀ k ∈ s.early, k ∉ s.tasks) : Taken graceful s' := by
  obtain ⟨h₁, h₂, h₃, h₄⟩ := h
  constructor
  · rw [henq, hpushed]
    exact h₁
  · rw [hcaller, hpushed]
    exact h₂
  · rw [hearly, hpushed]
    exact h₃
  · intro hg
    rw [hworker, hearly]
    refine (Function.forall_update_iff s.worker (p := fun _ x => x.Leaving → ∀ k ∈ s.early, k ∉ s'.tasks)).2 ⟨?_, ?_⟩
    · exact fun hl k hk hm => hgone hg hl k hk (htasks hm)
    · exact fun v _ hl k hk hm => h₄ hg v hl k hk (htasks hm)

theorem WorkerStep.taken {w : Fin n} (hs : WorkerStep graceful w s s') (h : Taken graceful s) : Taken graceful s' := by
  cases hs with
  | check hw =>
    refine h.worker rfl rfl rfl rfl rfl (List.Subset.refl _) fun _ hl => ?_
    split at hl
    · exact hl.elim
    · exact hl.elim
  | decide hw =>
    refine h.worker rfl rfl rfl rfl rfl (List.Subset.refl _) fun hg hl k _ hk => ?_
    have hempty := (Bool.and_eq_true_iff.1 hl).2
    rw [hg, Bool.not_true, Bool.false_or, beq_iff_eq, List.length_eq_zero_iff] at hempty
    rw [hempty] at hk
    cases hk
  | unlock exits hw =>
    refine h.worker rfl rfl rfl rfl rfl (List.Subset.refl _) fun hg hl => h.gone hg w ?_
    rw [hw]
    cases exits
    · exact hl.elim
    · rfl
  | pop k hw hk => exact h.worker rfl rfl rfl rfl rfl (List.drop_subset k s.tasks) (by rintro - ⟨⟩)
  | _ => exact h.worker rfl rfl rfl rfl rfl (List.Subset.refl _) (by rintro - ⟨⟩)

variable [DecidableEq C]

theorem Taken.caller {c : C} {pc : CallerPc} (h : Taken graceful s) (hpc : ∀ k, pc = .notify k → k < s.pushed) :
    Taken graceful (s.setCaller c pc) := by
  refine ⟨h.enqueued, ?_, h.early, h.gone⟩
  exact (Function.forall_update_iff s.caller (p := fun _ x => ∀ k, x = .notify k → k < s.pushed)).2
    ⟨hpc, fun b _ => h.notify b⟩

theorem CallerStep.taken {c : C} (hs : CallerStep c s s') (h : Taken graceful s) (hl : Halting s) :
    Taken graceful s' := by
  have henq : ∀ task, s.caller c = .notify task → Taken graceful { s with enqueued := task :: s.enqueued } := by
    intro task hc
    refine ⟨fun k hk => ?_, h.notify, h.early, h.gone⟩
    rcases List.mem_cons.1 hk with rfl | hk
    · exact h.notify c k hc
    · exact h.enqueued k hk
  cases hs with
  | push hc =>
    have hpush : Taken graceful { s with tasks := s.tasks ++ [s.pushed], pushed := s.pushed + 1 } := by
      refine ⟨fun k hk => Nat.lt_succ_of_lt (h.enqueued k hk), fun b k hb => Nat.lt_succ_of_lt (h.notify b k hb),
        fun k hk => Nat.lt_succ_of_lt (h.early k hk), fun hg w hw k hk hm => ?_⟩
      rcases List.mem_append.1 hm with hm | hm
      · exact h.gone hg w hw k hk hm
      · have hlt := h.early k hk
        rw [List.mem_singleton.1 hm] at hlt
        exact lt_irrefl _ hlt
    refine hpush.caller fun k hk => ?_
    rw [← CallerPc.notify.inj hk]
    exact Nat.lt_succ_self s.pushed
  | notifyOne task w hc hw =>
    have hh : Taken graceful ({ s with enqueued := task :: s.enqueued }.setWorker w .lock) :=
      (henq task hc).worker rfl rfl rfl rfl rfl (List.Subset.refl _) (by rintro - ⟨⟩)
    exact hh.caller nofun
  | notifyNone task hc hno => exact (henq task hc).caller nofun
  | stopSet hc hst =>
    have hset : Taken graceful { s with isStop := true, early := s.enqueued } := by
      refine ⟨h.enqueued, h.notify, h.enqueued, fun _ w hw => ?_⟩
      have hstop := hl w hw
      rw [hst] at hstop
      cases hstop
    exact hset.caller nofun
  | stopUnlock first hc =>
    have hh : Taken graceful { s with mutex := none } := ⟨h.enqueued, h.notify, h.early, h.gone⟩
    refine hh.caller fun k hk => ?_
    cases first
    · cases hk
    · cases hk
  | stopLock hc hm =>
    have hh : Taken graceful { s with mutex := some (.inr c) } := ⟨h.enqueued, h.notify, h.early, h.gone⟩
    exact hh.caller nofun
  | notifyAll hc =>
    have hwake : ∀ pc : WorkerPc, (wake pc).Leaving → pc.Leaving := by
      intro pc hpc
      cases pc <;> exact hpc
    have hh : Taken graceful { s with worker := fun w => wake (s.worker w) } :=
      ⟨h.enqueued, h.notify, h.early, fun hg w hw => h.gone hg w (hwake _ hw)⟩
    exact hh.caller nofun
  | _ => exact h.caller nofun

omit [DecidableEq C] in
theorem Init.taken (h : Init s) : Taken graceful s := by
  constructor
  · intro k hk
    rw [h.enqueued] at hk
    cases hk
  · intro c k hc
    rw [h.caller c] at hc
    cases hc
  · intro k hk
    rw [h.early] at hk
    cases hk
  · intro _ w hw
    rw [h.worker w] at hw
    exact hw.elim

end Early

section Join

/-- What the call that stops the pool has waited for. -/
structure Joined (s : State n C) : Prop where
  join : ∀ c i, s.caller c = .join i → ∀ w : Fin n, w < i → s.worker w = .exited
  returned : ∀ c, s.caller c = .returned true → ∀ w, s.worker w = .exited

theorem WorkerStep.exited {w v : Fin n} (hs : WorkerStep graceful w s s') (hv : s.worker v = .exited) :
    s'.worker v = .exited := by
  have hne : s.worker w ≠ .exited → v ≠ w := by
    rintro hw rfl
    exact hw hv
  cases hs with
  | _ =>
    refine (Function.update_of_ne (hne ?_) _ _).trans hv
    simp [*]

theorem WorkerStep.caller_eq {w : Fin n} (hs : WorkerStep graceful w s s') : s'.caller = s.caller := by
  cases hs <;> rfl

variable [DecidableEq C]

theorem CallerStep.exited {c : C} {v : Fin n} (hs : CallerStep c s s') (hv : s.worker v = .exited) :
    s'.worker v = .exited := by
  cases hs with
  | notifyOne task w hc hw =>
    have hne : v ≠ w := by
      rintro rfl
      rw [hv] at hw
      cases hw
    exact (Function.update_of_ne hne _ _).trans hv
  | notifyAll hc =>
    change wake (s.worker v) = .exited
    rw [hv]
    rfl
  | _ => exact hv

theorem Step.exited {v : Fin n} (hs : Step graceful s s') (hv : s.worker v = .exited) : s'.worker v = .exited := by
  rcases hs with ⟨w, hs⟩ | ⟨c, hs⟩
  · exact hs.exited hv
  · exact hs.exited hv

theorem CallerStep.keeps_joined {c : C} (hs : CallerStep c s s') (h : Joined s) : Joined s' := by
  have hex : ∀ v, s.worker v = .exited → s'.worker v = .exited := fun v => hs.exited
  have hother : ∀ b, b ≠ c → s'.caller b = s.caller b := by
    intro b hb
    cases hs <;> exact Function.update_of_ne hb _ _
  constructor
  · intro b i hb w hw
    by_cases hbc : b = c
    · subst hbc
      cases hs with
      | join i' hi hc hx =>
        have hself : i' + 1 = i := CallerPc.join.inj ((Function.update_self _ _ _).symm.trans hb)
        rcases Nat.lt_or_eq_of_le (Nat.le_of_lt_succ (hself ▸ hw)) with hlt | heq
        · exact h.join b i' hc w hlt
        · obtain rfl : w = ⟨i', hi⟩ := Fin.ext heq
          exact hx
      | notifyAll hc =>
        have hself : 0 = i := CallerPc.join.inj ((Function.update_self _ _ _).symm.trans hb)
        omega
      | stopUnlock first hc =>
        have hself := (Function.update_self _ _ _).symm.trans hb
        cases first <;> cases hself
      | _ => cases (Function.update_self _ _ _).symm.trans hb
    · rw [hother b hbc] at hb
      exact hex w (h.join b i hb w hw)
  · intro b hb w
    by_cases hbc : b = c
    · subst hbc
      cases hs with
      | joined hc => exact h.join b n hc w w.isLt
      | stopUnlock first hc =>
        have hself := (Function.update_self _ _ _).symm.trans hb
        cases first <;> cases hself
      | _ => cases (Function.update_self _ _ _).symm.trans hb
    · rw [hother b hbc] at hb
      exact hex w (h.returned b hb w)

omit [DecidableEq C] in
theorem WorkerStep.keeps_joined {w : Fin n} (hs : WorkerStep graceful w s s') (h : Joined s) : Joined s' := by
  constructor
  · rw [hs.caller_eq]
    exact fun c i hc v hv => hs.exited (h.join c i hc v hv)
  · rw [hs.caller_eq]
    exact fun c hc v => hs.exited (h.returned c hc v)

omit [DecidableEq C] in
theorem Init.joined (h : Init s) : Joined s := by
  constructor
  · intro c i hc
    rw [h.caller c] at hc
    cases hc
  · intro c hc
    rw [h.caller c] at hc
    cases hc

end Join

section Runs

/-- What the ends of workers and calls say about the tasks. -/
structure Orderly (graceful : Bool) (s : State n C) : Prop where
  ledger : Ledger s
  halting : Halting s
  taken : Taken graceful s
  joined : Joined s

theorem Orderly.ran_le_one (h : Orderly graceful s) (k : Nat) : s.ran.count k ≤ 1 := by
  have hk := h.ledger k
  split_ifs at hk <;> omega

/-- When all have left, what came before the stop is done. -/
theorem Orderly.ran_eq_one (h : Orderly true s) (hn : 1 ≤ n) (hw : ∀ w, s.worker w = .exited) {k : Nat}
    (hk : k ∈ s.early) : s.ran.count k = 1 := by
  have hsum : ∑ w, (s.worker w).batch.count k = 0 := by
    apply Finset.sum_eq_zero
    intro w _
    rw [hw w]
    rfl
  have hleave : (s.worker ⟨0, hn⟩).Leaving := by
    rw [hw]
    trivial
  have htasks : s.tasks.count k = 0 := List.count_eq_zero.2 (h.taken.gone rfl _ hleave k hk)
  have hledger := h.ledger k
  rw [hsum, htasks, if_pos (h.taken.early k hk)] at hledger
  exact hledger

variable [DecidableEq C]

theorem Orderly.step (h : Orderly graceful s) (hs : Step graceful s s') : Orderly graceful s' := by
  obtain ⟨hl, hh, ht, hj⟩ := h
  rcases hs with ⟨w, hs⟩ | ⟨c, hs⟩
  · exact ⟨hs.ledger hl, hs.halting hh, hs.taken ht, hs.keeps_joined hj⟩
  · exact ⟨hs.ledger hl, hs.halting hh, hs.taken ht hh, hs.keeps_joined hj⟩

theorem orderly_of_reachable (h : Reachable Init (Step graceful) s) : Orderly graceful s := by
  apply h.invariant
  · intro s hi
    exact ⟨hi.ledger, hi.halting, hi.taken, hi.joined⟩
  · intro s s' _ ho hs
    exact ho.step hs

/-- A task comes, the pool stops, and its only worker executes the task and leaves. -/
theorem stopped : ∃ s : State 1 Unit, Reachable Init (Step true) s ∧ s.caller () = .returned true ∧ s.early = [0] := by
  have h0 : Reachable Init (Step true) (fresh 1 Unit) := .of_init init_fresh
  have h1 := h0.tail (.inr ⟨(), .push _ rfl⟩)
  have h2 := h1.tail (.inr ⟨(), .notifyNone _ 0 rfl nofun⟩)
  have h3 := h2.tail (.inr ⟨(), .stop _ rfl⟩)
  have h4 := h3.tail (.inr ⟨(), .stopLock _ rfl rfl⟩)
  have h5 := h4.tail (.inr ⟨(), .stopSet _ rfl rfl⟩)
  have h6 := h5.tail (.inr ⟨(), .stopUnlock _ true rfl⟩)
  have h7 := h6.tail (.inl ⟨0, .lock _ rfl rfl⟩)
  have h8 := h7.tail (.inl ⟨0, .check _ rfl⟩)
  have h9 := h8.tail (.inl ⟨0, .decide _ rfl⟩)
  have h10 := h9.tail (.inl ⟨0, .unlock _ false rfl⟩)
  have h11 := h10.tail (.inl ⟨0, .pop _ 1 rfl (by decide)⟩)
  have h12 := h11.tail (.inl ⟨0, .run _ 0 [] rfl⟩)
  have h13 := h12.tail (.inl ⟨0, .ran _ rfl⟩)
  have h14 := h13.tail (.inl ⟨0, .lock _ rfl rfl⟩)
  have h15 := h14.tail (.inl ⟨0, .check _ rfl⟩)
  have h16 := h15.tail (.inl ⟨0, .decide _ rfl⟩)
  have h17 := h16.tail (.inl ⟨0, .unlock _ true rfl⟩)
  have h18 := h17.tail (.inr ⟨(), .notifyAll _ rfl⟩)
  have h19 := h18.tail (.inr ⟨(), .join _ 0 Nat.one_pos rfl rfl⟩)
  have h20 := h19.tail (.inr ⟨(), .joined _ rfl⟩)
  exact ⟨_, h20, rfl, rfl⟩

/-- When the call that has set `is_stop` returns, all workers have left, and what was
enqueued before has been executed once. -/
theorem stop_drains (hn : 1 ≤ n) (h : Reachable Init (Step true) s) {c : C} (hc : s.caller c = .returned true) :
    (∀ w, s.worker w = .exited) ∧ (∀ k ∈ s.early, s.ran.count k = 1) ∧ ∀ k, s.ran.count k ≤ 1 := by
  have ho := orderly_of_reachable h
  have hw := ho.joined.returned c hc
  exact ⟨hw, fun k hk => ho.ran_eq_one hn hw hk, ho.ran_le_one⟩

theorem stop_drains_one : 1 ≤ 1 ∧ ∃ s : State 1 Unit, Reachable Init (Step true) s ∧ s.caller () = .returned true ∧
    s.early = [0] ∧ s.ran.count 0 = 1 := by
  obtain ⟨s, hr, hc, he⟩ := stopped
  refine ⟨le_rfl, s, hr, hc, he, (stop_drains le_rfl hr hc).2.1 0 ?_⟩
  rw [he]
  exact List.mem_singleton_self 0

/-- From the return of the call that has set `is_stop` on, all workers have left. -/
theorem stop_waits (h : Reachable Init (Step graceful) s) {c : C} (hc : s.caller c = .returned true)
    (hs : Relation.ReflTransGen (Step graceful) s s') :
    (∀ w, s'.worker w = .exited) ∧ (1 ≤ n → graceful = true → ∀ k ∈ s'.early, s'.ran.count k = 1) := by
  have hw : ∀ w, s'.worker w = .exited := by
    induction hs with
    | refl => exact (orderly_of_reachable h).joined.returned c hc
    | tail _ hstep ih => exact fun w => hstep.exited (ih w)
  refine ⟨hw, ?_⟩
  rintro hn rfl k hk
  have h' : Reachable Init (Step true) s' := by
    obtain ⟨s₀, hi, hr⟩ := h
    exact ⟨s₀, hi, hr.trans hs⟩
  exact (orderly_of_reachable h').ran_eq_one hn hw hk

theorem stop_waits_one : ∃ s : State 1 Unit, Reachable Init (Step true) s ∧ s.caller () = .returned true ∧
    ∀ w, s.worker w = .exited := by
  obtain ⟨s, hr, hc, -⟩ := stopped
  exact ⟨s, hr, hc, (stop_waits hr hc .refl).1⟩

/-- The second call finds `is_stop` set and returns while the worker has not even started. -/
theorem stop_returns_early : ¬ ∀ s : State 1 Bool, Reachable Init (Step true) s →
    ∀ c first, s.caller c = .returned first → ∀ w, s.worker w = .exited := by
  intro hall
  have h0 : Reachable Init (Step true) (fresh 1 Bool) := .of_init init_fresh
  have h1 := h0.tail (.inr ⟨true, .stop _ rfl⟩)
  have h2 := h1.tail (.inr ⟨true, .stopLock _ rfl rfl⟩)
  have h3 := h2.tail (.inr ⟨true, .stopSet _ rfl rfl⟩)
  have h4 := h3.tail (.inr ⟨true, .stopUnlock _ true rfl⟩)
  have h5 := h4.tail (.inr ⟨false, .stop _ rfl⟩)
  have h6 := h5.tail (.inr ⟨false, .stopLock _ rfl rfl⟩)
  have h7 := h6.tail (.inr ⟨false, .stopFound _ rfl rfl⟩)
  have h8 := h7.tail (.inr ⟨false, .stopUnlock _ false rfl⟩)
  cases hall _ h8 false false rfl 0

end Runs

end Wizard.ThreadPool
