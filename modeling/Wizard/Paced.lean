import Wizard.Runs

/-! Runs in which the steps of one party are counted. Whatever the others do in between, a
party whose every step uses up some of a bound that nobody raises comes to its end. -/

namespace Wizard

variable {σ : Type*}

/-- A run with the states it visits and the number of its steps that are `own`. -/
inductive PacedRun (step own : σ → σ → Prop) (s₀ : σ) : List σ → Nat → σ → Prop
  | start : PacedRun step own s₀ [s₀] 0 s₀
  | own {l : List σ} {n : Nat} {s t : σ} (h : PacedRun step own s₀ l n s) (hs : step s t) (ho : own s t) :
      PacedRun step own s₀ (l ++ [t]) (n + 1) t
  | other {l : List σ} {n : Nat} {s t : σ} (h : PacedRun step own s₀ l n s) (hs : step s t) (ho : ¬ own s t) :
      PacedRun step own s₀ (l ++ [t]) n t

variable {step own : σ → σ → Prop} {s₀ s : σ} {l : List σ} {n : Nat}

theorem Run.end_mem (h : Run step s₀ l s) : s ∈ l := by
  cases h <;> simp

theorem PacedRun.end_mem (h : PacedRun step own s₀ l n s) : s ∈ l := by
  cases h <;> simp

/-- `bound s m` says that `m` own steps are enough from `s`. -/
theorem PacedRun.le_of_bound (bound : σ → Nat → Prop) {ok : σ → Prop} {m : Nat} (h : PacedRun step own s₀ l n s)
    (hok : ∀ u ∈ l, ok u) (hb : bound s₀ m)
    (hown : ∀ u v m, ok u → ok v → bound u m → step u v → own u v → ∃ k, k < m ∧ bound v k)
    (hother : ∀ u v m, ok u → ok v → bound u m → step u v → ¬ own u v → bound v m) :
    ∃ k, n + k ≤ m ∧ bound s k := by
  induction h with
  | start => exact ⟨m, by omega, hb⟩
  | own h hs ho ih =>
    obtain ⟨k, hk, hb⟩ := ih fun u hu => hok u (List.mem_append_left _ hu)
    obtain ⟨k', hk', hb⟩ := hown _ _ k (hok _ (List.mem_append_left _ h.end_mem)) (hok _ (by simp)) hb hs ho
    exact ⟨k', by omega, hb⟩
  | other h hs ho ih =>
    obtain ⟨k, hk, hb⟩ := ih fun u hu => hok u (List.mem_append_left _ hu)
    exact ⟨k, hk, hother _ _ k (hok _ (List.mem_append_left _ h.end_mem)) (hok _ (by simp)) hb hs ho⟩

end Wizard
