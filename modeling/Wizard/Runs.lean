import Mathlib.Logic.Relation

/-! Runs of a transition system. A component is given by its initial states and
its steps; what holds initially and is kept by every step holds in every state
a run reaches. -/

namespace Wizard

variable {σ : Type*}

def Reachable (init : σ → Prop) (step : σ → σ → Prop) (s : σ) : Prop :=
  ∃ s₀, init s₀ ∧ Relation.ReflTransGen step s₀ s

/-- The steps of runs that stay inside `ok`. -/
def Within (step : σ → σ → Prop) (ok : σ → Prop) (s t : σ) : Prop :=
  step s t ∧ ok t

variable {init : σ → Prop} {step : σ → σ → Prop}

theorem Reachable.of_init {s : σ} (h : init s) : Reachable init step s :=
  ⟨s, h, .refl⟩

theorem Reachable.tail {s t : σ} (h : Reachable init step s) (hs : step s t) :
    Reachable init step t := by
  obtain ⟨s₀, hi, hr⟩ := h
  exact ⟨s₀, hi, hr.tail hs⟩

/-- The rule every safety result uses. The step premise may assume that the
state before the step is itself reachable. -/
theorem Reachable.invariant {inv : σ → Prop} {s : σ} (h : Reachable init step s)
    (hinit : ∀ s, init s → inv s)
    (hstep : ∀ s t, Reachable init step s → inv s → step s t → inv t) : inv s := by
  obtain ⟨s₀, hi, hr⟩ := h
  induction hr with
  | refl => exact hinit s₀ hi
  | tail hr hs ih => exact hstep _ _ ⟨s₀, hi, hr⟩ ih hs

theorem Reachable.mono {step' : σ → σ → Prop} {s : σ} (h : Reachable init step s)
    (hm : ∀ s t, step s t → step' s t) : Reachable init step' s := by
  obtain ⟨s₀, hi, hr⟩ := h
  exact ⟨s₀, hi, Relation.ReflTransGen.mono hm _ _ hr⟩

theorem Reachable.of_within {ok : σ → Prop} {s : σ} (h : Reachable init (Within step ok) s) :
    Reachable init step s :=
  h.mono fun _ _ hs => hs.1

/-- A run with the states it visits, both ends among them. -/
inductive Run (step : σ → σ → Prop) (s₀ : σ) : List σ → σ → Prop
  | start : Run step s₀ [s₀] s₀
  | tail {l : List σ} {s t : σ} (h : Run step s₀ l s) (hs : step s t) : Run step s₀ (l ++ [t]) t

/-- Operations that may fail, one after the other. -/
theorem foldlM_concat {α : Type*} (f : σ → α → Option σ) (s : σ) (l : List α) (x : α) :
    (l ++ [x]).foldlM f s = (l.foldlM f s).bind fun s => f s x := by
  rw [List.foldlM_append]
  simp only [List.foldlM_cons, List.foldlM_nil, bind_pure, Option.bind_eq_bind]

section Fallible

section Except

variable {α β ε : Type*} {r : Except ε α} {y : β}

theorem bind_eq_ok {f : α → Except ε β} : r.bind f = .ok y ↔ ∃ x, r = .ok x ∧ f x = .ok y := by
  cases r <;> simp [Except.bind]

theorem map_eq_ok {f : α → β} : r.map f = .ok y ↔ ∃ x, r = .ok x ∧ f x = y := by
  cases r <;> simp [Except.map]

theorem exists_map_eq_ok {f : α → β} : (∃ y, r.map f = .ok y) ↔ ∃ x, r = .ok x := by
  constructor
  · rintro ⟨y, h⟩
    obtain ⟨x, hx, -⟩ := map_eq_ok.1 h
    exact ⟨x, hx⟩
  · rintro ⟨x, hx⟩
    exact ⟨f x, map_eq_ok.2 ⟨x, hx, rfl⟩⟩

end Except

variable {α ε : Type*} {step : σ → α → Except ε σ} {ok : σ → α → Prop} {inv : σ → Prop} {s s' : σ} {l : List α}

/-- Every operation is `ok` in the state that it is applied to. -/
def EachStep (step : σ → α → Except ε σ) (ok : σ → α → Prop) : σ → List α → Prop
  | _, [] => True
  | s, x :: l => ok s x ∧ ∀ s', step s x = .ok s' → EachStep step ok s' l

section Invariant

variable (hstep : ∀ s x, inv s → ok s x → ∃ s', step s x = .ok s' ∧ inv s')
include hstep

theorem inv_of_step {x : α} (hs : inv s) (hx : ok s x) (h : step s x = .ok s') : inv s' := by
  obtain ⟨s₁, h₁, hs₁⟩ := hstep s x hs hx
  rw [h] at h₁
  cases h₁
  exact hs₁

theorem EachStep.exists_foldlM (hs : inv s) (h : EachStep step ok s l) : ∃ s', l.foldlM step s = .ok s' ∧ inv s' := by
  induction l generalizing s with
  | nil => exact ⟨s, rfl, hs⟩
  | cons x l ih =>
    obtain ⟨hx, hl⟩ := h
    obtain ⟨s₁, h₁, hs₁⟩ := hstep s x hs hx
    obtain ⟨s', hs', hinv⟩ := ih hs₁ (hl s₁ h₁)
    refine ⟨s', ?_, hinv⟩
    rw [List.foldlM_cons, h₁]
    exact hs'

/-- The converse, when an operation is `ok` wherever it returns. -/
theorem eachStep_of_foldlM (hok : ∀ s x s', inv s → step s x = .ok s' → ok s x) (hs : inv s)
    (h : l.foldlM step s = .ok s') : EachStep step ok s l := by
  induction l generalizing s with
  | nil => exact trivial
  | cons x l ih =>
    rw [List.foldlM_cons] at h
    obtain ⟨s₁, h₁, h⟩ := bind_eq_ok.1 h
    have hx := hok s x s₁ hs h₁
    refine ⟨hx, fun s₂ h₂ => ?_⟩
    rw [h₁] at h₂
    cases h₂
    exact ih (inv_of_step hstep hs hx h₁) h

theorem eachStep_of_inv (hok : ∀ s x, inv s → ok s x) (hs : inv s) : EachStep step ok s l := by
  induction l generalizing s with
  | nil => exact trivial
  | cons x l ih => exact ⟨hok s x hs, fun s' h => ih (inv_of_step hstep hs (hok s x hs) h)⟩

end Invariant

end Fallible

end Wizard
