import Mathlib.Data.List.Basic

/-! Histories of concurrent objects. The steps that take effect have events, and a history of
events is checked against a sequential object. -/

namespace Wizard

variable {σ ε α : Type*}

/-- A run with the events of its steps in order. -/
inductive EventRun (step : σ → List ε → σ → Prop) (s₀ : σ) : List ε → σ → Prop
  | start : EventRun step s₀ [] s₀
  | tail {es es' : List ε} {s t : σ} (h : EventRun step s₀ es s) (hs : step s es' t) : EventRun step s₀ (es ++ es') t

/-- The sequential object does the events one after the other. -/
inductive Replay (does : α → ε → α → Prop) (a₀ : α) : List ε → α → Prop
  | nil : Replay does a₀ [] a₀
  | concat {es : List ε} {e : ε} {a b : α} (h : Replay does a₀ es a) (he : does a e b) : Replay does a₀ (es ++ [e]) b

variable {does : α → ε → α → Prop} {a₀ a b : α} {es es' : List ε}

theorem Replay.append (h : Replay does a₀ es a) (h' : Replay does a es' b) : Replay does a₀ (es ++ es') b := by
  induction h' with
  | nil =>
    rw [List.append_nil]
    exact h
  | concat _ he ih =>
    rw [← List.append_assoc]
    exact .concat ih he

theorem Replay.single {e : ε} (he : does a e b) : Replay does a [e] b := .concat .nil he

theorem Replay.map {ε' : Type*} {does' : α → ε' → α → Prop} (f : ε → ε') (h : Replay does a₀ es a)
    (hf : ∀ a e b, does a e b → does' a (f e) b) : Replay does' a₀ (es.map f) a := by
  induction h with
  | nil => exact .nil
  | concat _ he ih =>
    rw [List.map_append]
    exact .concat ih (hf _ _ _ he)

/-- If each step does its events on the sequential object, so does a run. -/
theorem EventRun.replay {step : σ → List ε → σ → Prop} {s₀ s : σ} (rel : σ → List ε → α → Prop)
    (h : EventRun step s₀ es s) (h₀ : rel s₀ [] a₀)
    (hstep : ∀ s t es es' a, rel s es a → step s es' t → ∃ b, Replay does a es' b ∧ rel t (es ++ es') b) :
    ∃ a, Replay does a₀ es a ∧ rel s es a := by
  induction h with
  | start => exact ⟨a₀, .nil, h₀⟩
  | tail _ hs ih =>
    obtain ⟨a, ha, hr⟩ := ih
    obtain ⟨b, hb, hr'⟩ := hstep _ _ _ _ a hr hs
    exact ⟨b, ha.append hb, hr'⟩

/-- The last event of a thread. -/
def lastOf {Tid : Type*} [DecidableEq Tid] (t : Tid) (es : List (Tid × ε)) : Option ε :=
  ((es.filter fun e => decide (e.1 = t)).getLast?).map Prod.snd

section LastOf

variable {Tid : Type*} [DecidableEq Tid] {t u : Tid} {es : List (Tid × ε)}

theorem lastOf_concat (e : ε) : lastOf t (es ++ [(t, e)]) = some e := by
  simp [lastOf]

/-- The events of other threads do not matter. -/
theorem lastOf_append {es' : List ε} (h : t ≠ u) : lastOf t (es ++ es'.map fun e => (u, e)) = lastOf t es := by
  have hnil : (es'.map fun e => (u, e)).filter (fun e => decide (e.1 = t)) = [] := by
    rw [List.filter_eq_nil_iff]
    intro e he
    obtain ⟨e', -, rfl⟩ := List.mem_map.1 he
    simpa using h.symm
  rw [lastOf, List.filter_append, hnil, List.append_nil]
  rfl

end LastOf

end Wizard
