import Mathlib.Data.List.Basic
import Mathlib.Logic.Function.Basic
import Mathlib.Order.Lattice.Nat
import Wizard.Owners

/-! Consumers that share a growing list. Each draws the next number, and redeems it later for the
value at its place. -/

namespace Wizard

variable {α Tid : Type*}

/-- What has been drawn from `pushed`: a number that has not been redeemed belongs to one thread. -/
structure Tickets (pushed : List α) (popped : List (Option (Option α))) (turn : Tid → Option Nat) : Prop where
  le : popped.length ≤ pushed.length
  taken : ∀ (k : Nat) (r : Option α), popped[k]? = some (some r) → r = pushed[k]?
  turns : Owned (fun k => popped[k]? = some none) (fun _ => False) turn

namespace Tickets

variable {pushed : List α} {popped : List (Option (Option α))} {turn turn' : Tid → Option Nat} {t : Tid} {k : Nat}

theorem nil (h : ∀ t, turn t = none) : Tickets ([] : List α) [] turn where
  le := le_rfl
  taken k r hr := by simp at hr
  turns := .of_none (fun k => by simp) h

theorem congr (h : Tickets pushed popped turn) (ht : ∀ t, turn' t = turn t) : Tickets pushed popped turn' :=
  ⟨h.le, h.taken, h.turns.congr (fun _ => Iff.rfl) (fun _ => Iff.rfl) ht⟩

theorem lt_of_some (h : Tickets pushed popped turn) {o : Option (Option α)} (ho : popped[k]? = some o) :
    k < pushed.length := (List.getElem?_eq_some_iff.1 ho).1.trans_le h.le

theorem push (h : Tickets pushed popped turn) (l : List α) : Tickets (pushed ++ l) popped turn where
  le := by
    rw [List.length_append]
    exact h.le.trans (Nat.le_add_right _ _)
  taken k r hr := by
    rw [h.taken k r hr, List.getElem?_append_left (h.lt_of_some hr)]
  turns := h.turns

/-- A consumer that has no number draws one. -/
theorem draw (h : Tickets pushed popped turn) (hlt : popped.length < pushed.length) (ht : turn t = none)
    (ht' : turn' t = some popped.length) (he : ∀ u, u ≠ t → turn' u = turn u) :
    Tickets pushed (popped ++ [none]) turn' := by
  have hget : ∀ k o, (popped ++ [none])[k]? = some o ↔ k = popped.length ∧ o = none ∨ popped[k]? = some o := by
    intro k o
    rcases lt_trichotomy k popped.length with hk | rfl | hk
    · simp [List.getElem?_append_left hk, hk.ne]
    · simp [eq_comm]
    · simp only [List.getElem?_append_right hk.le, List.getElem?_eq_none hk.le, hk.ne', false_and, false_or]
      rw [List.getElem?_eq_none (by simp; omega)]
  refine ⟨?_, fun k r hr => ?_, ?_⟩
  · rw [List.length_append, List.length_singleton]
    exact hlt
  · rcases (hget k (some r)).1 hr with ⟨-, hr⟩ | hr
    · cases hr
    · exact h.taken k r hr
  · refine h.turns.appear (x := popped.length) (by simp) ht (fun k => ?_) (fun _ => Iff.rfl) ht' he
    rw [hget]
    simp

/-- A consumer gets the value at its place. -/
theorem redeem (h : Tickets pushed popped turn) (ht : turn t = some k) (ht' : turn' t = none)
    (he : ∀ u, u ≠ t → turn' u = turn u) : Tickets pushed (popped.set k (some pushed[k]?)) turn' := by
  have hk := (List.getElem?_eq_some_iff.1 (h.turns.mem_own t k ht)).1
  refine ⟨?_, fun m r hr => ?_, ?_⟩
  · rw [List.length_set]
    exact h.le
  · by_cases hm : k = m
    · rw [← hm, List.getElem?_set_self hk] at hr
      cases hr
      rw [hm]
    · rw [List.getElem?_set_ne hm] at hr
      exact h.taken m r hr
  · refine h.turns.drop ht (fun m => ?_) (fun _ => Iff.rfl) ht' he
    by_cases hm : m = k
    · simp [hm, List.getElem?_set_self hk]
    · simp [List.getElem?_set_ne (Ne.symm hm), hm]

/-- What has been redeemed has a value. -/
theorem exists_value (h : Tickets pushed popped turn) {r : Option α} (hr : popped[k]? = some (some r)) :
    ∃ v, r = some v ∧ pushed[k]? = some v := by
  have hlt := h.lt_of_some hr
  refine ⟨pushed[k], ?_, List.getElem?_eq_getElem hlt⟩
  rw [h.taken k r hr, List.getElem?_eq_getElem hlt]

/-- When nobody has a number, the values that were drawn are the first ones. -/
theorem eq_take (h : Tickets pushed popped turn) (ht : ∀ t, turn t = none) :
    popped = (pushed.take popped.length).map fun v => some (some v) := by
  refine List.ext_getElem? fun k => ?_
  rw [List.getElem?_map]
  cases hk : popped[k]? with
  | none =>
    have hle := List.getElem?_eq_none_iff.1 hk
    rw [List.getElem?_eq_none (by simp; omega)]
    rfl
  | some o =>
    have hlt := (List.getElem?_eq_some_iff.1 hk).1
    cases o with
    | none =>
      obtain hf | ⟨t, hu⟩ := h.turns.total k hk
      · exact hf.elim
      · cases (ht t).symm.trans hu
    | some r =>
      obtain ⟨v, rfl, hv⟩ := h.exists_value hk
      rw [List.getElem?_take_of_lt hlt, hv]
      rfl

end Tickets

end Wizard
