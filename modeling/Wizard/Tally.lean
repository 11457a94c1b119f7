import Mathlib.Data.Finset.Card
import Mathlib.Algebra.Order.BigOperators.Group.Finset

/-! How many cells of a finite set point to a given target. -/

namespace Wizard

variable {α β : Type*} [DecidableEq α] [DecidableEq β]

/-- One if `o` points to `y`. -/
def hit (o : Option β) (y : β) : Nat := if o = some y then 1 else 0

def tally (S : Finset α) (f : α → Option β) (y : β) : Nat := ∑ a ∈ S, hit (f a) y

@[simp] theorem hit_none (y : β) : hit none y = 0 := by simp [hit]

@[simp] theorem hit_self (y : β) : hit (some y) y = 1 := by simp [hit]

theorem hit_ne {x y : β} (h : x ≠ y) : hit (some x) y = 0 := if_neg (fun he => h (Option.some.inj he))

theorem hit_pos {o : Option β} {y : β} : 0 < hit o y ↔ o = some y := by
  rw [hit]
  split <;> simp_all

variable {S T : Finset α} {f g : α → Option β} {y : β} {a b : α}

omit [DecidableEq α] in
theorem tally_congr (h : ∀ a ∈ S, f a = g a) : tally S f y = tally S g y :=
  Finset.sum_congr rfl (fun a ha => by rw [h a ha])

theorem tally_erase (ha : a ∈ S) : hit (f a) y + tally (S.erase a) f y = tally S f y :=
  Finset.add_sum_erase S (fun a => hit (f a) y) ha

theorem tally_sdiff (h : T ⊆ S) : tally (S \ T) f y + tally T f y = tally S f y :=
  Finset.sum_sdiff h

omit [DecidableEq α] in
/-- Cells that do not point to `y` need not be counted. -/
theorem tally_subset (h : S ⊆ T) (hz : ∀ a ∈ T, a ∉ S → f a ≠ some y) : tally T f y = tally S f y :=
  (Finset.sum_subset h (fun a ha hS => by rw [hit, if_neg (hz a ha hS)])).symm

omit [DecidableEq β] in
theorem sum_change {M : Type*} [AddCommMonoid M] {u v : α → M} (ha : a ∈ S) (h : ∀ b ∈ S, b ≠ a → v b = u b) :
    ∑ b ∈ S, v b + u a = ∑ b ∈ S, u b + v a := by
  have he : ∑ b ∈ S.erase a, v b = ∑ b ∈ S.erase a, u b :=
    Finset.sum_congr rfl (fun b hb => h b (Finset.mem_of_mem_erase hb) (Finset.ne_of_mem_erase hb))
  rw [← Finset.add_sum_erase S v ha, ← Finset.add_sum_erase S u ha, he, add_right_comm, add_assoc, add_assoc,
    add_comm (v a), add_assoc]

theorem tally_update (ha : a ∈ S) (h : ∀ b ∈ S, b ≠ a → g b = f b) :
    tally S g y + hit (f a) y = tally S f y + hit (g a) y :=
  sum_change (u := fun b => hit (f b) y) (v := fun b => hit (g b) y) ha (fun b hb hba => by rw [h b hb hba])

omit [DecidableEq α] in
theorem tally_eq_zero (h : ∀ a ∈ S, f a ≠ some y) : tally S f y = 0 :=
  Finset.sum_eq_zero (fun a ha => by rw [hit, if_neg (h a ha)])

theorem tally_pos (ha : a ∈ S) (hf : f a = some y) : 0 < tally S f y := by
  have hh := tally_erase (f := f) (y := y) ha
  rw [hf, hit_self] at hh
  omega

omit [DecidableEq α] in
theorem exists_of_tally_pos (h : 0 < tally S f y) : ∃ a ∈ S, f a = some y := by
  by_contra hno
  exact h.ne' (tally_eq_zero (fun a ha hf => hno ⟨a, ha, hf⟩))

omit [DecidableEq α] in
theorem tally_le_card : tally S f y ≤ S.card := by
  rw [tally, Finset.card_eq_sum_ones]
  refine Finset.sum_le_sum fun a _ => ?_
  rw [hit]
  split <;> omega

theorem card_le_tally (h : T ⊆ S) (hf : ∀ a ∈ T, f a = some y) : T.card ≤ tally S f y := by
  have hT : tally T f y = T.card := by
    rw [tally, Finset.card_eq_sum_ones]
    exact Finset.sum_congr rfl (fun a ha => by rw [hf a ha, hit_self])
  have hh := tally_sdiff (f := f) (y := y) h
  omega

theorem two_le_tally (ha : a ∈ S) (hb : b ∈ S) (hab : a ≠ b) (hfa : f a = some y) (hfb : f b = some y) :
    2 ≤ tally S f y := by
  have hh := tally_erase (f := f) (y := y) ha
  have hp := tally_pos (Finset.mem_erase.2 ⟨hab.symm, hb⟩) hfb
  rw [hfa, hit_self] at hh
  omega

end Wizard
