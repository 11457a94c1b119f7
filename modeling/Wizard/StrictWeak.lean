import Mathlib.Order.Antisymmetrization
import Mathlib.Order.Defs.Unbundled

/-! A strict weak ordering compares by a key in a linear order, the class of the
equivalent values. -/

namespace Wizard.StrictWeak

variable {T : Type} {less : T → T → Bool}

/-- Neither of the two comes before the other. -/
def Equivalent (less : T → T → Bool) (a b : T) : Prop := ¬ less a b ∧ ¬ less b a

instance (a b : T) : Decidable (Equivalent less a b) := inferInstanceAs (Decidable (_ ∧ _))

section Order

variable [IsStrictWeakOrder T fun a b => less a b]

theorem asymm {a b : T} (h : less a b) : ¬ less b a := fun h' =>
  irrefl_of (fun a b : T => less a b) a (trans_of (fun a b : T => less a b) h h')

/-- What is not before `b` is not before anything that `b` is not after. -/
theorem not_less_trans {a b c : T} (hab : ¬ less b a) (hbc : ¬ less c b) : ¬ less c a := by
  intro hca
  by_cases h : less a b
  · exact hbc (trans_of (fun a b : T => less a b) hca h)
  by_cases h' : less b c
  · exact hab (trans_of (fun a b : T => less a b) h' hca)
  · exact (@IsStrictWeakOrder.incomp_trans T (fun a b => less a b) _ a b c ⟨h, hab⟩ ⟨h', hbc⟩).2 hca

/-- `a` is at most `b` when `b` is not before `a`. -/
@[reducible]
def preorder (less : T → T → Bool) [IsStrictWeakOrder T fun a b => less a b] : Preorder T where
  le a b := ¬ less b a
  lt a b := less a b
  le_refl a := irrefl_of (fun a b : T => less a b) a
  le_trans _ _ _ := not_less_trans
  lt_iff_le_not_ge _ _ := ⟨fun h => ⟨asymm h, not_not.2 h⟩, fun h => not_not.1 h.2⟩

theorem exists_key : ∃ (Q : Type) (_ : LinearOrder Q) (key : T → Q), ∀ a b, key a < key b ↔ less a b := by
  let := preorder less
  have : @Std.Total T (· ≤ ·) := ⟨fun a b => by
    by_cases h : less b a
    · exact .inr (asymm h)
    · exact .inl h⟩
  let : DecidableLE T := fun a b => inferInstanceAs (Decidable (¬ less b a))
  let : DecidableLT T := fun a b => inferInstanceAs (Decidable (less a b = true))
  exact ⟨Antisymmetrization T (· ≤ ·), inferInstance, toAntisymmetrization (· ≤ ·),
    fun a b => toAntisymmetrization_lt_toAntisymmetrization_iff⟩

end Order

end Wizard.StrictWeak
