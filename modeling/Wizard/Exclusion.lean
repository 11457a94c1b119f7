import Mathlib.Logic.Basic

/-! Mutual exclusion. Who is in a critical section is the owner of the mutex. -/

namespace Wizard

variable {A : Type*}

def Exclusive (mutex : Option A) (inside : A → Prop) : Prop := ∀ a, inside a → mutex = some a

namespace Exclusive

variable {mutex : Option A} {inside inside' : A → Prop} {a b : A}

theorem unique (h : Exclusive mutex inside) (ha : inside a) (hb : inside b) : a = b :=
  Option.some.inj ((h a ha).symm.trans (h b hb))

theorem mono (h : Exclusive mutex inside) (hi : ∀ b, inside' b → inside b) : Exclusive mutex inside' :=
  fun b hb => h b (hi b hb)

theorem acquire (h : Exclusive none inside) (hi : ∀ b, b ≠ a → inside' b → inside b) : Exclusive (some a) inside' := by
  intro b hb
  by_cases hab : b = a
  · rw [hab]
  · cases h b (hi b hab hb)

theorem release (h : Exclusive mutex inside) (ha : inside a) (hout : ¬ inside' a)
    (hi : ∀ b, b ≠ a → inside' b → inside b) : Exclusive none inside' := by
  intro b hb
  by_cases hab : b = a
  · rw [hab] at hb
    exact absurd hb hout
  · exact absurd (h.unique (hi b hab hb) ha) hab

end Exclusive

end Wizard
