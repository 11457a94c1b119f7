import Mathlib.Logic.Equiv.Basic

/-! Things that are in exactly one place. `dom` says which things there are, and
`at_ x p` that `x` is found at `p`. -/

namespace Wizard

variable {α P : Type*}

structure OnePlace (dom : α → Prop) (at_ : α → P → Prop) : Prop where
  mem : ∀ x p, at_ x p → dom x
  exists_place : ∀ x, dom x → ∃ p, at_ x p
  unique : ∀ x p q, at_ x p → at_ x q → p = q

namespace OnePlace

variable {dom : α → Prop} {at_ at' : α → P → Prop}

theorem congr (h : OnePlace dom at_) (he : ∀ x p, at' x p ↔ at_ x p) : OnePlace dom at' := by
  constructor
  · intro x p hp
    exact h.mem x p ((he x p).1 hp)
  · intro x hx
    obtain ⟨p, hp⟩ := h.exists_place x hx
    exact ⟨p, (he x p).2 hp⟩
  · intro x p q hp hq
    exact h.unique x p q ((he x p).1 hp) ((he x q).1 hq)

theorem iff_eq (h : OnePlace dom at_) {x : α} {p : P} (hp : at_ x p) (q : P) : at_ x q ↔ q = p := by
  constructor
  · intro hq
    exact h.unique x q p hq hp
  · intro hq
    rw [hq]
    exact hp

/-- Everything moves at once, each thing by a rule of its own. -/
theorem map (h : OnePlace dom at_) (f : α → P → P) (he : ∀ x p, at' x p ↔ ∃ q, at_ x q ∧ f x q = p) :
    OnePlace dom at' := by
  constructor
  · intro x p hp
    obtain ⟨q, hq, -⟩ := (he x p).1 hp
    exact h.mem x q hq
  · intro x hx
    obtain ⟨q, hq⟩ := h.exists_place x hx
    exact ⟨f x q, (he x _).2 ⟨q, hq, rfl⟩⟩
  · intro x p q hp hq
    obtain ⟨a, ha, rfl⟩ := (he x p).1 hp
    obtain ⟨b, hb, rfl⟩ := (he x q).1 hq
    rw [h.unique x a b ha hb]

theorem move (h : OnePlace dom at_) {x₀ : α} {p₀ : P} (q₀ : P) (h₀ : at_ x₀ p₀)
    (hmoved : ∀ p, at' x₀ p ↔ p = q₀) (he : ∀ x p, x ≠ x₀ → (at' x p ↔ at_ x p)) : OnePlace dom at' := by
  constructor
  · intro x p hp
    by_cases hx : x = x₀
    · rw [hx]
      exact h.mem x₀ p₀ h₀
    · exact h.mem x p ((he x p hx).1 hp)
  · intro x hx
    by_cases hxx : x = x₀
    · subst hxx
      exact ⟨q₀, (hmoved q₀).2 rfl⟩
    · obtain ⟨p, hp⟩ := h.exists_place x hx
      exact ⟨p, (he x p hxx).2 hp⟩
  · intro x p q hp hq
    by_cases hx : x = x₀
    · subst hx
      rw [(hmoved p).1 hp, (hmoved q).1 hq]
    · exact h.unique x p q ((he x p hx).1 hp) ((he x q hx).1 hq)

theorem rename (h : OnePlace dom at_) (f : P ≃ P) (he : ∀ x p, at' x p ↔ at_ x (f p)) :
    OnePlace dom at' := by
  apply h.map (fun _ => f.symm)
  intro x p
  rw [he]
  constructor
  · intro hp
    exact ⟨f p, hp, f.symm_apply_apply p⟩
  · rintro ⟨q, hq, rfl⟩
    rw [f.apply_symm_apply]
    exact hq

theorem insert {dom' : α → Prop} (h : OnePlace dom at_) (x₀ : α) (q₀ : P)
    (hd : ∀ x, dom' x ↔ x = x₀ ∨ dom x) (hnew : ∀ p, at' x₀ p ↔ p = q₀)
    (he : ∀ x p, x ≠ x₀ → (at' x p ↔ at_ x p)) : OnePlace dom' at' := by
  constructor
  · intro x p hp
    by_cases hx : x = x₀
    · exact (hd x).2 (.inl hx)
    · exact (hd x).2 (.inr (h.mem x p ((he x p hx).1 hp)))
  · intro x hx
    by_cases hxx : x = x₀
    · subst hxx
      exact ⟨q₀, (hnew q₀).2 rfl⟩
    · obtain ⟨p, hp⟩ := h.exists_place x (((hd x).1 hx).resolve_left hxx)
      exact ⟨p, (he x p hxx).2 hp⟩
  · intro x p q hp hq
    by_cases hx : x = x₀
    · subst hx
      rw [(hnew p).1 hp, (hnew q).1 hq]
    · exact h.unique x p q ((he x p hx).1 hp) ((he x q hx).1 hq)

theorem remove {dom' : α → Prop} (h : OnePlace dom at_) (x₀ : α) (hd : ∀ x, dom' x ↔ x ≠ x₀ ∧ dom x)
    (he : ∀ x p, at' x p ↔ x ≠ x₀ ∧ at_ x p) : OnePlace dom' at' := by
  constructor
  · intro x p hp
    obtain ⟨hx, hp⟩ := (he x p).1 hp
    exact (hd x).2 ⟨hx, h.mem x p hp⟩
  · intro x hx
    obtain ⟨hxx, hx⟩ := (hd x).1 hx
    obtain ⟨p, hp⟩ := h.exists_place x hx
    exact ⟨p, (he x p).2 ⟨hxx, hp⟩⟩
  · intro x p q hp hq
    exact h.unique x p q ((he x p).1 hp).2 ((he x q).1 hq).2

end OnePlace

end Wizard
