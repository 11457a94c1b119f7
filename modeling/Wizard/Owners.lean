import Mathlib.Logic.Basic

/-! Things that are shared or have one owner. -/

namespace Wizard

variable {α Tid : Type*}

/-- What is in `dom` is shared or owned, not both, and no two threads own the
same thing. -/
structure Owned (dom shared : α → Prop) (own : Tid → Option α) : Prop where
  mem_shared : ∀ x, shared x → dom x
  mem_own : ∀ t x, own t = some x → dom x
  total : ∀ x, dom x → shared x ∨ ∃ t, own t = some x
  apart : ∀ t x, own t = some x → ¬ shared x
  unique : ∀ t u x, own t = some x → own u = some x → t = u

namespace Owned

variable {dom dom' shared shared' : α → Prop} {own own' : Tid → Option α} {t : Tid} {x : α}

theorem congr (h : Owned dom shared own) (hd : ∀ y, dom' y ↔ dom y) (hs : ∀ y, shared' y ↔ shared y)
    (ho : ∀ u, own' u = own u) : Owned dom' shared' own' := by
  obtain rfl : dom' = dom := funext fun y => propext (hd y)
  obtain rfl : shared' = shared := funext fun y => propext (hs y)
  obtain rfl : own' = own := funext ho
  exact h

theorem of_none (h : ∀ x, dom x ↔ shared x) (ho : ∀ t, own t = none) : Owned dom shared own := by
  have hno : ∀ {t x}, own t ≠ some x := fun {t x} => by simp [ho t]
  exact ⟨fun x => (h x).2, fun t x hx => absurd hx hno, fun x hx => .inl ((h x).1 hx),
    fun t x hx => absurd hx hno, fun t u x hx => absurd hx hno⟩

/-- When nobody owns anything, everything is shared. -/
theorem iff_of_none (h : Owned dom shared own) (ho : ∀ t, own t = none) (y : α) : dom y ↔ shared y := by
  constructor
  · intro hy
    rcases h.total y hy with hs | ⟨t, ht⟩
    · exact hs
    · rw [ho t] at ht
      cases ht
  · exact h.mem_shared y

theorem appear (h : Owned dom shared own) (hx : ¬ dom x) (ht : own t = none) (hd : ∀ y, dom' y ↔ y = x ∨ dom y)
    (hs : ∀ y, shared' y ↔ shared y) (ho : own' t = some x) (he : ∀ u, u ≠ t → own' u = own u) :
    Owned dom' shared' own' := by
  have hold : ∀ u y, own' u = some y → u = t ∧ y = x ∨ own u = some y ∧ y ≠ x := by
    intro u y hy
    by_cases hu : u = t
    · rw [hu, ho] at hy
      exact .inl ⟨hu, (Option.some.inj hy).symm⟩
    · rw [he u hu] at hy
      refine .inr ⟨hy, ?_⟩
      rintro rfl
      exact hx (h.mem_own u y hy)
  constructor
  · intro y hy
    exact (hd y).2 (.inr (h.mem_shared y ((hs y).1 hy)))
  · intro u y hy
    rcases hold u y hy with ⟨-, rfl⟩ | ⟨hy, -⟩
    · exact (hd y).2 (.inl rfl)
    · exact (hd y).2 (.inr (h.mem_own u y hy))
  · intro y hy
    rcases (hd y).1 hy with rfl | hy
    · exact .inr ⟨t, ho⟩
    · rcases h.total y hy with hy | ⟨u, hu⟩
      · exact .inl ((hs y).2 hy)
      · refine .inr ⟨u, ?_⟩
        rw [he u, hu]
        rintro rfl
        rw [ht] at hu
        cases hu
  · intro u y hy hsy
    rw [hs] at hsy
    rcases hold u y hy with ⟨-, rfl⟩ | ⟨hy, -⟩
    · exact hx (h.mem_shared y hsy)
    · exact h.apart u y hy hsy
  · intro u v y hu hv
    rcases hold u y hu with ⟨rfl, rfl⟩ | ⟨hu, hne⟩ <;> rcases hold v y hv with ⟨rfl, hyx⟩ | ⟨hv, hne'⟩
    · rfl
    · exact absurd rfl hne'
    · exact absurd hyx hne
    · exact h.unique u v y hu hv

/-- When `t` gives up `x`, the others own what they owned, which is not `x`. -/
theorem others (h : Owned dom shared own) (ht : own t = some x) (ho : own' t = none)
    (he : ∀ u, u ≠ t → own' u = own u) {u : Tid} {y : α} (hy : own' u = some y) : own u = some y ∧ y ≠ x := by
  have hu : u ≠ t := by
    rintro rfl
    rw [ho] at hy
    cases hy
  rw [he u hu] at hy
  refine ⟨hy, ?_⟩
  rintro rfl
  exact hu (h.unique u t y hy ht)

/-- A thread shares what it owns. -/
theorem give (h : Owned dom shared own) (ht : own t = some x) (hd : ∀ y, dom' y ↔ dom y)
    (hs : ∀ y, shared' y ↔ y = x ∨ shared y) (ho : own' t = none) (he : ∀ u, u ≠ t → own' u = own u) :
    Owned dom' shared' own' := by
  have hold : ∀ u y, own' u = some y → own u = some y ∧ y ≠ x := fun u y hy => h.others ht ho he hy
  constructor
  · intro y hy
    rcases (hs y).1 hy with rfl | hy
    · exact (hd y).2 (h.mem_own t y ht)
    · exact (hd y).2 (h.mem_shared y hy)
  · intro u y hy
    exact (hd y).2 (h.mem_own u y (hold u y hy).1)
  · intro y hy
    rcases h.total y ((hd y).1 hy) with hy | ⟨u, hu⟩
    · exact .inl ((hs y).2 (.inr hy))
    · by_cases hut : u = t
      · rw [hut, ht] at hu
        exact .inl ((hs y).2 (.inl (Option.some.inj hu).symm))
      · exact .inr ⟨u, (he u hut).trans hu⟩
  · intro u y hy hsy
    obtain ⟨hy, hne⟩ := hold u y hy
    exact h.apart u y hy (((hs y).1 hsy).resolve_left hne)
  · intro u v y hu hv
    exact h.unique u v y (hold u y hu).1 (hold v y hv).1

theorem drop (h : Owned dom shared own) (ht : own t = some x) (hd : ∀ y, dom' y ↔ y ≠ x ∧ dom y)
    (hs : ∀ y, shared' y ↔ shared y) (ho : own' t = none) (he : ∀ u, u ≠ t → own' u = own u) :
    Owned dom' shared' own' := by
  have hold : ∀ u y, own' u = some y → own u = some y ∧ y ≠ x := fun u y hy => h.others ht ho he hy
  constructor
  · intro y hy
    rw [hs] at hy
    refine (hd y).2 ⟨?_, h.mem_shared y hy⟩
    rintro rfl
    exact h.apart t y ht hy
  · intro u y hy
    obtain ⟨hy, hne⟩ := hold u y hy
    exact (hd y).2 ⟨hne, h.mem_own u y hy⟩
  · intro y hy
    obtain ⟨hne, hy⟩ := (hd y).1 hy
    rcases h.total y hy with hy | ⟨u, hu⟩
    · exact .inl ((hs y).2 hy)
    · refine .inr ⟨u, ?_⟩
      rw [he u, hu]
      rintro rfl
      rw [ht] at hu
      exact hne (Option.some.inj hu).symm
  · intro u y hy hsy
    exact h.apart u y (hold u y hy).1 ((hs y).1 hsy)
  · intro u v y hu hv
    exact h.unique u v y (hold u y hu).1 (hold v y hv).1

theorem appearShared (h : Owned dom shared own) (hx : ¬ dom x) (hd : ∀ y, dom' y ↔ y = x ∨ dom y)
    (hs : ∀ y, shared' y ↔ y = x ∨ shared y) (ho : ∀ u, own' u = own u) : Owned dom' shared' own' := by
  constructor
  · intro y hy
    exact (hd y).2 (((hs y).1 hy).imp_right (h.mem_shared y))
  · intro u y hy
    rw [ho] at hy
    exact (hd y).2 (.inr (h.mem_own u y hy))
  · intro y hy
    rcases (hd y).1 hy with rfl | hy
    · exact .inl ((hs y).2 (.inl rfl))
    · refine (h.total y hy).imp (fun hy => (hs y).2 (.inr hy)) fun ⟨u, hu⟩ => ⟨u, ?_⟩
      rw [ho, hu]
  · intro u y hy hsy
    rw [ho] at hy
    rcases (hs y).1 hsy with rfl | hsy
    · exact hx (h.mem_own u y hy)
    · exact h.apart u y hy hsy
  · intro u v y hu hv
    rw [ho] at hu hv
    exact h.unique u v y hu hv

/-- A thread takes what was shared for its own. -/
theorem take (h : Owned dom shared own) (hx : shared x) (ht : own t = none) (hd : ∀ y, dom' y ↔ dom y)
    (hs : ∀ y, shared' y ↔ y ≠ x ∧ shared y) (ho : own' t = some x) (he : ∀ u, u ≠ t → own' u = own u) :
    Owned dom' shared' own' := by
  have hold : ∀ u y, own' u = some y → u = t ∧ y = x ∨ own u = some y ∧ y ≠ x := by
    intro u y hy
    by_cases hu : u = t
    · rw [hu, ho] at hy
      exact .inl ⟨hu, (Option.some.inj hy).symm⟩
    · rw [he u hu] at hy
      refine .inr ⟨hy, ?_⟩
      rintro rfl
      exact h.apart u y hy hx
  constructor
  · intro y hy
    exact (hd y).2 (h.mem_shared y ((hs y).1 hy).2)
  · intro u y hy
    rcases hold u y hy with ⟨-, rfl⟩ | ⟨hy, -⟩
    · exact (hd y).2 (h.mem_shared y hx)
    · exact (hd y).2 (h.mem_own u y hy)
  · intro y hy
    by_cases hyx : y = x
    · rw [hyx]
      exact .inr ⟨t, ho⟩
    · rcases h.total y ((hd y).1 hy) with hsy | ⟨u, hu⟩
      · exact .inl ((hs y).2 ⟨hyx, hsy⟩)
      · refine .inr ⟨u, ?_⟩
        rw [he u, hu]
        rintro rfl
        rw [ht] at hu
        cases hu
  · intro u y hy hsy
    rw [hs] at hsy
    rcases hold u y hy with ⟨-, rfl⟩ | ⟨hy, -⟩
    · exact hsy.1 rfl
    · exact h.apart u y hy hsy.2
  · intro u v y hu hv
    rcases hold u y hu with ⟨rfl, rfl⟩ | ⟨hu, hne⟩ <;> rcases hold v y hv with ⟨rfl, hyx⟩ | ⟨hv, hne'⟩
    · rfl
    · exact absurd rfl hne'
    · exact absurd hyx hne
    · exact h.unique u v y hu hv

end Owned

end Wizard
