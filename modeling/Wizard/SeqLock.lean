import Mathlib.Init

/-! Sequence locks. What the readers get to see is a function of how often writers have entered
and left their sections, each entry after the exit before it. -/

namespace Wizard

/-- `begin_ n` is what a read section begins with after `n` entries and exits of writers, and
`retry n w` says whether one that began with `w` is to start over. A section that is let through
has met no writer, and one that has met none is let through. -/
structure SeqLock (W : Type*) where
  begin_ : Nat → W
  retry : Nat → W → Bool
  sound : ∀ m n, m ≤ n → retry n (begin_ m) = false → m = n ∧ n % 2 = 0
  quiet : ∀ n, n % 2 = 0 → retry n (begin_ n) = false

namespace SeqLock

variable {W : Type*} (sl : SeqLock W)

/-- What a read section that began with `w` relies on at `n`: if no writer has come in, `p`. -/
def Since (w : W) (n : Nat) (p : Prop) : Prop :=
  ∃ m ≤ n, w = sl.begin_ m ∧ (m = n → n % 2 = 0 → p)

variable {sl} {w : W} {n n' : Nat} {p p' : Prop}

theorem since_begin (h : n % 2 = 0 → p) : sl.Since (sl.begin_ n) n p :=
  ⟨n, Nat.le_refl n, rfl, fun _ => h⟩

theorem Since.step (h : sl.Since w n p) (hn : n ≤ n') (hp : n = n' → n % 2 = 0 → p → p') : sl.Since w n' p' := by
  obtain ⟨m, hm, hw, hp₀⟩ := h
  refine ⟨m, Nat.le_trans hm hn, hw, fun he hev => ?_⟩
  have hn' : n = n' := by omega
  have hm' : m = n := by omega
  rw [← hn'] at hev
  exact hp hn' hev (hp₀ hm' hev)

theorem Since.of_retry (h : sl.Since w n p) (hr : sl.retry n w = false) : p := by
  obtain ⟨m, hm, hw, hp⟩ := h
  rw [hw] at hr
  obtain ⟨he, hev⟩ := sl.sound m n hm hr
  exact hp he hev

/-- A counter whose lowest bit is set while a writer is in. -/
def parity : SeqLock Nat where
  begin_ n := n - n % 2
  retry n w := decide (n ≠ w)
  sound m n hm h := by
    simp only [ne_eq, decide_not, Bool.not_eq_eq_eq_not, Bool.not_false, decide_eq_true_eq] at h
    omega
  quiet n h := by
    simp [h]

end SeqLock

end Wizard
