import Wizard.Owners
import Wizard.Tally

/-! Reference counts. A thing is referred to from a list or by threads; the thread that drops
the last reference frees it. -/

namespace Wizard

variable {α Tid : Type*} [DecidableEq α] [Fintype Tid]

/-- How many references there are to `a`, with at most one from the list. -/
def refs (L : List α) (held : Tid → Option α) (a : α) : Nat := (if a ∈ L then 1 else 0) + tally Finset.univ held a

/-- What is allocated has its count right, and is either referred to or freed by one thread. -/
structure RefCounted (alloc : α → Prop) (count : α → Nat) (L : List α) (held freeing : Tid → Option α) : Prop where
  counts : ∀ a, alloc a → count a = refs L held a
  owned : Owned alloc (fun a => 0 < refs L held a) freeing

variable {L L' : List α} {held held' freeing freeing' : Tid → Option α} {alloc alloc' : α → Prop}
  {count count' : α → Nat} {a b : α} {t u : Tid}

theorem refs_le : refs L held a ≤ Fintype.card Tid + 1 := by
  have ht : tally Finset.univ held a ≤ ∑ _t : Tid, 1 := by
    refine Finset.sum_le_sum fun t _ => ?_
    rw [hit]
    split <;> omega
  rw [← Finset.card_eq_sum_ones, Finset.card_univ] at ht
  rw [refs]
  split <;> omega

theorem refs_of_none (h : ∀ t, held t = none) : refs L held a = if a ∈ L then 1 else 0 := by
  rw [refs, tally_eq_zero fun t _ => by simp [h t], Nat.add_zero]

theorem refs_pos_of_mem (ha : a ∈ L) : 0 < refs L held a := by
  rw [refs, if_pos ha]
  omega

section Update

variable [DecidableEq Tid]

theorem refs_pos_of_held (ht : held t = some a) : 0 < refs L held a := by
  have hh := tally_pos (Finset.mem_univ t) ht
  rw [refs]
  omega

theorem refs_update (t : Tid) (o : Option α) :
    refs L (Function.update held t o) a + hit (held t) a = refs L held a + hit o a := by
  have hh := tally_update (f := held) (g := Function.update held t o) (y := a) (Finset.mem_univ t)
    fun u _ hu => Function.update_of_ne hu _ _
  rw [Function.update_self] at hh
  rw [refs, refs]
  omega

theorem refs_acquire (ht : held t = none) :
    refs L (Function.update held t (some a)) b = refs L held b + hit (some a) b := by
  have hh : _ = refs L held b + hit (some a) b := refs_update t (some a)
  rwa [ht, hit_none, Nat.add_zero] at hh

theorem refs_release (ht : held t = some a) :
    refs L (Function.update held t none) b + hit (some a) b = refs L held b := by
  have hh : _ = refs L held b + hit none b := refs_update t none
  rwa [ht, hit_none, Nat.add_zero] at hh

/-- A thread hands its reference over to the list. -/
theorem refs_push (ht : held t = some a) (ha : a ∉ L) (b : α) :
    refs (a :: L) (Function.update held t none) b = refs L held b := by
  have hh := refs_release (L := L) (b := b) ht
  have hc : refs (a :: L) (Function.update held t none) b =
      refs L (Function.update held t none) b + hit (some a) b := by
    by_cases hb : b = a
    · subst hb
      rw [refs, refs, if_pos List.mem_cons_self, if_neg ha, hit_self]
      omega
    · have hmem : b ∈ a :: L ↔ b ∈ L := by simp [hb]
      rw [refs, refs, hit_ne (Ne.symm hb), Nat.add_zero]
      simp only [hmem]
  omega

/-- A thread takes the reference of the list over. -/
theorem refs_withdraw {front back : List α} (ht : held t = none) (hn : (front ++ a :: back).Nodup) (b : α) :
    refs (front ++ back) (Function.update held t (some a)) b = refs (front ++ a :: back) held b := by
  rw [refs_acquire ht]
  have hnot : a ∉ front ++ back := (List.nodup_middle.1 hn).notMem
  by_cases hb : b = a
  · subst hb
    rw [refs, refs, if_neg hnot, if_pos (by simp), hit_self]
    omega
  · have hmem : b ∈ front ++ a :: back ↔ b ∈ front ++ back := by simp [hb]
    rw [refs, refs, hit_ne (Ne.symm hb), Nat.add_zero]
    simp only [hmem]

end Update

namespace RefCounted

theorem transfer (h : RefCounted alloc count L held freeing) (hr : ∀ b, refs L' held' b = refs L held b) :
    RefCounted alloc count L' held' freeing where
  counts b hb := (h.counts b hb).trans (hr b).symm
  owned := h.owned.congr (fun _ => Iff.rfl) (fun b => by rw [hr b]) fun _ => rfl

theorem recount (h : RefCounted alloc count L held freeing) (hc : ∀ b, alloc b → count' b = count b) :
    RefCounted alloc count' L held freeing :=
  ⟨fun b hb => (hc b hb).trans (h.counts b hb), h.owned⟩

theorem congr (h : RefCounted alloc count L held freeing) (ha : ∀ b, alloc' b ↔ alloc b) :
    RefCounted alloc' count L held freeing :=
  ⟨fun b hb => h.counts b ((ha b).1 hb), h.owned.congr ha (fun _ => Iff.rfl) fun _ => rfl⟩

section Facts

variable (h : RefCounted alloc count L held freeing)
include h

theorem alloc_of_freeing (ht : freeing t = some a) : alloc a := h.owned.mem_own t a ht

theorem refs_eq_zero (ha : ¬ alloc a) : refs L held a = 0 := by
  by_contra hr
  exact ha (h.owned.mem_shared a (Nat.pos_of_ne_zero hr))

theorem count_le (ha : alloc a) : count a ≤ Fintype.card Tid + 1 := (h.counts a ha).trans_le refs_le

/-- When no thread refers to anything or frees it, what is allocated is on the list. -/
theorem alloc_iff_mem (hheld : ∀ t, held t = none) (hf : ∀ t, freeing t = none) : alloc a ↔ a ∈ L := by
  rw [h.owned.iff_of_none hf, refs_of_none hheld]
  split <;> simp [*]

end Facts

variable [DecidableEq Tid]

section Held

variable (h : RefCounted alloc count L held freeing)
include h

theorem alloc_of_held (ht : held t = some a) : alloc a := h.owned.mem_shared a (refs_pos_of_held ht)

theorem not_held_of_freeing (hf : freeing t = some a) : held u ≠ some a := fun hu =>
  h.owned.apart t a hf (refs_pos_of_held hu)

theorem count_pos (ht : held t = some a) : 0 < count a := by
  rw [h.counts a (h.alloc_of_held ht)]
  exact refs_pos_of_held ht

end Held

theorem acquire (h : RefCounted alloc count L held freeing) (ht : held t = none) (ha : alloc a) (hpos : 0 < count a)
    (hc : count' a = count a + 1) (hne : ∀ b, b ≠ a → count' b = count b) :
    RefCounted alloc count' L (Function.update held t (some a)) freeing := by
  have hr : ∀ b, b ≠ a → refs L (Function.update held t (some a)) b = refs L held b := fun b hb => by
    rw [refs_acquire ht, hit_ne (Ne.symm hb), Nat.add_zero]
  have hra : refs L (Function.update held t (some a)) a = refs L held a + 1 := by rw [refs_acquire ht, hit_self]
  constructor
  · intro b hb
    by_cases hba : b = a
    · rw [hba, hc, hra, h.counts a ha]
    · rw [hne b hba, hr b hba, h.counts b hb]
  · refine h.owned.congr (fun _ => Iff.rfl) (fun b => ?_) fun _ => rfl
    by_cases hba : b = a
    · rw [hba, hra, ← h.counts a ha]
      omega
    · rw [hr b hba]

/-- A reference that is not the last one is dropped. -/
theorem release (h : RefCounted alloc count L held freeing) (ht : held t = some a) (hlast : count a ≠ 1)
    (hc : count' a = count a - 1) (hne : ∀ b, b ≠ a → count' b = count b) :
    RefCounted alloc count' L (Function.update held t none) freeing := by
  have hr : ∀ b, b ≠ a → refs L (Function.update held t none) b = refs L held b := fun b hb => by
    rw [← refs_release ht, hit_ne (Ne.symm hb), Nat.add_zero]
  have hra : refs L (Function.update held t none) a + 1 = refs L held a := by rw [← refs_release ht, hit_self]
  have hcount := h.counts a (h.alloc_of_held ht)
  constructor
  · intro b hb
    by_cases hba : b = a
    · rw [hba, hc]
      omega
    · rw [hne b hba, hr b hba, h.counts b hb]
  · refine h.owned.congr (fun _ => Iff.rfl) (fun b => ?_) fun _ => rfl
    by_cases hba : b = a
    · rw [hba]
      omega
    · rw [hr b hba]

/-- The thread that drops the last reference is to free what it referred to. -/
theorem releaseLast (h : RefCounted alloc count L held freeing) (ht : held t = some a) (hf : freeing t = none)
    (hlast : count a = 1) (hc : count' a = 0) (hne : ∀ b, b ≠ a → count' b = count b) :
    RefCounted alloc count' L (Function.update held t none) (Function.update freeing t (some a)) := by
  have hr : ∀ b, b ≠ a → refs L (Function.update held t none) b = refs L held b := fun b hb => by
    rw [← refs_release ht, hit_ne (Ne.symm hb), Nat.add_zero]
  have hra : refs L (Function.update held t none) a + 1 = refs L held a := by rw [← refs_release ht, hit_self]
  have hcount := h.counts a (h.alloc_of_held ht)
  constructor
  · intro b hb
    by_cases hba : b = a
    · rw [hba, hc]
      omega
    · rw [hne b hba, hr b hba, h.counts b hb]
  · refine h.owned.take (refs_pos_of_held ht) hf (fun _ => Iff.rfl) (fun b => ?_) (Function.update_self ..)
      fun u hu => Function.update_of_ne hu _ _
    by_cases hba : b = a
    · simp only [hba, ne_eq, not_true_eq_false, false_and, iff_false]
      omega
    · simp [hr b hba, hba]

theorem free (h : RefCounted alloc count L held freeing) (hf : freeing t = some a)
    (ha : ∀ b, alloc' b ↔ b ≠ a ∧ alloc b) :
    RefCounted alloc' count L held (Function.update freeing t none) where
  counts b hb := h.counts b ((ha b).1 hb).2
  owned := h.owned.drop hf ha (fun _ => Iff.rfl) (Function.update_self ..) fun _ hu => Function.update_of_ne hu _ _

/-- A new thing comes with one reference. -/
theorem allocate (h : RefCounted alloc count L held freeing) (ha : ¬ alloc a) (ht : held t = none)
    (halloc : ∀ b, alloc' b ↔ b = a ∨ alloc b) (hc : count' a = 1) (hne : ∀ b, b ≠ a → count' b = count b) :
    RefCounted alloc' count' L (Function.update held t (some a)) freeing := by
  have hr : ∀ b, b ≠ a → refs L (Function.update held t (some a)) b = refs L held b := fun b hb => by
    rw [refs_acquire ht, hit_ne (Ne.symm hb), Nat.add_zero]
  have hra : refs L (Function.update held t (some a)) a = 1 := by rw [refs_acquire ht, hit_self, h.refs_eq_zero ha]
  constructor
  · intro b hb
    by_cases hba : b = a
    · rw [hba, hc, hra]
    · rw [hne b hba, hr b hba, h.counts b (((halloc b).1 hb).resolve_left hba)]
  · refine h.owned.appearShared ha halloc (fun b => ?_) fun _ => rfl
    by_cases hba : b = a
    · simp [hba, hra]
    · simp [hba, hr b hba]

end RefCounted

end Wizard
