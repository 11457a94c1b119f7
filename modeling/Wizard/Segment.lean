import Mathlib.Logic.Function.Basic
import Mathlib.Data.List.Basic

/-! Segments of linked lists in a heap that maps each cell to its successor. -/

namespace Wizard

variable {α : Type*}

/-- The cells `l` lie on the way from `p` to `q`. -/
def Segment (next : α → Option α) : Option α → List α → Option α → Prop
  | p, [], q => p = q
  | p, a :: l, q => p = some a ∧ Segment next (next a) l q

/-- The first `n` cells from `p`. -/
def walk (next : α → Option α) : Option α → Nat → List α
  | _, 0 => []
  | none, _ + 1 => []
  | some a, n + 1 => a :: walk next (next a) n

namespace Segment

variable {next next' : α → Option α} {p q : Option α} {l l' : List α}

theorem congr (h : Segment next p l q) (he : ∀ a ∈ l, next' a = next a) : Segment next' p l q := by
  induction l generalizing p with
  | nil => exact h
  | cons a l ih =>
    refine ⟨h.1, ?_⟩
    rw [he a List.mem_cons_self]
    exact ih h.2 (fun b hb => he b (List.mem_cons_of_mem _ hb))

theorem append_iff : Segment next p (l ++ l') q ↔ ∃ m, Segment next p l m ∧ Segment next m l' q := by
  induction l generalizing p with
  | nil => simp [Segment]
  | cons a l ih => simp [Segment, ih, and_assoc]

theorem append {m : Option α} (h : Segment next p l m) (h' : Segment next m l' q) :
    Segment next p (l ++ l') q :=
  append_iff.2 ⟨m, h, h'⟩

theorem redirect [DecidableEq α] {a : α} (h : Segment next p (l ++ [a]) q) (ha : a ∉ l) (r : Option α) :
    Segment (Function.update next a r) p (l ++ [a]) r := by
  obtain ⟨m, hl, hm, -⟩ := append_iff.1 h
  refine append (hl.congr ?_) ⟨hm, ?_⟩
  · intro b hb
    rw [Function.update_of_ne (ne_of_mem_of_not_mem hb ha)]
  · rw [Function.update_self]
    rfl

theorem eq_nil (h : Segment next none l q) : l = [] := by
  cases l with
  | nil => rfl
  | cons a l => cases h.1

theorem mem_of_some {a : α} (h : Segment next (some a) l none) : a ∈ l := by
  cases l with
  | nil => cases h
  | cons b l =>
    cases h.1
    exact List.mem_cons_self

theorem walk_eq (h : Segment next p l q) : walk next p l.length = l := by
  induction l generalizing p with
  | nil => simp [walk]
  | cons a l ih =>
    obtain ⟨rfl, hl⟩ := h
    simp [walk, ih hl]

theorem walk_of_length_le {n : Nat} (h : Segment next p l none) (hn : l.length ≤ n) :
    walk next p n = l := by
  induction l generalizing p n with
  | nil =>
    have hp : p = none := h
    rw [hp]
    cases n <;> rfl
  | cons a l ih =>
    obtain ⟨rfl, hl⟩ := h
    cases n with
    | zero => simp at hn
    | succ n => simp [walk, ih hl (by simpa using hn)]

theorem split {a : α} (h : Segment next p l none) (h' : Segment next p l' (some a)) :
    ∃ r, l = l' ++ a :: r ∧ Segment next (next a) r none := by
  induction l' generalizing p l with
  | nil =>
    cases l with
    | nil => cases h.symm.trans h'
    | cons b l =>
      cases h.1.symm.trans h'
      exact ⟨l, rfl, h.2⟩
  | cons b l' ih =>
    obtain ⟨rfl, h'⟩ := h'
    cases l with
    | nil => cases h
    | cons b' l =>
      obtain ⟨⟨⟩, hl⟩ := h
      obtain ⟨r, rfl, hr⟩ := ih hl h'
      exact ⟨r, rfl, hr⟩

theorem unique (h : Segment next p l none) (h' : Segment next p l' none) : l = l' := by
  induction l generalizing p l' with
  | nil =>
    cases l' with
    | nil => rfl
    | cons b l' =>
      have hp : p = none := h
      rw [hp] at h'
      cases h'.1
  | cons a l ih =>
    obtain ⟨rfl, hl⟩ := h
    cases l' with
    | nil => cases h'
    | cons b l' =>
      obtain ⟨hb, hl'⟩ := h'
      cases hb
      rw [ih hl hl']

/-- A list that comes to an end visits no cell twice. -/
theorem nodup (h : Segment next p l none) : l.Nodup := by
  induction l generalizing p with
  | nil => exact List.nodup_nil
  | cons a l ih =>
    refine List.nodup_cons.2 ⟨fun ha => ?_, ih h.2⟩
    obtain ⟨pre, post, rfl⟩ := List.append_of_mem ha
    obtain ⟨m, -, hm⟩ := append_iff.1 h.2
    have hh := congrArg List.length (h.2.unique hm.2)
    simp only [List.length_append, List.length_cons] at hh
    omega

theorem next_eq_head? {a : α} {l' : List α} (h : Segment next p (l ++ a :: l') none) : next a = l'.head? := by
  obtain ⟨m, -, hm⟩ := append_iff.1 h
  cases l' with
  | nil => exact hm.2
  | cons b l' => exact hm.2.1

theorem start_eq_head? (h : Segment next p l none) : p = l.head? := by
  cases l with
  | nil => exact h
  | cons a l => exact h.1

/-- What is found behind the cells `l` from `p` on. -/
theorem next_getElem? {a : α} {i : Nat} (h : Segment next p l none) (hi : l[i]? = some a) : next a = l[i + 1]? := by
  obtain ⟨hlt, rfl⟩ := List.getElem?_eq_some_iff.1 hi
  have hsplit : l = l.take i ++ l[i] :: l.drop (i + 1) := by simp
  rw [hsplit] at h
  rw [h.next_eq_head?, List.head?_drop]

/-- A cell is at one place of a list that comes to an end. -/
theorem eq_of_mem {a : α} {r : List α} (h : Segment next p (l ++ a :: r) none) (h' : Segment next p l' (some a)) :
    l = l' := by
  obtain ⟨r', he, -⟩ := h.split h'
  obtain ⟨-, hr, hl⟩ := List.nodup_append.1 h.nodup
  have hnot : a ∉ l := fun ha => hl a ha a List.mem_cons_self rfl
  exact ((List.append_cons_inj_of_notMem hnot (List.nodup_cons.1 hr).1).1 he).1

theorem last {a : α} (h : Segment next p (a :: l) q) : next (l.getLastD a) = q := by
  induction l generalizing p a with
  | nil => exact h.2
  | cons b l ih =>
    rw [List.getLastD_cons]
    exact ih h.2

section Splice

variable [DecidableEq α] {a new d : α}

theorem relink (h : Segment next p (a :: l) q) (hl : (a :: l).Nodup) (r : Option α) :
    Segment (Function.update next (l.getLastD a) r) p (a :: l) r := by
  induction l generalizing p a with
  | nil =>
    refine ⟨h.1, ?_⟩
    exact Function.update_self a r next
  | cons b l ih =>
    rw [List.nodup_cons] at hl
    have hne : a ≠ l.getLastD b := (ne_of_mem_of_not_mem List.getLastD_mem_cons hl.1).symm
    rw [List.getLastD_cons]
    refine ⟨h.1, ?_⟩
    rw [Function.update_of_ne hne]
    exact ih h.2 hl.2

theorem insertAfter (h : Segment next p (a :: (l ++ l')) q) (hl : (new :: a :: (l ++ l')).Nodup) :
    Segment (Function.update (Function.update next new (next (l.getLastD a))) (l.getLastD a) (some new)) p
      (a :: (l ++ new :: l')) q := by
  obtain ⟨m, hfront, hback⟩ := append_iff.1 (show Segment next p ((a :: l) ++ l') q from h)
  rw [List.nodup_cons, ← List.cons_append, List.nodup_append] at hl
  obtain ⟨hnew, hfront', hback', hdisj⟩ := hl
  have hlast : l.getLastD a ∈ a :: l := List.getLastD_mem_cons
  have hne : new ≠ l.getLastD a := by
    rintro rfl
    exact hnew (List.mem_append_left _ hlast)
  have hup : Segment (Function.update next new (next (l.getLastD a))) p (a :: l) m :=
    hfront.congr (fun b hb => Function.update_of_ne (ne_of_mem_of_not_mem (List.mem_append_left _ hb) hnew) _ _)
  refine append (hup.relink hfront' (some new)) ⟨rfl, ?_⟩
  rw [Function.update_of_ne hne, Function.update_self, hfront.last]
  refine hback.congr (fun b hb => ?_)
  have hbl : b ≠ l.getLastD a := fun he => hdisj _ hlast _ hb he.symm
  have hbn : b ≠ new := ne_of_mem_of_not_mem (List.mem_append_right _ hb) hnew
  rw [Function.update_of_ne hbl, Function.update_of_ne hbn]

theorem eraseAfter (h : Segment next p (a :: (l ++ d :: l')) q) (hl : (a :: (l ++ d :: l')).Nodup) :
    Segment (Function.update next (l.getLastD a) (next d)) p (a :: (l ++ l')) q := by
  obtain ⟨m, hfront, hd, hback⟩ := append_iff.1 (show Segment next p ((a :: l) ++ d :: l') q from h)
  rw [← List.cons_append, List.nodup_append] at hl
  obtain ⟨hfront', hback', hdisj⟩ := hl
  have hlast : l.getLastD a ∈ a :: l := List.getLastD_mem_cons
  refine append (hfront.relink hfront' (next d)) (hback.congr (fun b hb => ?_))
  exact Function.update_of_ne (fun he => hdisj _ hlast _ (List.mem_cons_of_mem d hb) he.symm) _ _

end Splice

end Segment

end Wizard
