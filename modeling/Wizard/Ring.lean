import Wizard.Segment

/-! Circular lists around a sentinel, one link of a node at a time. A doubly linked list is a
ring of its forward links and, backwards, a ring of the others. -/

namespace Wizard

variable {α : Type*}

/-- A way that ends at a node off the way visits no node twice. -/
theorem Segment.nodup_of_not_mem [DecidableEq α] {next : α → Option α} {p : Option α} {l : List α} {q : α}
    (h : Segment next p l (some q)) (hq : q ∉ l) : l.Nodup := by
  have hl : Segment (Function.update next q none) p (l ++ [q]) none := by
    refine append (h.congr fun a ha => ?_) ⟨rfl, Function.update_self ..⟩
    exact Function.update_of_ne (ne_of_mem_of_not_mem ha hq) _ _
  exact (List.nodup_append.1 hl.nodup).1

/-- The links `f` go from the sentinel `h` through `l` and back to it. -/
structure Ring (f : α → α) (h : α) (l : List α) : Prop where
  path : Segment (fun a => some (f a)) (some h) (h :: l) (some h)
  nodup : (h :: l).Nodup

namespace Ring

variable {f f' : α → α} {h a : α} {l l' : List α}

theorem empty (hf : f h = h) : Ring f h [] := by
  refine ⟨⟨rfl, ?_⟩, by simp⟩
  exact congrArg some hf

theorem congr (hr : Ring f h l) (he : ∀ a ∈ h :: l, f' a = f a) : Ring f' h l :=
  ⟨hr.path.congr fun a ha => congrArg some (he a ha), hr.nodup⟩

/-- The way from the node that the sentinel leads to. -/
theorem tail (hr : Ring f h l) : Segment (fun a => some (f a)) (some (f h)) l (some h) :=
  hr.path.2

theorem ne (hr : Ring f h l) (ha : a ∈ l) : a ≠ h :=
  ne_of_mem_of_not_mem ha (List.nodup_cons.1 hr.nodup).1

/-- The link of the last node of a front part leads to the first node of the rest. -/
theorem link (hr : Ring f h (l ++ l')) : f (l.getLastD h) = l'.headD h := by
  obtain ⟨m, hl, hl'⟩ := Segment.append_iff.1 (show Segment _ _ ((h :: l) ++ l') _ from hr.path)
  have hm : some (f (l.getLastD h)) = m := hl.last
  cases l' with
  | nil => exact Option.some.inj (hm.trans hl')
  | cons b l' => exact Option.some.inj (hm.trans hl'.1)

theorem first (hr : Ring f h l) : f h = l.headD h :=
  link (l := []) hr

theorem link_of_mem (hr : Ring f h l) (ha : a ∈ l) : f a = h ∨ f a ∈ l := by
  obtain ⟨front, back, rfl⟩ := List.append_of_mem ha
  have hr' : Ring f h ((front ++ [a]) ++ back) := by simpa using hr
  have hlink := hr'.link
  rw [List.getLastD_concat] at hlink
  cases back with
  | nil => exact .inl hlink
  | cons b back =>
    right
    rw [hlink]
    simp

section Update

variable [DecidableEq α]

theorem some_update (x b : α) : (fun y => some (Function.update f x b y)) =
    Function.update (fun y => some (f y)) x (some b) := by
  funext y
  by_cases hy : y = x
  · subst hy
    simp
  · simp [hy]

theorem update_of_not_mem (hr : Ring f h l) (ha : a ∉ h :: l) (b : α) : Ring (Function.update f a b) h l :=
  hr.congr fun _ hx => Function.update_of_ne (ne_of_mem_of_not_mem hx ha) _ _

/-- A node with its link in place goes in behind the front part. -/
theorem insert (hr : Ring f h (l ++ l')) (ha : a ∉ h :: (l ++ l')) (hf : f a = f (l.getLastD h)) :
    Ring (Function.update f (l.getLastD h) a) h (l ++ a :: l') := by
  have hn : (a :: h :: (l ++ l')).Nodup := List.nodup_cons.2 ⟨ha, hr.nodup⟩
  refine ⟨?_, ?_⟩
  · have hp := Segment.insertAfter hr.path hn
    rw [some_update]
    have hself : Function.update (fun y => some (f y)) a (some (f (l.getLastD h))) = fun y => some (f y) := by
      rw [← hf]
      exact Function.update_eq_self a _
    rwa [hself] at hp
  · refine (List.Perm.nodup_iff ?_).1 hn
    exact (List.Perm.swap h a _).trans (List.Perm.cons h List.perm_middle.symm)

/-- The front part skips a node. -/
theorem remove (hr : Ring f h (l ++ a :: l')) : Ring (Function.update f (l.getLastD h) (f a)) h (l ++ l') := by
  refine ⟨?_, ?_⟩
  · rw [some_update]
    exact Segment.eraseAfter hr.path hr.nodup
  · exact hr.nodup.sublist (List.Sublist.cons_cons h (List.Sublist.append_left (List.sublist_cons_self a l') l))

end Update

end Ring

end Wizard
