import Mathlib.Data.List.Nodup
import Wizard.Segment

/-! The singly linked list of the route tables in `main/`: a link is what `repp` points to. -/

namespace Wizard.RouteTable

/-- What `repp` leads to: the `re_next` of `route_list` or of an entry. -/
inductive Link
  | routeList
  | entry (a : Nat)
  deriving DecidableEq

/-- The `re_next` behind the entries `front`. -/
def Link.After (front : List Nat) : Link → Prop
  | .routeList => front = []
  | .entry b => ∃ pre, front = pre ++ [b]

def way (next : Link → Option Nat) (a : Nat) : Option Nat := next (.entry a)

/-- The list consists of the entries `l`. -/
def Linked (next : Link → Option Nat) (l : List Nat) : Prop := Segment (way next) (next .routeList) l none

variable {next next' : Link → Option Nat} {l front back : List Nat} {a : Nat} {repp : Link}

theorem Link.After.mem (h : (Link.entry a).After front) : a ∈ front := by
  obtain ⟨pre, rfl⟩ := h
  simp

theorem Link.After.concat (front : List Nat) (a : Nat) : (Link.entry a).After (front ++ [a]) := ⟨front, rfl⟩

section Update

variable (next : Link → Option Nat) (a : Nat) (rep : Option Nat)

theorem update_entry_routeList : Function.update next (.entry a) rep .routeList = next .routeList := by
  have hne : Link.routeList ≠ .entry a := by simp
  exact Function.update_of_ne hne rep next

theorem way_update_routeList : way (Function.update next .routeList rep) = way next := by
  have hne : ∀ b, Link.entry b ≠ .routeList := by simp
  funext b
  exact Function.update_of_ne (hne b) rep next

theorem way_update_entry : way (Function.update next (.entry a) rep) = Function.update (way next) a rep := by
  funext b
  by_cases hb : b = a
  · rw [hb, Function.update_self]
    exact Function.update_self ..
  · rw [Function.update_of_ne hb]
    exact Function.update_of_ne (by simpa using hb) _ _

end Update

theorem Linked.congr (h : Linked next l) (hh : next' .routeList = next .routeList)
    (hw : ∀ b ∈ l, way next' b = way next b) : Linked next' l := by
  rw [Linked, hh]
  exact Segment.congr h hw

/-- What a link behind a front part of the list holds. -/
theorem Linked.next_eq (h : Linked next (front ++ back)) (hf : repp.After front) : next repp = back.head? := by
  cases repp with
  | routeList =>
    subst hf
    cases back with
    | nil => exact h
    | cons b back => exact h.1
  | entry b =>
    obtain ⟨pre, rfl⟩ := hf
    rw [List.append_assoc] at h
    exact Segment.next_eq_head? h

theorem Linked.push (h : Linked next l) (ha : way next a = next .routeList) :
    Linked (Function.update next .routeList (some a)) (a :: l) := by
  rw [Linked, way_update_routeList, Function.update_self]
  refine ⟨rfl, ?_⟩
  rw [ha]
  exact h

/-- The link of the front part leads past the entry. -/
theorem Linked.skip (h : Linked next (front ++ a :: back)) (hf : repp.After front) :
    Linked (Function.update next repp (way next a)) (front ++ back) := by
  cases repp with
  | routeList =>
    subst hf
    rw [Linked, way_update_routeList, Function.update_self]
    exact h.2
  | entry b =>
    have hnd := Segment.nodup h
    rw [List.nodup_middle, List.nodup_cons] at hnd
    obtain ⟨pre, rfl⟩ := hf
    obtain ⟨m, hfront, -, hback⟩ := Segment.append_iff.1 h
    have hb : b ∉ pre ∧ b ∉ back := by
      have h := hnd.2
      rw [List.append_assoc, List.singleton_append, List.nodup_middle, List.nodup_cons] at h
      simpa using h.1
    rw [Linked, way_update_entry, update_entry_routeList]
    refine (hfront.redirect hb.1 _).append (hback.congr fun c hc => Function.update_of_ne ?_ _ _)
    exact ne_of_mem_of_not_mem hc hb.2

end Wizard.RouteTable
