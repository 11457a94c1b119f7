import Mathlib.Data.BitVec
import Mathlib.Data.List.Basic

/-! What the route tables of `main/` are for: routes in the order of the list, the newest in
front, and a lookup that takes the first one for its address. -/

namespace Wizard.RouteTable

structure Route where
  addr : BitVec 64
  iface : BitVec 64
  deriving DecidableEq

def ulongMax : BitVec 64 := .allOnes 64

/-- What a lookup of `addr` is to return. -/
def answer (table : List Route) (addr : BitVec 64) : BitVec 64 :=
  ((table.find? fun r => decide (r.addr = addr)).map Route.iface).getD ulongMax

/-- A `route_del` takes the first route for its address out. -/
def del (table : List Route) (addr : BitVec 64) : List Route :=
  table.eraseP fun r => decide (r.addr = addr)

variable {front back : List Route} {r : Route} {addr : BitVec 64}

theorem answer_cons_of_eq (h : r.addr = addr) : answer (r :: back) addr = r.iface := by
  simp [answer, h]

theorem answer_cons_of_ne (h : r.addr ≠ addr) : answer (r :: back) addr = answer back addr := by
  simp [answer, h]

theorem answer_append_of_ne (h : ∀ r ∈ front, r.addr ≠ addr) : answer (front ++ back) addr = answer back addr := by
  induction front with
  | nil => rfl
  | cons r front ih =>
    rw [List.cons_append, answer_cons_of_ne (h r List.mem_cons_self)]
    exact ih fun r hr => h r (List.mem_cons_of_mem _ hr)

/-- Without one of its routes a table answers as before, or as what comes after that route. -/
theorem answer_remove (front back : List Route) (r : Route) (addr : BitVec 64) :
    answer (front ++ back) addr = answer (front ++ r :: back) addr ∨
      r.addr = addr ∧ answer (front ++ back) addr = answer back addr := by
  induction front with
  | nil =>
    by_cases hr : r.addr = addr
    · exact .inr ⟨hr, rfl⟩
    · exact .inl (answer_cons_of_ne hr).symm
  | cons x front ih =>
    simp only [List.cons_append]
    by_cases hx : x.addr = addr
    · left
      rw [answer_cons_of_eq hx, answer_cons_of_eq hx]
    · rw [answer_cons_of_ne hx, answer_cons_of_ne hx]
      exact ih

theorem del_append_of_ne (h : ∀ r ∈ front, r.addr ≠ addr) (hr : r.addr = addr) :
    del (front ++ r :: back) addr = front ++ back := by
  rw [del, List.eraseP_append_right]
  · rw [List.eraseP_cons_of_pos (by simp [hr])]
  · intro x hx
    simp [h x hx]

end Wizard.RouteTable
