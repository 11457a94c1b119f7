import Mathlib.Data.Fintype.Order
import Mathlib.Data.List.Nodup
import Mathlib.Logic.Relation

/-! The vertices of a finite graph to which no cycle leads, and the orders in which each of
them comes after its predecessors. -/

namespace Wizard.OffCycle

open Relation

variable {V : Type} {E : V → V → Prop} {u v : V}

/-- A cycle leads to `v`. -/
def Behind (E : V → V → Prop) (v : V) : Prop := ∃ u, TransGen E u u ∧ ReflTransGen E u v

theorem Behind.step (hu : Behind E u) (h : E u v) : Behind E v := by
  obtain ⟨w, hw, hwu⟩ := hu
  exact ⟨w, hw, hwu.tail h⟩

theorem Behind.exists_pred (hv : Behind E v) : ∃ u, E u v ∧ Behind E u := by
  obtain ⟨w, hw, hwv⟩ := hv
  obtain ⟨u, hwu, huv⟩ := TransGen.tail'_iff.1 (hw.trans_left hwv)
  exact ⟨u, huv, w, hw, hwu⟩

theorem acyclic_iff : (∀ v, ¬ TransGen E v v) ↔ ∀ v, ¬ Behind E v :=
  ⟨fun h _ ⟨u, hu, _⟩ => h u hu, fun h v hv => h v ⟨v, hv, .refl⟩⟩

/-- Along the edges between vertices to which no cycle leads there is no infinite way back. -/
theorem induction [Finite V] {P : V → Prop}
    (step : ∀ v, ¬ Behind E v → (∀ u, E u v → P u) → P v) (hv : ¬ Behind E v) : P v := by
  let R := TransGen fun a b => E a b ∧ ¬ Behind E b
  have hR : ∀ a, ¬ R a a := by
    intro a ha
    obtain ⟨b, _, _, hb⟩ := TransGen.tail'_iff.1 ha
    exact hb ⟨a, TransGen.mono (fun _ _ h => h.1) a a ha, .refl⟩
  have : IsTrans V R := ⟨fun _ _ _ => TransGen.trans⟩
  have : Std.Irrefl R := ⟨hR⟩
  have wf : WellFounded R := Finite.wellFounded_of_trans_of_irrefl R
  induction v using wf.induction with
  | _ v ih =>
    refine step v hv fun u hu => ih u (.single ⟨hu, hv⟩) fun h => hv (h.step hu)

/-- `out` lists the vertices to which no cycle leads, each one after its predecessors. -/
structure Topological (E : V → V → Prop) (out : List V) : Prop where
  nodup : out.Nodup
  after : ∀ l v r, out = l ++ v :: r → ∀ u, E u v → u ∈ l
  mem : ∀ v, v ∈ out ↔ ¬ Behind E v
  all : (∀ v, v ∈ out) ↔ ∀ v, ¬ TransGen E v v

theorem Topological.of_mem {out : List V} (nodup : out.Nodup)
    (after : ∀ l v r, out = l ++ v :: r → ∀ u, E u v → u ∈ l)
    (mem : ∀ v, v ∈ out ↔ ¬ Behind E v) : Topological E out :=
  ⟨nodup, after, mem, by simp only [mem, acyclic_iff]⟩

section Count

variable [DecidableEq V] {needs feeds : V → List V} {l : List V}

/-- The edges into `v` out of the vertices in `l`, counted at either end. -/
theorem count_flatMap (linked : ∀ u v, (feeds u).count v = (needs v).count u) (hl : l.Nodup) (v : V) :
    (l.flatMap feeds).count v = (needs v).countP (· ∈ l) := by
  induction l with
  | nil => simp
  | cons u l ih =>
    obtain ⟨hu, hl⟩ := List.nodup_cons.1 hl
    rw [List.flatMap_cons, List.count_append, ih hl, linked]
    induction needs v with
    | nil => rfl
    | cons w ws ihw =>
      rw [List.count_cons, List.countP_cons, List.countP_cons, ← ihw]
      by_cases hw : w = u
      · simp [hw, hu]
        omega
      · simp [hw]
        omega

end Count

end Wizard.OffCycle
