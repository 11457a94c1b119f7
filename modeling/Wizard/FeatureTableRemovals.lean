import Mathlib.Tactic
import Wizard.FeatureTableRows

/-! Columns filled one after the other. A push shows an index when it is above the
watermark, and a removal lowers the watermark. -/

namespace Wizard

/-- The watermark is the greatest index shown. -/
structure IdxList.Topped (x : IdxList) : Prop where
  nodup : x.list.Nodup
  nonneg : ∀ a ∈ x.list, 0 ≤ a
  le : ∀ a ∈ x.list, a ≤ x.maxIdx
  top : x.maxIdx = -1 ∨ x.maxIdx ∈ x.list

namespace IdxList

variable {x x' : IdxList} {i : Nat} {m a : Int}

theorem Topped.lower (h : x.Topped) : -1 ≤ x.maxIdx := by
  rcases h.top with ht | ht
  · exact ht.ge
  · have hh := h.nonneg _ ht
    omega

theorem Topped.covers_iff (h : x.Topped) (hm : 0 ≤ m) : m ≤ x.maxIdx ↔ ∃ a ∈ x.list, m ≤ a := by
  constructor
  · intro hle
    rcases h.top with ht | ht
    · omega
    · exact ⟨_, ht, hle⟩
  · rintro ⟨a, ha, hle⟩
    exact hle.trans (h.le a ha)

theorem mem_addIdx : a ∈ (x.addIdx m).list ↔ a ∈ x.list ∨ a = m ∧ x.maxIdx < m := by
  rw [addIdx]
  split
  · next hm =>
    rw [List.mem_append, List.mem_singleton]
    tauto
  · next hm => tauto

theorem Topped.addIdx (h : x.Topped) : (x.addIdx m).Topped := by
  have hlower := h.lower
  rw [IdxList.addIdx]
  split
  · next hm =>
    have hlt : ∀ a ∈ x.list, a < m := fun a ha => (h.le a ha).trans_lt hm
    constructor
    · rw [List.nodup_append]
      refine ⟨h.nodup, List.nodup_singleton _, fun a ha b hb => ?_⟩
      rw [List.mem_singleton.1 hb]
      exact (hlt a ha).ne
    · intro a ha
      rcases List.mem_append.1 ha with ha | ha
      · exact h.nonneg a ha
      · rw [List.mem_singleton.1 ha]
        omega
    · intro a ha
      rcases List.mem_append.1 ha with ha | ha
      · exact (hlt a ha).le
      · exact (List.mem_singleton.1 ha).le
    · exact .inr (List.mem_append_right _ List.mem_cons_self)
  · exact h

/-- A new index is one of those taken out only when it is above all that are shown. -/
theorem Topped.hidden_addIdx_iff {removed : List Int} (h : x.Topped) (hnonneg : ∀ a ∈ removed, 0 ≤ a)
    (hidden : ∀ a ∈ removed, a ∉ x.list) :
    (∀ a ∈ removed, a ∉ (x.addIdx m).list) ↔ (m ∈ removed → ∃ a ∈ x.list, m ≤ a) := by
  constructor
  · intro hh hm
    rw [← h.covers_iff (hnonneg m hm)]
    by_contra hlt
    exact hh m hm (mem_addIdx.2 (.inr ⟨rfl, not_le.1 hlt⟩))
  · intro hcareful a ha hm
    rcases mem_addIdx.1 hm with hm | ⟨rfl, hlt⟩
    · exact hidden a ha hm
    · have hle := (h.covers_iff (hnonneg a ha)).2 (hcareful ha)
      exact absurd hlt (not_lt.2 hle)

theorem foldl_max_mem (l : List Int) (b : Int) : l.foldl max b = b ∨ l.foldl max b ∈ l := by
  induction l generalizing b with
  | nil => exact .inl rfl
  | cons e l ih =>
    rw [List.foldl_cons]
    rcases ih (max b e) with hh | hh
    · rw [hh]
      rcases max_cases b e with ⟨hm, -⟩ | ⟨hm, -⟩
      · exact .inl hm
      · rw [hm]
        exact .inr List.mem_cons_self
    · exact .inr (List.mem_cons_of_mem e hh)

theorem Topped.removeRow (h : x.Topped) (hr : x.removeRow i = some x') : x'.Topped := by
  rw [IdxList.removeRow] at hr
  split at hr
  · cases hr
    have hsub := List.eraseIdx_sublist x.list i
    obtain ⟨-, hle, -⟩ := foldl_max_spec (x.list.eraseIdx i) (-1)
    exact ⟨hsub.nodup h.nodup, fun a ha => h.nonneg a (hsub.subset ha), hle, foldl_max_mem _ _⟩
  · cases hr

theorem Topped.perm (h : x.Topped) {l : List Int} (hl : l.Perm x.list) : Topped ⟨l, x.maxIdx⟩ where
  nodup := hl.nodup_iff.2 h.nodup
  nonneg a ha := h.nonneg a (hl.mem_iff.1 ha)
  le a ha := h.le a (hl.mem_iff.1 ha)
  top := h.top.imp_right hl.mem_iff.2

end IdxList

namespace FeatureTable

variable {Ty : Type} {El : Ty → Type}

inductive ColumnOp (El : Ty → Type)
  | createColumn (t : Ty) (name : String)
  | pushBack (t : Ty) (id : Nat) (v : El t)
  | removeRow (i : Nat)
  | sortBy (t : Ty) (name : String) (comp : El t → El t → Bool)

/-- A table with the indices that `remove_row` has taken out. -/
structure Ledger (Ty : Type) (El : Ty → Type) where
  table : FeatureTable Ty El
  removed : List Int

/-- A table alone in the process. -/
def Ledger.Fresh (s : Ledger Ty El) : Prop := ∃ featureSize, s = ⟨make featureSize, []⟩

variable {s s' : Ledger Ty El} {op : ColumnOp El}

/-- No index that was taken out is shown. -/
def Ledger.Hidden (s : Ledger Ty El) : Prop := ∀ a ∈ s.removed, a ∉ s.table.idx.list

/-- A push whose element number was removed is made while a row is shown that is not before
it. -/
def Ledger.Careful (s : Ledger Ty El) : ColumnOp El → Prop
  | .pushBack t id _ => ∀ d, s.table.data t id = some d → newIdx d.length ∈ s.removed →
      ∃ a ∈ s.table.idx.list, newIdx d.length ≤ a
  | _ => True

variable [DecidableEq Ty]

def Ledger.Does (s s' : Ledger Ty El) : ColumnOp El → Prop
  | .createColumn t name => s.table.createColumn t name = some s'.table ∧ s'.removed = s.removed
  | .pushBack t id v => s.table.pushBack t id v = some s'.table ∧ s'.removed = s.removed
  | .removeRow i => s.table.removeRow i = some s'.table ∧ s'.removed = s.table.idx.list[i]?.toList ++ s.removed
  | .sortBy t name comp => s.table.SortBy t name comp s'.table ∧ s'.removed = s.removed

def Ledger.Step (s s' : Ledger Ty El) : Prop := ∃ op, s.Does s' op

def Ledger.CarefulStep (s s' : Ledger Ty El) : Prop := ∃ op, s.Does s' op ∧ s.Careful op

structure Ledger.Inv (s : Ledger Ty El) : Prop where
  topped : s.table.idx.Topped
  nonneg : ∀ a ∈ s.removed, 0 ≤ a

theorem createColumn_idx {s s' : FeatureTable Ty El} {t : Ty} {name : String} (h : s.createColumn t name = some s') :
    s'.idx = s.idx := by
  have hensure : (s.ensureColumnId name).2.idx = s.idx := by
    rw [ensureColumnId]
    split <;> rfl
  simp only [createColumn] at h
  split at h
  · simp only [getOrCreateVector, Option.map_eq_some_iff] at h
    obtain ⟨-, -, rfl⟩ := h
    exact hensure
  · cases h

theorem pushBack_cases {s s' : FeatureTable Ty El} {t : Ty} {id : Nat} {v : El t} (h : s.pushBack t id v = some s') :
    ∃ d, s.data t id = some d ∧ s'.idx = s.idx.addIdx (newIdx d.length) := by
  simp only [pushBack, Option.bind_eq_bind, Option.bind_eq_some_iff, Option.pure_def, Option.some.injEq] at h
  obtain ⟨d, hd, rfl⟩ := h
  refine ⟨d, hd, ?_⟩
  dsimp only

theorem Ledger.Inv.step (h : s.Inv) (hs : s.Does s' op) : s'.Inv := by
  obtain ⟨htopped, hnonneg⟩ := h
  cases op with
  | createColumn t name =>
    obtain ⟨hs, hr⟩ := hs
    refine ⟨?_, hr ▸ hnonneg⟩
    rw [createColumn_idx hs]
    exact htopped
  | pushBack t id v =>
    obtain ⟨hs, hr⟩ := hs
    obtain ⟨d, -, hidx⟩ := pushBack_cases hs
    refine ⟨?_, hr ▸ hnonneg⟩
    rw [hidx]
    exact htopped.addIdx
  | removeRow i =>
    obtain ⟨hs, hr⟩ := hs
    refine ⟨htopped.removeRow (removeRow_spec hs).2, fun a ha => ?_⟩
    rw [hr, List.mem_append, Option.mem_toList] at ha
    rcases ha with ha | ha
    · exact htopped.nonneg a (List.mem_of_getElem? ha)
    · exact hnonneg a ha
  | sortBy t name comp =>
    obtain ⟨⟨id, list, -, hperm, -, ht⟩, hr⟩ := hs
    refine ⟨?_, hr ▸ hnonneg⟩
    rw [ht]
    exact htopped.perm hperm

/-- One operation brings a removed index back if and only if it is a careless push. -/
theorem Ledger.Inv.hidden_iff (h : s.Inv) (hidden : s.Hidden) (hs : s.Does s' op) : s'.Hidden ↔ s.Careful op := by
  obtain ⟨htopped, hnonneg⟩ := h
  cases op with
  | createColumn t name =>
    obtain ⟨hs, hr⟩ := hs
    refine iff_of_true ?_ trivial
    rw [Hidden, hr, createColumn_idx hs]
    exact hidden
  | pushBack t id v =>
    obtain ⟨hs, hr⟩ := hs
    obtain ⟨d, hd, hidx⟩ := pushBack_cases hs
    rw [Hidden, hr, hidx, htopped.hidden_addIdx_iff hnonneg hidden]
    constructor
    · intro hcareful d' hd'
      cases hd.symm.trans hd'
      exact hcareful
    · intro hcareful
      exact hcareful d hd
  | removeRow i =>
    obtain ⟨hs, hr⟩ := hs
    refine iff_of_true (fun a ha hm => ?_) trivial
    obtain ⟨hi, hlist⟩ := IdxList.removeRow_eq (removeRow_spec hs).2
    rw [hlist] at hm
    rw [hr, List.mem_append, Option.mem_toList] at ha
    rcases ha with ha | ha
    · obtain ⟨k, hk, hki, hka⟩ := List.mem_eraseIdx_iff_getElem.1 hm
      obtain ⟨hil, hia⟩ := List.getElem?_eq_some_iff.1 ha
      exact hki (htopped.nodup.getElem_inj_iff.1 (hka.trans hia.symm))
    · exact hidden a ha (List.mem_of_mem_eraseIdx hm)
  | sortBy t name comp =>
    obtain ⟨⟨id, list, -, hperm, -, ht⟩, hr⟩ := hs
    refine iff_of_true (fun a ha hm => ?_) trivial
    rw [ht] at hm
    rw [hr] at ha
    exact hidden a ha (hperm.mem_iff.1 hm)

theorem Ledger.inv_of_reachable (h : Reachable Fresh Step s) : s.Inv := by
  apply h.invariant
  · rintro s ⟨featureSize, rfl⟩
    exact ⟨⟨List.nodup_nil, nofun, nofun, .inl rfl⟩, nofun⟩
  · rintro s s' - h ⟨op, hs⟩
    exact h.step hs

theorem Ledger.hidden_of_reachable (h : Reachable Fresh CarefulStep s) : s.Hidden := by
  apply h.invariant
  · rintro s ⟨featureSize, rfl⟩
    exact nofun
  · rintro s s' hr hidden ⟨op, hs, hc⟩
    have hinv := inv_of_reachable (hr.mono fun _ _ hs => hs.imp fun _ hs => hs.1)
    exact (hinv.hidden_iff hidden hs).2 hc

/-- No index is shown twice. Those taken out stay out while every push is careful, and the
first that is not brings one back. -/
theorem removed_stay_hidden (h : Reachable Ledger.Fresh Ledger.Step s) : s.table.idx.list.Nodup ∧
    (Reachable Ledger.Fresh Ledger.CarefulStep s → s.Hidden ∧ ∀ op s', s.Does s' op → (s'.Hidden ↔ s.Careful op)) := by
  have hinv := Ledger.inv_of_reachable h
  refine ⟨hinv.topped.nodup, fun hc => ?_⟩
  have hidden := Ledger.hidden_of_reachable hc
  exact ⟨hidden, fun op s' hs => hinv.hidden_iff hidden hs⟩

section Examples

/-- Three values of one column, and the last of them removed. -/
def threeRemoved : Ledger Unit Uid := ⟨⟨fun _ => [some [1, 2, 3]], [some 0, none], [("a", 0)], ⟨[0, 1], 1⟩⟩, [2]⟩

theorem threeRemoved_reachable : Reachable Ledger.Fresh Ledger.CarefulStep threeRemoved := by
  have h0 : Reachable Ledger.Fresh Ledger.CarefulStep (⟨make 2, []⟩ : Ledger Unit Uid) := Reachable.of_init ⟨2, rfl⟩
  have h1 := h0.tail (t := ⟨⟨fun _ => [some []], [some 0, none], [("a", 0)], ⟨[], -1⟩⟩, []⟩)
    ⟨.createColumn () "a", ⟨rfl, rfl⟩, trivial⟩
  have h2 := h1.tail (t := ⟨⟨fun _ => [some [1]], [some 0, none], [("a", 0)], ⟨[0], 0⟩⟩, []⟩)
    ⟨.pushBack () 0 1, ⟨rfl, rfl⟩, fun _ _ => nofun⟩
  have h3 := h2.tail (t := ⟨⟨fun _ => [some [1, 2]], [some 0, none], [("a", 0)], ⟨[0, 1], 1⟩⟩, []⟩)
    ⟨.pushBack () 0 2, ⟨rfl, rfl⟩, fun _ _ => nofun⟩
  have h4 := h3.tail (t := ⟨⟨fun _ => [some [1, 2, 3]], [some 0, none], [("a", 0)], ⟨[0, 1, 2], 2⟩⟩, []⟩)
    ⟨.pushBack () 0 3, ⟨rfl, rfl⟩, fun _ _ => nofun⟩
  exact h4.tail ⟨.removeRow 2, ⟨rfl, rfl⟩, trivial⟩

theorem removed_stay_hidden_three : threeRemoved.table.idx.list.Nodup ∧ threeRemoved.Hidden ∧
    ∀ op s', threeRemoved.Does s' op → (s'.Hidden ↔ threeRemoved.Careful op) := by
  obtain ⟨honce, hhidden⟩ := removed_stay_hidden (threeRemoved_reachable.mono fun _ _ hs => hs.imp fun _ hs => hs.1)
  exact ⟨honce, hhidden threeRemoved_reachable⟩

/-- A column made later is filled as far as the first one. -/
theorem removed_shown_again : ¬ ∀ s : Ledger Unit Uid, Reachable Ledger.Fresh Ledger.Step s → s.Hidden := by
  intro hclaim
  have h0 : Reachable Ledger.Fresh Ledger.Step threeRemoved := threeRemoved_reachable.mono fun _ _ hs =>
    hs.imp fun _ hs => hs.1
  have h1 := h0.tail (t := ⟨⟨fun _ => [some [1, 2, 3], some []], [some 0, some 1], [("a", 0), ("b", 1)], ⟨[0, 1], 1⟩⟩,
    [2]⟩)
    ⟨.createColumn () "b", rfl, rfl⟩
  have h2 := h1.tail (t := ⟨⟨fun _ => [some [1, 2, 3], some [1]], [some 0, some 1], [("a", 0), ("b", 1)], ⟨[0, 1], 1⟩⟩,
    [2]⟩)
    ⟨.pushBack () 1 1, rfl, rfl⟩
  have h3 := h2.tail (t := ⟨⟨fun _ => [some [1, 2, 3], some [1, 2]], [some 0, some 1], [("a", 0), ("b", 1)],
    ⟨[0, 1], 1⟩⟩, [2]⟩)
    ⟨.pushBack () 1 2, rfl, rfl⟩
  have h4 := h3.tail
    (t := ⟨⟨fun _ => [some [1, 2, 3], some [1, 2, 3]], [some 0, some 1], [("a", 0), ("b", 1)], ⟨[0, 1, 2], 2⟩⟩, [2]⟩)
    ⟨.pushBack () 1 3, rfl, rfl⟩
  exact hclaim _ h4 2 List.mem_cons_self (by decide)

end Examples

end FeatureTable

end Wizard
