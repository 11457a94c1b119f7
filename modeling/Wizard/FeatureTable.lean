import Mathlib.Algebra.Group.Int.Defs
import Mathlib.Algebra.Group.Nat.Defs
import Mathlib.Data.List.Nodup
import Mathlib.Data.List.FinRange
import Mathlib.Logic.Function.Basic
import Mathlib.Order.Defs.Unbundled

/-! The feature table. Every column is a vector of its own in the vector `items`
of its type, and all columns show their data through one list of indices. An
operation has no result when it leaves a vector, reads a null pointer or
overflows an `int`. -/

namespace Wizard

structure IdxList where
  list : List Int
  maxIdx : Int

namespace IdxList

def addIdx (x : IdxList) (newIdx : Int) : IdxList :=
  if x.maxIdx < newIdx then ⟨x.list ++ [newIdx], newIdx⟩ else x

def removeRow (x : IdxList) (i : Nat) : Option IdxList :=
  if i < x.list.length then some ⟨x.list.eraseIdx i, (x.list.eraseIdx i).foldl max (-1)⟩ else none

theorem addIdx_idem (x : IdxList) (i : Int) : (x.addIdx i).addIdx i = x.addIdx i := by
  by_cases hx : x.maxIdx < i <;> simp [addIdx, hx]

end IdxList

/-- `items` are the data of the columns by type and column id, static in the
source. `columns` holds the id of each `HeterogeneousVector`. -/
structure FeatureTable (Ty : Type) (El : Ty → Type) where
  items : (t : Ty) → List (Option (List (El t)))
  columns : List (Option Nat)
  nameToIdx : List (String × Nat)
  idx : IdxList

namespace FeatureTable

variable {Ty : Type} {El : Ty → Type}

/-- `int new_idx = data_.size()`. -/
def newIdx (size : Nat) : Int := (size : Int).bmod (2 ^ 32)

def make (featureSize : Nat) : FeatureTable Ty El :=
  ⟨fun _ => [], List.replicate featureSize none, [], ⟨[], -1⟩⟩

def ensureColumnId (s : FeatureTable Ty El) (name : String) : Nat × FeatureTable Ty El :=
  match s.nameToIdx.lookup name with
  | some id => (id, s)
  | none => (s.nameToIdx.length, { s with nameToIdx := s.nameToIdx ++ [(name, s.nameToIdx.length)] })

/-- The data of the column `id` of type `t`. -/
def data (s : FeatureTable Ty El) (t : Ty) (id : Nat) : Option (List (El t)) := (s.items t)[id]?.join

/-- `get_column`, up to the id of its vector. -/
def getColumn (s : FeatureTable Ty El) (name : String) : Option Nat := do
  let id ← s.nameToIdx.lookup name
  s.columns[id]?.join

def getByIdx (s : FeatureTable Ty El) (t : Ty) (id : Nat) (i : Int) : Option (El t) := do
  let d ← s.data t id
  if 0 ≤ i then d[i.toNat]? else none

/-- `operator[]`. -/
def get (s : FeatureTable Ty El) (t : Ty) (id i : Nat) : Option (El t) := do
  s.getByIdx t id (← s.idx.list[i]?)

def rowSize (s : FeatureTable Ty El) : Nat := s.idx.list.length

def removeRow (s : FeatureTable Ty El) (i : Nat) : Option (FeatureTable Ty El) := do
  return { s with idx := ← s.idx.removeRow i }

/-- The loop of `filter` from row `i` on. -/
def filterFrom (t : Ty) (id : Nat) (isFilter : El t → Bool) :
    Nat → Nat → FeatureTable Ty El → Option (FeatureTable Ty El)
  | 0, _, _ => none
  | fuel + 1, i, s =>
    if i < s.rowSize then do
      let v ← s.get t id i
      let s ← (if isFilter v then s.removeRow i else some s)
      if i + 1 < 2 ^ 31 then filterFrom t id isFilter fuel (i + 1) s else none
    else some s

def filter (s : FeatureTable Ty El) (t : Ty) (name : String) (isFilter : El t → Bool) :
    Option (FeatureTable Ty El) := do
  s.filterFrom t (← s.getColumn name) isFilter (s.rowSize + 1) 0

/-- `std::sort` leaves any permutation in order; it is not stable. -/
def SortBy (s : FeatureTable Ty El) (t : Ty) (name : String) (comp : El t → El t → Bool)
    (s' : FeatureTable Ty El) : Prop :=
  ∃ id list, s.getColumn name = some id ∧ list.Perm s.idx.list ∧
    list.Pairwise (fun a b => ∀ x y, s.getByIdx t id a = some x → s.getByIdx t id b = some y → ¬ comp y x) ∧
    s' = { s with idx := { s.idx with list := list } }

section Push

variable [DecidableEq Ty]

def getOrCreateVector (s : FeatureTable Ty El) (t : Ty) (id : Nat) : Option (FeatureTable Ty El) :=
  let items := s.items t
  let items := if items.length ≤ id then
    (items ++ List.replicate (id + 1 - items.length) none).set id (some []) else items
  items[id]?.join.map fun _ => { s with items := Function.update s.items t items }

def createColumn (s : FeatureTable Ty El) (t : Ty) (name : String) : Option (FeatureTable Ty El) :=
  let (id, s) := s.ensureColumnId name
  if id < s.columns.length then
    { s with columns := s.columns.set id (some id) }.getOrCreateVector t id
  else none

/-- `push_back`, and `emplace_back` with the value made. -/
def pushBack (s : FeatureTable Ty El) (t : Ty) (id : Nat) (v : El t) : Option (FeatureTable Ty El) := do
  let d ← s.data t id
  return { s with
    idx := s.idx.addIdx (newIdx d.length)
    items := Function.update s.items t ((s.items t).set id (some (d ++ [v]))) }

end Push

/-- The columns of a table by name and type; a column's id is its place. -/
abbrev Schema (Ty : Type) := List (String × Ty)

namespace Schema

variable (cs : Schema Ty)

def name (j : Fin cs.length) : String := (cs.get j).1

def type (j : Fin cs.length) : Ty := (cs.get j).2

end Schema

abbrev Row (El : Ty → Type) (cs : Schema Ty) := (j : Fin cs.length) → El (cs.type j)

variable [DecidableEq Ty]

def createAll (s : FeatureTable Ty El) (cs : Schema Ty) : Option (FeatureTable Ty El) :=
  cs.foldlM (fun s c => s.createColumn c.2 c.1) s

/-- One `push_back` for each column in the order given. -/
def appendRow {cs : Schema Ty} (s : FeatureTable Ty El) (row : Row El cs) (order : List (Fin cs.length)) :
    Option (FeatureTable Ty El) :=
  order.foldlM (fun s j => s.pushBack (cs.type j) j (row j)) s

section Columns

variable {s s' : FeatureTable Ty El} {t t' : Ty} {id id' n : Nat} {v : El t}

theorem pushBack_eq {d : List (El t)} (hd : s.data t id = some d) : ∃ s', s.pushBack t id v = some s' ∧
    s'.idx = s.idx.addIdx (newIdx d.length) ∧ s'.columns = s.columns ∧ s'.nameToIdx = s.nameToIdx ∧
      s'.data t id = some (d ++ [v]) ∧ ∀ t' id', t' ≠ t ∨ id' ≠ id → s'.data t' id' = s.data t' id' := by
  have hlt : id < (s.items t).length := by
    by_contra hno
    rw [data, List.getElem?_eq_none (by omega)] at hd
    cases hd
  refine ⟨{ s with
    idx := s.idx.addIdx (newIdx d.length)
    items := Function.update s.items t ((s.items t).set id (some (d ++ [v]))) }, ?_, ?_, rfl, rfl, ?_,
    fun t' id' hne => ?_⟩
  · simp [pushBack, hd]
  · dsimp only
  · simp [data, hlt]
  · by_cases ht : t' = t
    · subst ht
      have hid : id ≠ id' := fun he => hne.elim (fun h => h rfl) (fun h => h he.symm)
      simp [data, hid]
    · simp [data, ht]

omit [DecidableEq Ty] in
theorem pushBack_data_ne {cs : Schema Ty} {i j : Fin cs.length} (hij : i ≠ j) :
    cs.type i ≠ cs.type j ∨ (i : Nat) ≠ j :=
  .inr (fun he => hij (Fin.ext he))

/-- Only the first push of a row can show a new index. -/
theorem appendRow_eq {cs : Schema Ty} (row : Row El cs) {order : List (Fin cs.length)} (hnd : order.Nodup)
    (hd : ∀ j ∈ order, ∃ d, s.data (cs.type j) j = some d ∧ d.length = n) : ∃ s', s.appendRow row order = some s' ∧
      s'.idx = (if order = [] then s.idx else s.idx.addIdx (newIdx n)) ∧ s'.columns = s.columns ∧
      s'.nameToIdx = s.nameToIdx ∧ ∀ j, s'.data (cs.type j) j =
        if j ∈ order then (s.data (cs.type j) j).map (fun d => d ++ [row j]) else s.data (cs.type j) j := by
  induction order generalizing s with
  | nil => exact ⟨s, rfl, rfl, rfl, rfl, fun j => rfl⟩
  | cons j order ih =>
    rw [List.nodup_cons] at hnd
    obtain ⟨d, hdj, hlen⟩ := hd j List.mem_cons_self
    obtain ⟨s₁, hs₁, hidx, hcol, hname, hself, hother⟩ := pushBack_eq (v := row j) hdj
    have hne : ∀ i ≠ j, s₁.data (cs.type i) i = s.data (cs.type i) i :=
      fun i hi => hother _ _ (pushBack_data_ne hi)
    obtain ⟨s', hs', hidx', hcol', hname', hdata⟩ := ih (s := s₁) hnd.2 (fun i hi => by
      rw [hne i (ne_of_mem_of_not_mem hi hnd.1)]
      exact hd i (List.mem_cons_of_mem j hi))
    refine ⟨s', ?_, ?_, hcol'.trans hcol, hname'.trans hname, fun i => ?_⟩
    · rw [appendRow, List.foldlM_cons, hs₁]
      exact hs'
    · rw [hidx', hidx, hlen, if_neg (List.cons_ne_nil _ _)]
      split
      · rfl
      · exact IdxList.addIdx_idem _ _
    · rw [hdata i]
      by_cases hi : i = j
      · subst hi
        rw [if_neg hnd.1, if_pos List.mem_cons_self, hself, hdj]
        rfl
      · rw [hne i hi]
        by_cases hm : i ∈ order
        · rw [if_pos hm, if_pos (List.mem_cons_of_mem j hm)]
        · rw [if_neg hm, if_neg (fun hh => hm ((List.mem_cons.1 hh).resolve_left hi))]

end Columns

section Create

variable {s s' : FeatureTable Ty El} {cs done : Schema Ty} {featureSize : Nat}

/-- The columns `done` are made. -/
structure Created (featureSize : Nat) (done : Schema Ty) (s : FeatureTable Ty El) : Prop where
  idx : s.idx = ⟨[], -1⟩
  columns : s.columns.length = featureSize
  ids : ∀ j < done.length, s.columns[j]? = some (some j)
  count : s.nameToIdx.length = done.length
  names : ∀ j : Fin done.length, s.nameToIdx.lookup (done.name j) = some (j : Nat)
  others : ∀ name ∉ done.map Prod.fst, s.nameToIdx.lookup name = none
  items : ∀ t, (s.items t).length ≤ done.length
  vectors : ∀ j : Fin done.length, s.data (done.type j) j = some []

theorem getOrCreateVector_eq {t : Ty} {id : Nat} (h : (s.items t).length ≤ id) :
    ∃ s', s.getOrCreateVector t id = some s' ∧ s'.idx = s.idx ∧ s'.columns = s.columns ∧
      s'.nameToIdx = s.nameToIdx ∧ (s'.items t).length = id + 1 ∧ (∀ t' ≠ t, s'.items t' = s.items t') ∧
      s'.data t id = some [] ∧ ∀ t' id', s.data t' id' = some [] → s'.data t' id' = some [] := by
  set items := (s.items t ++ List.replicate (id + 1 - (s.items t).length) none).set id (some []) with hitems
  have hlen : items.length = id + 1 := by
    simp [hitems]
    omega
  have hget : items[id]? = some (some []) := by
    rw [hitems, List.getElem?_set_self]
    simp
    omega
  refine ⟨{ s with items := Function.update s.items t items }, ?_, rfl, rfl, rfl, by simp [hlen],
    fun t' ht => by simp [ht], by simp [data, hget], fun t' id' hd => ?_⟩
  · simp [getOrCreateVector, h, ← hitems, hget]
  · by_cases ht : t' = t
    · subst ht
      have hlt : id' < (s.items t').length := by
        by_contra hno
        rw [data, List.getElem?_eq_none (by omega)] at hd
        cases hd
      have hne : id ≠ id' := by omega
      have he : items[id']? = (s.items t')[id']? := by
        rw [hitems, List.getElem?_set_ne hne, List.getElem?_append_left hlt]
      simpa [data, he] using hd
    · simpa [data, ht] using hd

theorem Created.step (h : Created featureSize done s) {c : String × Ty} (hc : c.1 ∉ done.map Prod.fst)
    (hlt : done.length < featureSize) :
    ∃ s', s.createColumn c.2 c.1 = some s' ∧ Created featureSize (done ++ [c]) s' := by
  set s₁ : FeatureTable Ty El := { s with
    nameToIdx := s.nameToIdx ++ [(c.1, s.nameToIdx.length)]
    columns := s.columns.set done.length (some done.length) } with hs₁
  obtain ⟨s', hs', hidx, hcol, hname, hlen, hitems, hnew, hold⟩ :=
    getOrCreateVector_eq (show (s₁.items c.2).length ≤ done.length from h.items c.2)
  have hlook : ∀ name, s'.nameToIdx.lookup name =
      (s.nameToIdx.lookup name).or (if name = c.1 then some done.length else none) := by
    intro name
    rw [hname, hs₁, List.lookup_append, h.count]
    by_cases hn : name = c.1
    · simp [hn]
    · simp [hn, List.lookup_cons, beq_eq_false_iff_ne.2 hn]
  refine ⟨s', ?_, by rw [hidx]; exact h.idx, ?_, ?_, ?_, ?_, ?_, ?_, ?_⟩
  · have hlt' : s.nameToIdx.length < s.columns.length := by rw [h.count, h.columns]; exact hlt
    simp only [createColumn, ensureColumnId, h.others _ hc, if_pos hlt']
    rw [h.count, ← hs', hs₁, h.count]
  · rw [hcol, hs₁, List.length_set, h.columns]
  · intro j hj
    rw [hcol, hs₁]
    rw [List.length_append, List.length_singleton] at hj
    by_cases hjd : j = done.length
    · rw [hjd, List.getElem?_set_self (by rw [h.columns]; exact hlt)]
    · rw [List.getElem?_set_ne (Ne.symm hjd)]
      exact h.ids j (by omega)
  · rw [hname, hs₁, List.length_append, List.length_append, h.count]
    rfl
  · intro j
    obtain ⟨j, hj⟩ := j
    rw [List.length_append, List.length_singleton] at hj
    by_cases hjd : j < done.length
    · have hn : (done ++ [c]).name ⟨j, by simp; omega⟩ = done.name ⟨j, hjd⟩ := by
        simp [Schema.name, List.getElem_append_left hjd]
      rw [hn, hlook, h.names ⟨j, hjd⟩]
      rfl
    · obtain rfl : j = done.length := by omega
      have hn : (done ++ [c]).name ⟨done.length, by simp⟩ = c.1 := by simp [Schema.name]
      rw [hn, hlook, h.others _ hc]
      simp
  · intro name hn
    rw [List.map_append, List.mem_append, not_or] at hn
    have hne : name ≠ c.1 := by simpa using hn.2
    rw [hlook, h.others name hn.1, if_neg hne]
    rfl
  · intro t
    rw [List.length_append, List.length_singleton]
    by_cases ht : t = c.2
    · rw [ht, hlen]
    · rw [hitems t ht]
      exact (h.items t).trans (Nat.le_succ _)
  · intro j
    obtain ⟨j, hj⟩ := j
    rw [List.length_append, List.length_singleton] at hj
    by_cases hjd : j < done.length
    · have hv := h.vectors ⟨j, hjd⟩
      have ht : (done ++ [c]).type ⟨j, by simp; omega⟩ = done.type ⟨j, hjd⟩ := by
        simp [Schema.type, List.getElem_append_left hjd]
      have he := hold (done.type ⟨j, hjd⟩) j hv
      simp only [Schema.type, List.get_eq_getElem] at he ⊢
      grind
    · obtain rfl : j = done.length := by omega
      simp only [Schema.type, List.get_eq_getElem] at hnew ⊢
      grind

theorem Created.createAll (h : Created featureSize done s) (hnd : ((done ++ cs).map Prod.fst).Nodup)
    (hlen : (done ++ cs).length ≤ featureSize) :
    ∃ s', s.createAll cs = some s' ∧ Created featureSize (done ++ cs) s' := by
  induction cs generalizing done s with
  | nil => exact ⟨s, rfl, by simpa using h⟩
  | cons c cs ih =>
    have hc : c.1 ∉ done.map Prod.fst := by
      rw [List.map_append, List.map_cons, List.nodup_append] at hnd
      exact fun hm => hnd.2.2 _ hm _ List.mem_cons_self rfl
    rw [List.length_append, List.length_cons] at hlen
    obtain ⟨s₁, hs₁, h₁⟩ := h.step hc (by omega)
    obtain ⟨s', hs', h'⟩ := ih h₁ (by simpa using hnd) (by simp; omega)
    refine ⟨s', ?_, by simpa using h'⟩
    rw [FeatureTable.createAll, List.foldlM_cons, hs₁]
    exact hs'

omit [DecidableEq Ty] in
theorem created_make : Created featureSize [] (make featureSize : FeatureTable Ty El) where
  idx := rfl
  columns := List.length_replicate
  ids j hj := by simp at hj
  count := rfl
  names j := j.elim0
  others name _ := rfl
  items t := Nat.le_refl _
  vectors j := j.elim0

/-- Distinct names, at most `featureSize` of them: every column is made, and empty. -/
theorem createAll_make (hnd : (cs.map Prod.fst).Nodup) (hlen : cs.length ≤ featureSize) :
    ∃ s' : FeatureTable Ty El, (make featureSize).createAll cs = some s' ∧ Created featureSize cs s' := by
  have hmake : Created featureSize [] (make featureSize : FeatureTable Ty El) := created_make
  exact hmake.createAll hnd hlen

end Create

end FeatureTable

end Wizard
