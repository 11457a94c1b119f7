import Mathlib.Tactic
import Wizard.FeatureTableRows

/-! The tables of one process. The vectors of all columns are in the static vector `items`
of their type, at the column id, and every vector shows its data through the list of the
table that has made it. -/

namespace Wizard

/-- `owner` is the table whose list of indices a vector holds. -/
structure DataVector (ι α : Type) where
  owner : ι
  data : List α

structure FeatureTables (ι Ty : Type) (El : Ty → Type) where
  items : (t : Ty) → List (Option (DataVector ι (El t)))
  columns : ι → List (Option Nat)
  nameToIdx : ι → List (String × Nat)
  idx : ι → IdxList

inductive TableOp {Ty : Type} (El : Ty → Type)
  | createColumn (t : Ty) (name : String)
  | pushBack (t : Ty) (name : String) (v : El t)
  | removeRow (i : Nat)
  | sortBy (t : Ty) (name : String) (comp : El t → El t → Bool)
  | filter (t : Ty) (name : String) (isFilter : El t → Bool)

/-- `std::sort` for a comparison that can read outside a vector. -/
abbrev StdSort := (Int → Int → Option Bool) → List Int → Option (List Int)

variable {ι Ty : Type} {El : Ty → Type}

/-- `get_by_idx`. -/
def readAt {α : Type} (d : List α) (a : Int) : Option α := if 0 ≤ a then d[a.toNat]? else none

def compareAt {α : Type} (d : List α) (comp : α → α → Bool) (a b : Int) : Option Bool := do
  return comp (← readAt d a) (← readAt d b)

/-- The loop of `filter` on the list `x` of the table, when the vector shows the list
`shown x`. -/
def filterLoop {α : Type} (shown : IdxList → List Int) (d : List α) (isFilter : α → Bool) :
    Nat → Nat → IdxList → Option IdxList
  | 0, _, _ => none
  | fuel + 1, i, x =>
    if i < (shown x).length then do
      let v ← readAt d (← (shown x)[i]?)
      let x ← (if isFilter v then x.removeRow i else some x)
      if i + 1 < 2 ^ 31 then filterLoop shown d isFilter fuel (i + 1) x else none
    else some x

namespace FeatureTable

def sortBy (sort : StdSort) (s : FeatureTable Ty El) (t : Ty) (name : String) (comp : El t → El t → Bool) :
    Option (FeatureTable Ty El) := do
  let d ← s.data t (← s.getColumn name)
  return { s with idx := { s.idx with list := ← sort (compareAt d comp) s.idx.list } }

/-- With a sort that permutes the list and leaves it in order this is a sort of the rows. -/
theorem sortBy_sorts {sort : StdSort} {s s' : FeatureTable Ty El} {t : Ty} {name : String} {comp : El t → El t → Bool}
    (hsort : ∀ lt l l', sort lt l = some l' → l'.Perm l ∧ l'.Pairwise fun a b => lt b a ≠ some true)
    (h : s.sortBy sort t name comp = some s') : s.SortBy t name comp s' := by
  simp only [sortBy, Option.bind_eq_bind, Option.bind_eq_some_iff, Option.pure_def, Option.some.injEq] at h
  obtain ⟨id, hid, d, hd, list, hlist, rfl⟩ := h
  obtain ⟨hperm, hsorted⟩ := hsort _ _ _ hlist
  refine ⟨id, list, hid, hperm, hsorted.imp fun {a b} hab x y hx hy hlt => hab ?_, rfl⟩
  rw [getByIdx, hd] at hx hy
  have hx' : readAt d a = some x := hx
  have hy' : readAt d b = some y := hy
  rw [compareAt, hx', hy']
  exact congrArg some hlt

/-- An operation on a table alone in the process. -/
def does [DecidableEq Ty] (sort : StdSort) (s : FeatureTable Ty El) : TableOp El → Option (FeatureTable Ty El)
  | .createColumn t name => s.createColumn t name
  | .pushBack t name v => do s.pushBack t (← s.getColumn name) v
  | .removeRow i => s.removeRow i
  | .sortBy t name comp => s.sortBy sort t name comp
  | .filter t name isFilter => s.filter t name isFilter

def value (s : FeatureTable Ty El) (t : Ty) (name : String) (i : Nat) : Option (El t) := do
  s.get t (← s.getColumn name) i

end FeatureTable

namespace FeatureTables

open FeatureTable (newIdx)

def make (featureSize : ι → Nat) : FeatureTables ι Ty El :=
  ⟨fun _ => [], fun i => List.replicate (featureSize i) none, fun _ => [], fun _ => ⟨[], -1⟩⟩

def columnId (p : FeatureTables ι Ty El) (i : ι) (name : String) : Nat :=
  ((p.nameToIdx i).lookup name).getD (p.nameToIdx i).length

def getColumn (p : FeatureTables ι Ty El) (i : ι) (name : String) : Option Nat := do
  let id ← (p.nameToIdx i).lookup name
  (p.columns i)[id]?.join

/-- The vector of type `t` at the column id. -/
def vector (p : FeatureTables ι Ty El) (t : Ty) (id : Nat) : Option (DataVector ι (El t)) := (p.items t)[id]?.join

def rowSize (p : FeatureTables ι Ty El) (i : ι) : Nat := (p.idx i).list.length

/-- The value of a column of table `i` in a row. -/
def value (p : FeatureTables ι Ty El) (i : ι) (t : Ty) (name : String) (row : Nat) : Option (El t) := do
  let v ← p.vector t (← p.getColumn i name)
  readAt v.data (← (p.idx v.owner).list[row]?)

variable [DecidableEq ι]

def setIdx (p : FeatureTables ι Ty El) (i : ι) (x : IdxList) : FeatureTables ι Ty El :=
  { p with idx := Function.update p.idx i x }

def ensureColumnId (p : FeatureTables ι Ty El) (i : ι) (name : String) : Nat × FeatureTables ι Ty El :=
  match (p.nameToIdx i).lookup name with
  | some id => (id, p)
  | none => ((p.nameToIdx i).length,
      { p with nameToIdx := Function.update p.nameToIdx i (p.nameToIdx i ++ [(name, (p.nameToIdx i).length)]) })

def removeRow (p : FeatureTables ι Ty El) (i : ι) (row : Nat) : Option (FeatureTables ι Ty El) := do
  return p.setIdx i (← (p.idx i).removeRow row)

def sortBy (sort : StdSort) (p : FeatureTables ι Ty El) (i : ι) (t : Ty) (name : String) (comp : El t → El t → Bool) :
    Option (FeatureTables ι Ty El) := do
  let v ← p.vector t (← p.getColumn i name)
  return p.setIdx i { p.idx i with list := ← sort (compareAt v.data comp) (p.idx i).list }

/-- The list that a vector of table `o` shows when that of table `i` is `x`. -/
def shown (p : FeatureTables ι Ty El) (o i : ι) (x : IdxList) : List Int := (Function.update p.idx i x o).list

def filter (p : FeatureTables ι Ty El) (i : ι) (t : Ty) (name : String) (isFilter : El t → Bool) :
    Option (FeatureTables ι Ty El) := do
  let v ← p.vector t (← p.getColumn i name)
  return p.setIdx i (← filterLoop (p.shown v.owner i) v.data isFilter (p.rowSize v.owner + 1) 0 (p.idx i))

variable [DecidableEq Ty]

def getOrCreateVector (p : FeatureTables ι Ty El) (i : ι) (t : Ty) (id : Nat) : Option (FeatureTables ι Ty El) :=
  let items := p.items t
  let items := if items.length ≤ id then
    (items ++ List.replicate (id + 1 - items.length) none).set id (some ⟨i, []⟩) else items
  items[id]?.join.map fun _ => { p with items := Function.update p.items t items }

def createColumn (p : FeatureTables ι Ty El) (i : ι) (t : Ty) (name : String) : Option (FeatureTables ι Ty El) :=
  let (id, p) := p.ensureColumnId i name
  if id < (p.columns i).length then
    { p with columns := Function.update p.columns i ((p.columns i).set id (some id)) }.getOrCreateVector i t id
  else none

def pushBack (p : FeatureTables ι Ty El) (i : ι) (t : Ty) (name : String) (x : El t) :
    Option (FeatureTables ι Ty El) := do
  let id ← p.getColumn i name
  let v ← p.vector t id
  return { p.setIdx v.owner ((p.idx v.owner).addIdx (newIdx v.data.length)) with
    items := Function.update p.items t ((p.items t).set id (some { v with data := v.data ++ [x] })) }

/-- An operation on table `i`. -/
def does (sort : StdSort) (p : FeatureTables ι Ty El) (i : ι) : TableOp El → Option (FeatureTables ι Ty El)
  | .createColumn t name => p.createColumn i t name
  | .pushBack t name v => p.pushBack i t name v
  | .removeRow row => p.removeRow i row
  | .sortBy t name comp => p.sortBy sort i t name comp
  | .filter t name isFilter => p.filter i t name isFilter

/-- The operations one after another, each with its table. -/
def run (sort : StdSort) (featureSize : ι → Nat) (ops : List (ι × TableOp El)) : Option (FeatureTables ι Ty El) :=
  ops.foldlM (fun p op => p.does sort op.1 op.2) (make featureSize)

/-- The operations of table `i` with no other table. -/
def runAlone (sort : StdSort) (featureSize : ι → Nat) (i : ι) (ops : List (ι × TableOp El)) :
    Option (FeatureTable Ty El) :=
  (ops.filter (·.1 = i)).foldlM (fun s op => s.does sort op.2) (FeatureTable.make (featureSize i))

end FeatureTables

namespace FeatureTables

open FeatureTable (newIdx)

section Alike

variable [DecidableEq ι]

/-- What table `i` has in a vector. -/
def ownData {α : Type} (i : ι) (v : Option (DataVector ι α)) : Option (List α) :=
  v.bind fun v => if v.owner = i then some v.data else none

/-- `s` is table `i` with its own vectors. -/
structure Alike (p : FeatureTables ι Ty El) (i : ι) (s : FeatureTable Ty El) : Prop where
  columns : s.columns = p.columns i
  nameToIdx : s.nameToIdx = p.nameToIdx i
  idx : s.idx = p.idx i
  data : ∀ t id, s.data t id = ownData i (p.vector t id)
  length : ∀ t, (s.items t).length ≤ (p.items t).length

variable {p p' : FeatureTables ι Ty El} {i j : ι} {s : FeatureTable Ty El} {ss : ι → FeatureTable Ty El} {t : Ty}
    {id : Nat}

theorem ownData_self {α : Type} {d : List α} : ownData i (some ⟨i, d⟩) = some d := if_pos rfl

theorem ownData_of_ne {α : Type} {d : List α} (hj : j ≠ i) : ownData j (some ⟨i, d⟩) = none := if_neg (Ne.symm hj)

theorem Alike.getColumn (h : Alike p i s) (name : String) : s.getColumn name = p.getColumn i name := by
  rw [FeatureTable.getColumn, FeatureTables.getColumn, h.columns, h.nameToIdx]

theorem Alike.data_of_own (h : Alike p i s) {d : List (El t)} (hv : p.vector t id = some ⟨i, d⟩) :
    s.data t id = some d := by
  rw [h.data, hv, ownData_self]

/-- Only the list of table `i` changes. -/
theorem Alike.setIdx (h : ∀ j, Alike p j (ss j)) (x : IdxList) :
    ∀ j, Alike (p.setIdx i x) j (Function.update ss i { ss i with idx := x } j) := by
  intro j
  obtain ⟨hcolumns, hnames, hidx, hdata, hlength⟩ := h j
  by_cases hj : j = i
  · subst hj
    rw [Function.update_self]
    exact ⟨hcolumns, hnames, (Function.update_self j x p.idx).symm, hdata, hlength⟩
  · rw [Function.update_of_ne hj]
    exact ⟨hcolumns, hnames, hidx.trans (Function.update_of_ne hj _ _).symm, hdata, hlength⟩

/-- Both have a result or none, and the results are alike. -/
abbrev Agree (ss : ι → FeatureTable Ty El) (i : ι) :
    Option (FeatureTables ι Ty El) → Option (FeatureTable Ty El) → Prop :=
  Option.Rel fun p' s' => ∀ j, Alike p' j (Function.update ss i s' j)

theorem agree_setIdx (h : ∀ j, Alike p j (ss j)) {r : Option (FeatureTables ι Ty El)} {r' : Option (FeatureTable Ty El)}
    (x : Option IdxList) (hr : r = x.map fun x => p.setIdx i x) (hr' : r' = x.map fun x => { ss i with idx := x }) :
    Agree ss i r r' := by
  rw [hr, hr']
  cases x with
  | none => exact .none
  | some x => exact .some (Alike.setIdx h x)

theorem removeRow_agree (h : ∀ j, Alike p j (ss j)) (row : Nat) :
    Agree ss i (p.removeRow i row) ((ss i).removeRow row) := by
  apply agree_setIdx h ((p.idx i).removeRow row)
  · cases hx : (p.idx i).removeRow row <;> simp [removeRow, hx]
  · rw [FeatureTable.removeRow, (h i).idx]
    cases hx : (p.idx i).removeRow row <;> simp

theorem sortBy_agree (h : ∀ j, Alike p j (ss j)) {sort : StdSort} {name : String} {comp : El t → El t → Bool}
    {d : List (El t)}
    (hid : p.getColumn i name = some id) (hv : p.vector t id = some ⟨i, d⟩) :
    Agree ss i (p.sortBy sort i t name comp) ((ss i).sortBy sort t name comp) := by
  apply agree_setIdx h ((sort (compareAt d comp) (p.idx i).list).map fun list => { p.idx i with list := list })
  · cases hx : sort (compareAt d comp) (p.idx i).list <;> simp [sortBy, hid, hv, hx]
  · rw [FeatureTable.sortBy, (h i).getColumn, hid, (h i).idx]
    cases hx : sort (compareAt d comp) (p.idx i).list <;> simp [(h i).data_of_own hv, hx]

theorem filterFrom_eq {isFilter : El t → Bool} {d : List (El t)} (hd : s.data t id = some d) (fuel row : Nat) :
    FeatureTable.filterFrom t id isFilter fuel row s =
      (filterLoop IdxList.list d isFilter fuel row s.idx).map fun x => { s with idx := x } := by
  induction fuel generalizing row s with
  | zero => rfl
  | succ fuel ih =>
    rw [FeatureTable.filterFrom, filterLoop]
    by_cases hrow : row < s.idx.list.length
    · have hrow' : row < s.rowSize := hrow
      obtain ⟨a, ha⟩ : ∃ a, s.idx.list[row]? = some a := ⟨_, List.getElem?_eq_getElem hrow⟩
      have hget : s.get t id row = readAt d a := by
        rw [FeatureTable.get_eq ha, FeatureTable.getByIdx, hd]
        rfl
      rw [if_pos hrow, if_pos hrow', hget, ha]
      simp only [Option.bind_eq_bind, Option.bind_some]
      cases readAt d a with
      | none => rfl
      | some v =>
        simp only [Option.bind_some]
        by_cases hf : isFilter v = true
        · rw [if_pos hf, if_pos hf, FeatureTable.removeRow]
          cases hx : s.idx.removeRow row with
          | none => rfl
          | some x =>
            simp only [Option.bind_eq_bind, Option.bind_some, Option.pure_def]
            split
            · rw [ih (s := { s with idx := x }) hd]
            · rfl
        · rw [if_neg hf, if_neg hf, Option.bind_some, Option.bind_some]
          split
          · rw [ih hd]
          · rfl
    · have hrow' : ¬ row < s.rowSize := hrow
      rw [if_neg hrow, if_neg hrow']
      rfl

theorem filter_agree (h : ∀ j, Alike p j (ss j)) {name : String} {isFilter : El t → Bool} {d : List (El t)}
    (hid : p.getColumn i name = some id) (hv : p.vector t id = some ⟨i, d⟩) :
    Agree ss i (p.filter i t name isFilter) ((ss i).filter t name isFilter) := by
  apply agree_setIdx h (filterLoop IdxList.list d isFilter (p.rowSize i + 1) 0 (p.idx i))
  · have hshown : p.shown i i = IdxList.list := by
      funext x
      rw [shown, Function.update_self]
    simp only [filter, hid, hv, Option.bind_eq_bind, Option.bind_some, hshown]
    cases hx : filterLoop IdxList.list d isFilter (p.rowSize i + 1) 0 (p.idx i) <;> simp
  · rw [FeatureTable.filter, (h i).getColumn, hid, Option.bind_eq_bind, Option.bind_some,
      filterFrom_eq ((h i).data_of_own hv), FeatureTable.rowSize, (h i).idx]
    rfl

/-- Table `i` writes to its vector at `id`, which nothing was at or which was its own. -/
theorem Alike.write (h : ∀ j, Alike p j (ss j)) {s' : FeatureTable Ty El} {d : List (El t)}
    (hcolumns : s'.columns = p'.columns i) (hnames : s'.nameToIdx = p'.nameToIdx i) (hidx : s'.idx = p'.idx i)
    (hrest : ∀ j ≠ i, p'.columns j = p.columns j ∧ p'.nameToIdx j = p.nameToIdx j ∧ p'.idx j = p.idx j)
    (hold : p.vector t id = none ∨ ∃ d, p.vector t id = some ⟨i, d⟩)
    (hv : p'.vector t id = some ⟨i, d⟩) (hd : s'.data t id = some d)
    (hv' : ∀ t' id', ¬ (t' = t ∧ id' = id) → p'.vector t' id' = p.vector t' id')
    (hd' : ∀ t' id', ¬ (t' = t ∧ id' = id) → s'.data t' id' = (ss i).data t' id')
    (hlength : ∀ t', (p.items t').length ≤ (p'.items t').length)
    (hlength' : ∀ t', (s'.items t').length ≤ (p'.items t').length) : ∀ j, Alike p' j (Function.update ss i s' j) := by
  intro j
  by_cases hj : j = i
  · subst hj
    rw [Function.update_self]
    refine ⟨hcolumns, hnames, hidx, fun t' id' => ?_, hlength'⟩
    by_cases he : t' = t ∧ id' = id
    · obtain ⟨rfl, rfl⟩ := he
      rw [hd, hv, ownData_self]
    · rw [hd' t' id' he, hv' t' id' he]
      exact (h j).data t' id'
  · rw [Function.update_of_ne hj]
    obtain ⟨hc, hn, hx⟩ := hrest j hj
    refine ⟨hc ▸ (h j).columns, hn ▸ (h j).nameToIdx, hx ▸ (h j).idx, fun t' id' => ?_,
      fun t' => ((h j).length t').trans (hlength t')⟩
    by_cases he : t' = t ∧ id' = id
    · obtain ⟨rfl, rfl⟩ := he
      rw [(h j).data, hv, ownData_of_ne hj]
      rcases hold with hold | ⟨d', hold⟩
      · rw [hold]
        rfl
      · rw [hold, ownData_of_ne hj]
    · rw [hv' t' id' he]
      exact (h j).data t' id'

variable [DecidableEq Ty]

omit [DecidableEq ι] [DecidableEq Ty] in
theorem lt_of_vector {v : DataVector ι (El t)} (hv : p.vector t id = some v) : id < (p.items t).length := by
  by_contra hno
  rw [vector, List.getElem?_eq_none (not_lt.1 hno)] at hv
  cases hv

omit [DecidableEq ι] in
theorem join_update {β : Ty → Type} (items : (t : Ty) → List (Option (β t))) {l : List (Option (β t))} {v : β t}
    (hk : l[id]?.join = some v) (hl : ∀ n ≠ id, l[n]?.join = (items t)[n]?.join) :
    (Function.update items t l t)[id]?.join = some v ∧
      ∀ t' n, ¬ (t' = t ∧ n = id) → (Function.update items t l t')[n]?.join = (items t')[n]?.join := by
  refine ⟨by rw [Function.update_self, hk], fun t' n hne => ?_⟩
  by_cases ht : t' = t
  · subst ht
    rw [Function.update_self]
    exact hl n fun he => hne ⟨rfl, he⟩
  · rw [Function.update_of_ne ht]

theorem join_set_self {α : Type} {l : List (Option α)} (v : α) (hk : id < l.length) :
    (l.set id (some v))[id]?.join = some v := by
  rw [List.getElem?_set_self hk]
  rfl

theorem length_update {β : Ty → Type} (items : (t : Ty) → List (Option (β t))) {l : List (Option (β t))}
    (hl : (items t).length ≤ l.length) (t' : Ty) : (items t').length ≤ (Function.update items t l t').length := by
  by_cases ht : t' = t
  · subst ht
    rw [Function.update_self]
    exact hl
  · rw [Function.update_of_ne ht]

theorem length_update_le {β γ : Ty → Type} {items : (t : Ty) → List (Option (β t))}
    {items' : (t : Ty) → List (Option (γ t))}
    (h : ∀ t, (items t).length ≤ (items' t).length) {l : List (Option (β t))} {l' : List (Option (γ t))}
    (hl : l.length ≤ l'.length) (t' : Ty) :
    (Function.update items t l t').length ≤ (Function.update items' t l' t').length := by
  by_cases ht : t' = t
  · subst ht
    rw [Function.update_self, Function.update_self]
    exact hl
  · rw [Function.update_of_ne ht, Function.update_of_ne ht]
    exact h t'

theorem pushBack_agree (h : ∀ j, Alike p j (ss j)) {name : String} {d : List (El t)} (x : El t)
    (hid : p.getColumn i name = some id) (hv : p.vector t id = some ⟨i, d⟩) :
    Agree ss i (p.pushBack i t name x) (do (ss i).pushBack t (← (ss i).getColumn name) x) := by
  have hd := (h i).data_of_own hv
  rw [(h i).getColumn, hid]
  simp only [pushBack, FeatureTable.pushBack, hid, hv, hd, Option.bind_eq_bind, Option.bind_some, Option.pure_def]
  generalize newIdx d.length = m
  have hlt := lt_of_vector hv
  have hlt' : id < ((ss i).items t).length := by
    by_contra hno
    rw [FeatureTable.data, List.getElem?_eq_none (not_lt.1 hno)] at hd
    cases hd
  have hset : ∀ n ≠ id, ((p.items t).set id (some ⟨i, d ++ [x]⟩))[n]?.join = (p.items t)[n]?.join :=
    fun n hn => congrArg _ (List.getElem?_set_ne (Ne.symm hn))
  have hset' : ∀ n ≠ id, (((ss i).items t).set id (some (d ++ [x])))[n]?.join = ((ss i).items t)[n]?.join :=
    fun n hn => congrArg _ (List.getElem?_set_ne (Ne.symm hn))
  obtain ⟨hself, hother⟩ := join_update p.items (join_set_self _ hlt) hset
  obtain ⟨hself', hother'⟩ := join_update (ss i).items (join_set_self _ hlt') hset'
  refine .some (Alike.write h (h i).columns (h i).nameToIdx ?_ ?_ (.inr ⟨d, hv⟩) hself hself' hother hother' ?_ ?_)
  · rw [(h i).idx]
    exact (Function.update_self i _ p.idx).symm
  · exact fun j hj => ⟨rfl, rfl, Function.update_of_ne hj _ _⟩
  · exact length_update p.items (List.length_set.ge)
  · refine length_update_le (h i).length ?_
    rw [List.length_set, List.length_set]
    exact (h i).length t

/-- The vector of a type with room for the column id. -/
def grow {α : Type} (l : List (Option α)) (id : Nat) (v : α) : List (Option α) :=
  if l.length ≤ id then (l ++ List.replicate (id + 1 - l.length) none).set id (some v) else l

theorem grow_of_lt {α : Type} {l : List (Option α)} (v : α) (h : id < l.length) : grow l id v = l := if_neg (not_le.2 h)

theorem grow_of_le {α : Type} {l : List (Option α)} (v : α) (h : l.length ≤ id) : (grow l id v).length = id + 1 ∧
    (grow l id v)[id]?.join = some v ∧ ∀ n ≠ id, (grow l id v)[n]?.join = l[n]?.join := by
  have hlen : (l ++ List.replicate (id + 1 - l.length) none).length = id + 1 := by
    rw [List.length_append, List.length_replicate]
    omega
  rw [grow, if_pos h]
  refine ⟨by rw [List.length_set, hlen], join_set_self v (by omega), fun n hn => ?_⟩
  rw [List.getElem?_set_ne (Ne.symm hn), List.getElem?_append]
  split
  · rfl
  · next hnl =>
    rw [List.getElem?_eq_none (not_lt.1 hnl), List.getElem?_replicate]
    split <;> rfl

/-- The column id is beyond the registry of the type, or its entry is the table's own. -/
def Free (p : FeatureTables ι Ty El) (i : ι) (t : Ty) (id : Nat) : Prop :=
  (p.items t).length ≤ id ∨ ∃ d, p.vector t id = some ⟨i, d⟩

theorem getOrCreateVector_agree (h : ∀ j, Alike p j (ss j)) (hfree : p.Free i t id) :
    ∃ p' s' d, p.getOrCreateVector i t id = some p' ∧ (ss i).getOrCreateVector t id = some s' ∧
      p'.columns = p.columns ∧ p'.nameToIdx = p.nameToIdx ∧ p'.vector t id = some ⟨i, d⟩ ∧
      (∀ t' id', ¬ (t' = t ∧ id' = id) → p'.vector t' id' = p.vector t' id') ∧
      ∀ j, Alike p' j (Function.update ss i s' j) := by
  have hp : p.getOrCreateVector i t id = (grow (p.items t) id ⟨i, []⟩)[id]?.join.map fun _ =>
      { p with items := Function.update p.items t (grow (p.items t) id ⟨i, []⟩) } := rfl
  have hs : (ss i).getOrCreateVector t id = (grow ((ss i).items t) id [])[id]?.join.map fun _ =>
      { ss i with items := Function.update (ss i).items t (grow ((ss i).items t) id []) } := rfl
  have hlength := (h i).length t
  rcases hfree with hle | ⟨d, hv⟩
  · obtain ⟨hlen, hself, hother⟩ := grow_of_le (⟨i, []⟩ : DataVector ι (El t)) hle
    obtain ⟨hlen', hself', hother'⟩ := grow_of_le ([] : List (El t)) (hlength.trans hle)
    have hnone : p.vector t id = none := by rw [vector, List.getElem?_eq_none hle, Option.join_none]
    obtain ⟨hv, hvs⟩ := join_update p.items hself hother
    obtain ⟨hd, hds⟩ := join_update (ss i).items hself' hother'
    rw [hp, hs, hself, hself']
    refine ⟨_, _, [], rfl, rfl, rfl, rfl, hv, hvs, ?_⟩
    refine Alike.write h (h i).columns (h i).nameToIdx (h i).idx (fun j _ => ⟨rfl, rfl, rfl⟩)
      (.inl hnone) hv hd hvs hds ?_ ?_
    · exact length_update p.items (hle.trans (by omega))
    · exact length_update_le (h i).length (by omega)
  · have hd := (h i).data_of_own hv
    have hlt := lt_of_vector hv
    have hlt' : id < ((ss i).items t).length := by
      by_contra hno
      rw [FeatureTable.data, List.getElem?_eq_none (not_lt.1 hno)] at hd
      cases hd
    have hjoin : (p.items t)[id]?.join = some ⟨i, d⟩ := hv
    have hjoin' : ((ss i).items t)[id]?.join = some d := hd
    rw [hp, hs, grow_of_lt _ hlt, grow_of_lt _ hlt', hjoin, hjoin', Function.update_eq_self, Function.update_eq_self]
    refine ⟨p, ss i, d, rfl, rfl, rfl, rfl, hv, fun _ _ _ => rfl, ?_⟩
    rw [Function.update_eq_self]
    exact h

/-- The names with one more, if it is new. -/
def named (names : List (String × Nat)) (name : String) : List (String × Nat) :=
  match names.lookup name with
  | some _ => names
  | none => names ++ [(name, names.length)]

omit [DecidableEq Ty] in
theorem ensureColumnId_eq (p : FeatureTables ι Ty El) (i : ι) (name : String) : p.ensureColumnId i name =
    (p.columnId i name, { p with nameToIdx := Function.update p.nameToIdx i (named (p.nameToIdx i) name) }) := by
  rw [ensureColumnId, columnId, named]
  cases hl : (p.nameToIdx i).lookup name with
  | none => rfl
  | some id => rw [Function.update_eq_self, Option.getD_some]

/-- The table after the name and the id of a column are entered. -/
def enterColumn (p : FeatureTables ι Ty El) (i : ι) (name : String) : FeatureTables ι Ty El :=
  { p with
    nameToIdx := Function.update p.nameToIdx i (named (p.nameToIdx i) name)
    columns := Function.update p.columns i ((p.columns i).set (p.columnId i name) (some (p.columnId i name))) }

theorem createColumn_eq (p : FeatureTables ι Ty El) (i : ι) (t : Ty) (name : String) : p.createColumn i t name =
    if p.columnId i name < (p.columns i).length then (p.enterColumn i name).getOrCreateVector i t (p.columnId i name)
    else none := by
  rw [createColumn, ensureColumnId_eq]
  rfl

def enterColumnAlone (s : FeatureTable Ty El) (id : Nat) (name : String) : FeatureTable Ty El :=
  { s with nameToIdx := named s.nameToIdx name, columns := s.columns.set id (some id) }

omit [DecidableEq ι] in
theorem createColumnAlone_eq (s : FeatureTable Ty El) (t : Ty) (name : String)
    (hid : id = (s.nameToIdx.lookup name).getD s.nameToIdx.length) : s.createColumn t name =
      if id < s.columns.length then (enterColumnAlone s id name).getOrCreateVector t id else none := by
  have hensure : s.ensureColumnId name = (id, { s with nameToIdx := named s.nameToIdx name }) := by
    rw [FeatureTable.ensureColumnId, named, hid]
    cases hl : s.nameToIdx.lookup name <;> rfl
  rw [FeatureTable.createColumn, hensure]
  rfl

omit [DecidableEq Ty] in
theorem enterColumn_alike (h : ∀ j, Alike p j (ss j)) (name : String) : ∀ j, Alike (p.enterColumn i name) j
    (Function.update ss i (enterColumnAlone (ss i) (p.columnId i name) name) j) := by
  intro j
  obtain ⟨hcolumns, hnames, hidx, hdata, hlength⟩ := h j
  by_cases hj : j = i
  · subst hj
    rw [Function.update_self]
    refine ⟨?_, ?_, hidx, hdata, hlength⟩
    · simp only [enterColumnAlone, enterColumn, Function.update_self, hcolumns]
    · simp only [enterColumnAlone, enterColumn, Function.update_self, hnames]
  · rw [Function.update_of_ne hj]
    refine ⟨?_, ?_, hidx, hdata, hlength⟩
    · simp only [enterColumn, Function.update_of_ne hj, hcolumns]
    · simp only [enterColumn, Function.update_of_ne hj, hnames]

/-- A column that is created free is the table's own, and every other vector is left alone. -/
theorem createColumn_free (h : ∀ j, Alike p j (ss j)) {name : String} (hfree : p.Free i t (p.columnId i name))
    (hlt : p.columnId i name < (p.columns i).length) : ∃ p' s' d, p.createColumn i t name = some p' ∧
      (ss i).createColumn t name = some s' ∧ p'.columns = (p.enterColumn i name).columns ∧
      p'.nameToIdx = (p.enterColumn i name).nameToIdx ∧ p'.vector t (p.columnId i name) = some ⟨i, d⟩ ∧
      (∀ t' id', ¬ (t' = t ∧ id' = p.columnId i name) → p'.vector t' id' = p.vector t' id') ∧
      ∀ j, Alike p' j (Function.update ss i s' j) := by
  have hid : p.columnId i name = ((ss i).nameToIdx.lookup name).getD (ss i).nameToIdx.length := by
    rw [(h i).nameToIdx]
    rfl
  have hlt' : p.columnId i name < (ss i).columns.length := by
    rw [(h i).columns]
    exact hlt
  have henter := enterColumn_alike (i := i) h name
  obtain ⟨p', s', d, hp, hs, hrest⟩ := getOrCreateVector_agree henter
    (show (p.enterColumn i name).Free i t _ from hfree)
  rw [Function.update_self] at hs
  rw [Function.update_idem] at hrest
  refine ⟨p', s', d, ?_, ?_, hrest⟩
  · rw [createColumn_eq, if_pos hlt, hp]
  · rw [createColumnAlone_eq _ _ _ hid, if_pos hlt', hs]

theorem createColumn_agree (h : ∀ j, Alike p j (ss j)) {name : String}
    (hfree : p.columnId i name < (p.columns i).length → p.Free i t (p.columnId i name)) :
    Agree ss i (p.createColumn i t name) ((ss i).createColumn t name) := by
  by_cases hlt : p.columnId i name < (p.columns i).length
  · obtain ⟨p', s', d, hp, hs, -, -, -, -, halike⟩ := createColumn_free h (hfree hlt) hlt
    rw [hp, hs]
    exact .some halike
  · have hid : p.columnId i name = ((ss i).nameToIdx.lookup name).getD (ss i).nameToIdx.length := by
      rw [(h i).nameToIdx]
      rfl
    have hlen : (ss i).columns.length = (p.columns i).length := by rw [(h i).columns]
    rw [createColumn_eq, if_neg hlt, createColumnAlone_eq _ _ _ hid, hlen, if_neg hlt]
    exact .none

end Alike

section Runs

variable [DecidableEq ι] [DecidableEq Ty] {p p' : FeatureTables ι Ty El} {i : ι} {ss : ι → FeatureTable Ty El}
    {sort : StdSort}
  {featureSize : ι → Nat} {ops pre : List (ι × TableOp El)} {op : TableOp El}

/-- A column that the operation names has been made. -/
def Names (pre : List (ι × TableOp El)) (i : ι) : TableOp El → Prop
  | .pushBack t name _ | .sortBy t name _ | .filter t name _ => (i, .createColumn t name) ∈ pre
  | _ => True

def Known (ops : List (ι × TableOp El)) : Prop := ∀ pre i op, pre ++ [(i, op)] <+: ops → Names pre i op

/-- Every column that is created within the size of its table has an id that is free. -/
def FreeCreates (sort : StdSort) (featureSize : ι → Nat) (ops : List (ι × TableOp El)) : Prop :=
  ∀ pre i t name, pre ++ [(i, .createColumn t name)] <+: ops → ∀ p, run sort featureSize pre = some p →
    p.columnId i name < (p.columns i).length → p.Free i t (p.columnId i name)

/-- After the operations each table shows what it shows when its own are run alone. -/
structure SameContent (sort : StdSort) (featureSize : ι → Nat) (ops : List (ι × TableOp El)) : Prop where
  shown : ∀ p, run sort featureSize ops = some p → ∀ i, ∃ s, runAlone sort featureSize i ops = some s ∧
    p.rowSize i = s.rowSize ∧ ∀ t name, (i, .createColumn t name) ∈ ops → ∀ row,
      p.value i t name row = s.value t name row
  stuck : run sort featureSize ops = none → ∃ i, runAlone sort featureSize i ops = none

/-- At every moment the content is the same, and every column that is created is the table's own. -/
structure Independent (sort : StdSort) (featureSize : ι → Nat) (ops : List (ι × TableOp El)) : Prop where
  content : ∀ pre, pre <+: ops → SameContent sort featureSize pre
  creates : ∀ pre i t name, pre ++ [(i, .createColumn t name)] <+: ops → ∀ p, run sort featureSize pre = some p →
    p.columnId i name < (p.columns i).length →
      ∃ p' d, p.createColumn i t name = some p' ∧ p'.vector t (p.columnId i name) = some ⟨i, d⟩

/-- Every column made so far is where its name leads, and its table's own. -/
def Made (p : FeatureTables ι Ty El) (pre : List (ι × TableOp El)) : Prop :=
  ∀ i t name, (i, .createColumn t name) ∈ pre → ∃ id d, (p.nameToIdx i).lookup name = some id ∧
    (p.columns i)[id]? = some (some id) ∧ p.vector t id = some ⟨i, d⟩

/-- Names, columns and the owners of vectors stay. -/
structure Grows (p p' : FeatureTables ι Ty El) : Prop where
  names : ∀ i name id, (p.nameToIdx i).lookup name = some id → (p'.nameToIdx i).lookup name = some id
  columns : ∀ i (id : Nat), (p.columns i)[id]? = some (some id) → (p'.columns i)[id]? = some (some id)
  vectors : ∀ t id o d, p.vector t id = some ⟨o, d⟩ → ∃ d, p'.vector t id = some ⟨o, d⟩

omit [DecidableEq ι] [DecidableEq Ty] in
theorem Made.grow (h : Made p pre) (hg : Grows p p') : Made p' pre := by
  intro i t name hm
  obtain ⟨id, d, hname, hcolumn, hv⟩ := h i t name hm
  obtain ⟨d', hv'⟩ := hg.vectors t id i d hv
  exact ⟨id, d', hg.names i name id hname, hg.columns i id hcolumn, hv'⟩

omit [DecidableEq ι] [DecidableEq Ty] in
theorem Made.concat (h : Made p pre) (hop : ∀ t name, op = .createColumn t name → ∃ id d,
    (p.nameToIdx i).lookup name = some id ∧ (p.columns i)[id]? = some (some id) ∧ p.vector t id = some ⟨i, d⟩) :
    Made p (pre ++ [(i, op)]) := by
  intro j t name hm
  rcases List.mem_append.1 hm with hm | hm
  · exact h j t name hm
  · cases List.mem_singleton.1 hm
    exact hop t name rfl

omit [DecidableEq Ty] in
theorem grows_setIdx (x : IdxList) : Grows p (p.setIdx i x) :=
  ⟨fun _ _ _ h => h, fun _ _ h => h, fun _ _ _ d h => ⟨d, h⟩⟩

theorem lookup_named {names : List (String × Nat)} {name name' : String} {id : Nat} (h : names.lookup name = some id) :
    (named names name').lookup name = some id := by
  rw [named]
  split
  · exact h
  · rw [List.lookup_append, h, Option.some_or]

theorem lookup_named_self (names : List (String × Nat)) (name : String) :
    (named names name).lookup name = some ((names.lookup name).getD names.length) := by
  rw [named]
  cases hl : names.lookup name with
  | some id => exact hl
  | none => simp [List.lookup_append, hl]

omit [DecidableEq Ty] in
theorem grows_enterColumn (name : String) : Grows p (p.enterColumn i name) := by
  refine ⟨fun j name' id h => ?_, fun j id h => ?_, fun _ _ _ d h => ⟨d, h⟩⟩
  · by_cases hj : j = i
    · subst hj
      simp only [enterColumn, Function.update_self]
      exact lookup_named h
    · simp only [enterColumn, Function.update_of_ne hj]
      exact h
  · by_cases hj : j = i
    · subst hj
      simp only [enterColumn, Function.update_self]
      by_cases hid : p.columnId j name = id
      · rw [hid]
        exact List.getElem?_set_self (List.getElem?_eq_some_iff.1 h).1
      · rw [List.getElem?_set_ne hid]
        exact h
    · simp only [enterColumn, Function.update_of_ne hj]
      exact h

omit [DecidableEq ι] [DecidableEq Ty] in
theorem Made.getColumn (h : Made p pre) {t : Ty} {name : String} (hm : (i, .createColumn t name) ∈ pre) :
    ∃ id d, p.getColumn i name = some id ∧ p.vector t id = some ⟨i, d⟩ := by
  obtain ⟨id, d, hname, hcolumn, hv⟩ := h i t name hm
  refine ⟨id, d, ?_, hv⟩
  rw [FeatureTables.getColumn, hname, Option.bind_eq_bind, Option.bind_some, hcolumn]
  rfl

theorem grows_pushBack {t : Ty} {name : String} {x : El t} (h : p.pushBack i t name x = some p') : Grows p p' := by
  simp only [pushBack, Option.bind_eq_bind, Option.bind_eq_some_iff, Option.pure_def, Option.some.injEq] at h
  obtain ⟨id, -, v, hv, rfl⟩ := h
  refine ⟨fun _ _ _ h => h, fun _ _ h => h, fun t' id' o d hd => ?_⟩
  have hset : ∀ n ≠ id, ((p.items t).set id (some { v with data := v.data ++ [x] }))[n]?.join = (p.items t)[n]?.join :=
    fun n hn => congrArg _ (List.getElem?_set_ne (Ne.symm hn))
  obtain ⟨hself, hother⟩ := join_update p.items (join_set_self _ (lt_of_vector hv)) hset
  by_cases he : t' = t ∧ id' = id
  · obtain ⟨rfl, rfl⟩ := he
    cases hv.symm.trans hd
    exact ⟨_, hself⟩
  · exact ⟨d, (hother t' id' he).trans hd⟩

/-- Operations other than `createColumn` make no column. -/
theorem Made.others (h : Made p pre) (hc : ∀ t name, op ≠ .createColumn t name) (hp : p.does sort i op = some p') :
    Made p' (pre ++ [(i, op)]) := by
  refine Made.concat (h.grow ?_) fun t name he => absurd he (hc t name)
  cases op with
  | createColumn t name => exact absurd rfl (hc t name)
  | pushBack t name x => exact grows_pushBack hp
  | removeRow row =>
    simp only [does, removeRow, Option.bind_eq_bind, Option.bind_eq_some_iff, Option.pure_def, Option.some.injEq] at hp
    obtain ⟨x, -, rfl⟩ := hp
    exact grows_setIdx x
  | sortBy t name comp =>
    simp only [does, sortBy, Option.bind_eq_bind, Option.bind_eq_some_iff, Option.pure_def, Option.some.injEq] at hp
    obtain ⟨-, -, -, -, list, -, rfl⟩ := hp
    exact grows_setIdx _
  | filter t name isFilter =>
    simp only [does, filter, Option.bind_eq_bind, Option.bind_eq_some_iff, Option.pure_def, Option.some.injEq] at hp
    obtain ⟨-, -, -, -, x, -, rfl⟩ := hp
    exact grows_setIdx x

theorem Made.createColumn (h : Made p pre) (halike : ∀ j, Alike p j (ss j)) {t : Ty} {name : String}
    (hfree : p.columnId i name < (p.columns i).length → p.Free i t (p.columnId i name))
    (hp : p.createColumn i t name = some p') : Made p' (pre ++ [(i, .createColumn t name)]) := by
  have hlt : p.columnId i name < (p.columns i).length := by
    by_contra hno
    rw [createColumn_eq, if_neg hno] at hp
    cases hp
  obtain ⟨p'', -, d, hp'', -, hcolumns, hnames, hv, hother, -⟩ := createColumn_free halike (hfree hlt) hlt
  cases hp.symm.trans hp''
  have henter : Grows p (p.enterColumn i name) := grows_enterColumn name
  refine Made.concat (h.grow ⟨?_, ?_, fun t' id' o d' hd => ?_⟩) ?_
  · rw [hnames]
    exact henter.names
  · rw [hcolumns]
    exact henter.columns
  · by_cases he : t' = t ∧ id' = p.columnId i name
    · obtain ⟨rfl, rfl⟩ := he
      rcases hfree hlt with hle | ⟨d'', hown⟩
      · exact absurd (lt_of_vector hd) (not_lt.2 hle)
      · cases hown.symm.trans hd
        exact ⟨d, hv⟩
    · exact ⟨d', (hother t' id' he).trans hd⟩
  · rintro t' name' ⟨⟩
    refine ⟨p.columnId i name, d, ?_, ?_, hv⟩
    · simp only [hnames, enterColumn, Function.update_self]
      exact lookup_named_self _ _
    · simp only [hcolumns, enterColumn, Function.update_self]
      exact List.getElem?_set_self hlt

theorem does_agree (sort : StdSort) (halike : ∀ j, Alike p j (ss j)) (hmade : Made p pre) (hnames : Names pre i op)
    (hfree : ∀ t name, op = .createColumn t name → p.columnId i name < (p.columns i).length →
      p.Free i t (p.columnId i name)) :
    Agree ss i (p.does sort i op) ((ss i).does sort op) ∧
      ∀ p', p.does sort i op = some p' → Made p' (pre ++ [(i, op)]) := by
  cases op with
  | createColumn t name =>
    have hf := hfree t name rfl
    exact ⟨createColumn_agree halike hf, fun p' hp => hmade.createColumn halike hf hp⟩
  | pushBack t name x =>
    obtain ⟨id, d, hid, hv⟩ := hmade.getColumn hnames
    exact ⟨pushBack_agree halike x hid hv, fun p' hp => hmade.others nofun hp⟩
  | removeRow row => exact ⟨removeRow_agree halike row, fun p' hp => hmade.others nofun hp⟩
  | sortBy t name comp =>
    obtain ⟨id, d, hid, hv⟩ := hmade.getColumn hnames
    exact ⟨sortBy_agree halike hid hv, fun p' hp => hmade.others nofun hp⟩
  | filter t name isFilter =>
    obtain ⟨id, d, hid, hv⟩ := hmade.getColumn hnames
    exact ⟨filter_agree halike hid hv, fun p' hp => hmade.others nofun hp⟩

theorem run_concat : run sort featureSize (pre ++ [(i, op)]) = (run sort featureSize pre).bind (·.does sort i op) :=
  foldlM_concat _ _ _ _

theorem runAlone_concat : runAlone sort featureSize i (pre ++ [(i, op)]) =
    (runAlone sort featureSize i pre).bind (·.does sort op) := by
  have hfilter : (pre ++ [(i, op)]).filter (·.1 = i) = pre.filter (·.1 = i) ++ [(i, op)] := by simp
  rw [runAlone, hfilter]
  exact foldlM_concat _ _ _ _

theorem runAlone_concat_of_ne {j : ι} (hj : j ≠ i) : runAlone sort featureSize j (pre ++ [(i, op)]) =
    runAlone sort featureSize j pre := by
  have hfilter : (pre ++ [(i, op)]).filter (·.1 = j) = pre.filter (·.1 = j) := by simp [Ne.symm hj]
  rw [runAlone, runAlone, hfilter]

omit [DecidableEq Ty] in
theorem alike_make (featureSize : ι → Nat) (j : ι) :
    Alike (make featureSize : FeatureTables ι Ty El) j (FeatureTable.make (featureSize j)) :=
  ⟨rfl, rfl, rfl, fun _ _ => rfl, fun _ => le_refl _⟩

/-- Both runs are stuck, or every table is alike. -/
theorem run_alike (hknown : Known ops) (hfree : FreeCreates sort featureSize ops) (hpre : pre <+: ops) :
    (∃ p, ∃ ss : ι → FeatureTable Ty El, run sort featureSize pre = some p ∧
      (∀ i, runAlone sort featureSize i pre = some (ss i)) ∧
      (∀ i, Alike p i (ss i)) ∧ Made p pre) ∨
    run sort featureSize pre = none ∧ ∃ i, runAlone sort featureSize i pre = none := by
  induction pre using List.reverseRecOn with
  | nil =>
    refine .inl ⟨make featureSize, fun i => FeatureTable.make (featureSize i), rfl, fun _ => rfl,
      alike_make featureSize, ?_⟩
    intro i t name hm
    cases hm
  | append_singleton pre op ih =>
    obtain ⟨i, op⟩ := op
    rcases ih ((List.prefix_append pre _).trans hpre) with ⟨p, ss, hrun, halone, halike, hmade⟩ | ⟨hrun, j, halone⟩
    · obtain ⟨hagree, hmade'⟩ := does_agree sort halike hmade (hknown pre i op hpre)
        fun t name he => hfree pre i t name (he ▸ hpre) p hrun
      have hrun' : run sort featureSize (pre ++ [(i, op)]) = p.does sort i op := by
        rw [run_concat, hrun, Option.bind_some]
      have halone' : runAlone sort featureSize i (pre ++ [(i, op)]) = (ss i).does sort op := by
        rw [runAlone_concat, halone, Option.bind_some]
      rw [hrun']
      cases hp : p.does sort i op with
      | none =>
        rw [hp] at hagree
        refine .inr ⟨rfl, i, ?_⟩
        rw [halone']
        generalize (ss i).does sort op = r at hagree
        cases hagree
        rfl
      | some p' =>
        rw [hp] at hagree
        generalize hs : (ss i).does sort op = r at hagree
        cases hagree with
        | @some _ s' halike' =>
          refine .inl ⟨p', Function.update ss i s', rfl, fun j => ?_, halike', hmade' p' hp⟩
          by_cases hj : j = i
          · subst hj
            rw [halone', hs, Function.update_self]
          · rw [runAlone_concat_of_ne hj, halone, Function.update_of_ne hj]
    · refine .inr ⟨?_, j, ?_⟩
      · rw [run_concat, hrun]
        rfl
      · by_cases hj : j = i
        · subst hj
          rw [runAlone_concat, halone]
          rfl
        · rw [runAlone_concat_of_ne hj, halone]

omit [DecidableEq Ty] in
theorem Alike.value {s : FeatureTable Ty El} (h : Alike p i s) {t : Ty} {name : String} {id : Nat} {d : List (El t)}
    (hid : p.getColumn i name = some id) (hv : p.vector t id = some ⟨i, d⟩) (row : Nat) :
    p.value i t name row = s.value t name row := by
  rw [FeatureTables.value, FeatureTable.value, h.getColumn, hid]
  simp only [hv, Option.bind_eq_bind, Option.bind_some, FeatureTable.get, h.idx, FeatureTable.getByIdx,
    h.data_of_own hv]
  rfl

/-- A column id that is not free leads to a null entry or to the vector of another table. -/
theorem free_of_created {t : Ty} {name : String} {d : List (El t)} (hp : p.createColumn i t name = some p')
    (hv : p'.vector t (p.columnId i name) = some ⟨i, d⟩) : p.Free i t (p.columnId i name) := by
  by_cases hle : (p.items t).length ≤ p.columnId i name
  · exact .inl hle
  · have hget : (p.enterColumn i name).getOrCreateVector i t (p.columnId i name) =
        (grow (p.items t) (p.columnId i name) ⟨i, []⟩)[p.columnId i name]?.join.map fun _ =>
          { p.enterColumn i name with
            items := Function.update p.items t (grow (p.items t) (p.columnId i name) ⟨i, []⟩) } := rfl
    rw [createColumn_eq, hget, grow_of_lt _ (not_le.1 hle), Function.update_eq_self] at hp
    split at hp
    · obtain ⟨-, -, rfl⟩ := Option.map_eq_some_iff.1 hp
      exact .inr ⟨d, hv⟩
    · cases hp

omit [DecidableEq ι] [DecidableEq Ty] in
theorem Known.concat (h : Known ops) (i : ι) (op : TableOp El) (hop : Names ops i op) : Known (ops ++ [(i, op)]) := by
  intro pre j op' hpre
  rcases List.prefix_concat_iff.1 hpre with he | hpre
  · obtain ⟨rfl, hlast⟩ := List.append_inj' he rfl
    cases hlast
    exact hop
  · exact h pre j op' hpre

theorem FreeCreates.concat (h : FreeCreates sort featureSize ops) (i : ι) (op : TableOp El)
    (hop : ∀ t name, op = .createColumn t name → ∀ p, run sort featureSize ops = some p →
      p.Free i t (p.columnId i name)) : FreeCreates sort featureSize (ops ++ [(i, op)]) := by
  intro pre j t name hpre p hp hlt
  rcases List.prefix_concat_iff.1 hpre with he | hpre
  · obtain ⟨rfl, hlast⟩ := List.append_inj' he rfl
    cases hlast
    exact hop t name rfl p hp
  · exact h pre j t name hpre p hp hlt

theorem independent_iff (hknown : Known ops) : Independent sort featureSize ops ↔ FreeCreates sort featureSize ops := by
  constructor
  · intro h pre i t name hpre p hrun hlt
    obtain ⟨p', d, hp, hv⟩ := h.creates pre i t name hpre p hrun hlt
    exact free_of_created hp hv
  · intro hfree
    constructor
    · intro pre hpre
      rcases run_alike hknown hfree hpre with ⟨p, ss, hrun, halone, halike, hmade⟩ | ⟨hrun, hstuck⟩
      · constructor
        · intro p' hp' i
          cases hrun.symm.trans hp'
          refine ⟨ss i, halone i, ?_, fun t name hm row => ?_⟩
          · rw [rowSize, FeatureTable.rowSize, (halike i).idx]
          · obtain ⟨id, d, hid, hv⟩ := hmade.getColumn hm
            exact (halike i).value hid hv row
        · intro hnone
          cases hrun.symm.trans hnone
      · refine ⟨fun p hp => ?_, fun _ => hstuck⟩
        cases hrun.symm.trans hp
    · intro pre i t name hpre p hrun hlt
      rcases run_alike hknown hfree ((List.prefix_append pre _).trans hpre) with ⟨p', ss, hrun', -, halike, -⟩ |
        ⟨hrun', -⟩
      · cases hrun.symm.trans hrun'
        obtain ⟨p', -, d, hp', -, -, -, hv, -, -⟩ := createColumn_free halike (hfree pre i t name hpre p hrun hlt) hlt
        exact ⟨p', d, hp', hv⟩
      · cases hrun.symm.trans hrun'

end Runs

section Examples

open FeatureTable (Uid)

/-- Two tables put the columns of different types at the same column id. -/
theorem independent_two_types : ∃ ops : List (Bool × TableOp fun _ : Bool => Nat),
    ops.map Prod.fst = [false, true, false, true, false, false] ∧ Independent (fun _ l => some l) (fun _ => 1) ops ∧
      ∃ p, run (fun _ l => some l) (fun _ => 1) ops = some p ∧ p.rowSize false = 1 ∧
        p.value false false "a" 0 = some 2 ∧ p.value true true "b" 0 = some 3 := by
  have hknown : Known ([] : List (Bool × TableOp fun _ : Bool => Nat)) := fun pre i op h => by
    simp at h
  have hfree : FreeCreates (fun _ l => some l) (fun _ => 1) ([] : List (Bool × TableOp fun _ : Bool => Nat)) :=
    fun pre i t name h => by simp at h
  have h₁ := (hknown.concat false (.createColumn false "a") trivial).concat true (.createColumn true "b") trivial
  have h₂ := (h₁.concat false (.pushBack false "a" 1) (by simp [Names])).concat true (.pushBack true "b" 3)
    (by simp [Names])
  have h₃ := (h₂.concat false (.pushBack false "a" 2) (by simp [Names])).concat false (.removeRow 0) trivial
  have f₁ := (hfree.concat false (.createColumn false "a") fun t name he p hp => by
    cases he
    cases hp
    exact .inl (Nat.zero_le _)).concat true (.createColumn true "b") fun t name he p hp => by
      cases he
      cases hp
      exact .inl (Nat.zero_le _)
  have f₂ := (f₁.concat false (.pushBack false "a" 1) nofun).concat true (.pushBack true "b" 3) nofun
  have f₃ := (f₂.concat false (.pushBack false "a" 2) nofun).concat false (.removeRow 0) nofun
  exact ⟨_, rfl, (independent_iff h₃).2 f₃, _, rfl, rfl, rfl, rfl⟩
/-- Two tables make their first column with the same type. -/
theorem vector_shared : ¬ ∀ ops : List (Bool × TableOp Uid), Known ops →
    Independent (fun _ l => some l) (fun _ => 1) ops := by
  intro hclaim
  have h := hclaim [(false, .createColumn () "a"), (true, .createColumn () "a")] fun pre i op hpre => by
    have hm : (i, op) ∈ [((false, .createColumn () "a") : Bool × TableOp Uid), (true, .createColumn () "a")] :=
      hpre.subset (List.mem_append_right _ List.mem_cons_self)
    rcases List.mem_cons.1 hm with he | hm
    · cases he
      trivial
    · cases List.mem_singleton.1 hm
      trivial
  obtain ⟨p, d, hp, hv⟩ := h.creates [(false, .createColumn () "a")] true () "a" (List.prefix_refl _) _ rfl (by decide)
  cases hp
  cases hv

end Examples

end FeatureTables

end Wizard
