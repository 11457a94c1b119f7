import Mathlib.Data.List.Sort
import Wizard.Runs
import Wizard.FeatureTable

/-! Runs of the feature table. Whole rows are appended, shown through the shared
list of indices, sorted, filtered and removed. -/

namespace Wizard

/-- The list of indices over `n` appended rows. -/
structure IdxList.Marks (x : IdxList) (n : Nat) : Prop where
  nodup : x.list.Nodup
  nonneg : ∀ a ∈ x.list, 0 ≤ a
  le : ∀ a ∈ x.list, a ≤ x.maxIdx
  lower : -1 ≤ x.maxIdx
  upper : x.maxIdx < n

namespace IdxList

variable {x x' : IdxList} {n i : Nat}

theorem foldl_max_spec (l : List Int) (b : Int) : b ≤ l.foldl max b ∧ (∀ a ∈ l, a ≤ l.foldl max b) ∧
    ∀ c, b ≤ c → (∀ a ∈ l, a ≤ c) → l.foldl max b ≤ c := by
  induction l generalizing b with
  | nil => exact ⟨le_refl b, fun a ha => absurd ha List.not_mem_nil, fun c hb _ => hb⟩
  | cons e l ih =>
    obtain ⟨hlower, hle, hupper⟩ := ih (max b e)
    rw [List.foldl_cons]
    refine ⟨(le_max_left b e).trans hlower, fun a ha => ?_, fun c hb hc => ?_⟩
    · rcases List.mem_cons.1 ha with rfl | ha
      · exact (le_max_right b a).trans hlower
      · exact hle a ha
    · have he := hc e List.mem_cons_self
      exact hupper c (max_le hb he) (fun a ha => hc a (List.mem_cons_of_mem e ha))

theorem Marks.lt (h : x.Marks n) {a : Int} (ha : a ∈ x.list) : a < n :=
  (h.le a ha).trans_lt h.upper

theorem Marks.addIdx (h : x.Marks n) : (x.addIdx n).list = x.list ++ [(n : Int)] ∧ (x.addIdx n).Marks (n + 1) := by
  have hupper := h.upper
  have hlower := h.lower
  rw [IdxList.addIdx, if_pos hupper]
  have hnodup : (x.list ++ [(n : Int)]).Nodup := by
    rw [List.nodup_append]
    refine ⟨h.nodup, List.nodup_singleton _, fun a ha b hb => ?_⟩
    have hlt := h.lt ha
    rw [List.mem_singleton] at hb
    omega
  refine ⟨rfl, hnodup, fun a ha => ?_, fun a ha => ?_, ?_, ?_⟩
  · rcases List.mem_append.1 ha with ha | ha
    · exact h.nonneg a ha
    · rw [List.mem_singleton] at ha
      omega
  · change a ≤ (n : Int)
    rcases List.mem_append.1 ha with ha | ha
    · exact (h.lt ha).le
    · exact (List.mem_singleton.1 ha).le
  · change -1 ≤ (n : Int)
    omega
  · change (n : Int) < (n + 1 : Nat)
    omega

theorem removeRow_eq (h : x.removeRow i = some x') : i < x.list.length ∧ x'.list = x.list.eraseIdx i := by
  by_cases hi : i < x.list.length
  · rw [removeRow, if_pos hi] at h
    cases h
    exact ⟨hi, rfl⟩
  · rw [removeRow, if_neg hi] at h
    cases h

/-- The watermark sinks to the greatest index left. -/
theorem Marks.removeRow (h : x.Marks n) (hr : x.removeRow i = some x') : x'.Marks n := by
  by_cases hi : i < x.list.length
  · rw [IdxList.removeRow, if_pos hi] at hr
    cases hr
    have hsub := List.eraseIdx_sublist x.list i
    obtain ⟨hlower, hle, hupper⟩ := foldl_max_spec (x.list.eraseIdx i) (-1)
    refine ⟨hsub.nodup h.nodup, fun a ha => h.nonneg a (hsub.subset ha), hle, hlower, ?_⟩
    exact (hupper x.maxIdx h.lower (fun a ha => h.le a (hsub.subset ha))).trans_lt h.upper
  · rw [IdxList.removeRow, if_neg hi] at hr
    cases hr

theorem Marks.perm (h : x.Marks n) {l : List Int} (hl : l.Perm x.list) : Marks ⟨l, x.maxIdx⟩ n where
  nodup := hl.nodup_iff.2 h.nodup
  nonneg a ha := h.nonneg a (hl.mem_iff.1 ha)
  le a ha := h.le a (hl.mem_iff.1 ha)
  lower := h.lower
  upper := h.upper

end IdxList

namespace FeatureTable

variable {Ty : Type} {El : Ty → Type}

section Loop

variable {s s' s'' : FeatureTable Ty El} {t : Ty} {id i n fuel : Nat} {d : List (El t)} {isFilter : El t → Bool}

/-- Only the list of indices can differ. -/
structure Keeps (s s' : FeatureTable Ty El) : Prop where
  items : s'.items = s.items
  columns : s'.columns = s.columns
  nameToIdx : s'.nameToIdx = s.nameToIdx

theorem Keeps.rfl : Keeps s s := ⟨.refl _, .refl _, .refl _⟩

theorem Keeps.trans (h : Keeps s s') (h' : Keeps s' s'') : Keeps s s'' :=
  ⟨h'.items.trans h.items, h'.columns.trans h.columns, h'.nameToIdx.trans h.nameToIdx⟩

theorem Keeps.data (h : Keeps s s') : s'.data t id = s.data t id := by
  rw [FeatureTable.data, FeatureTable.data, h.items]

theorem Keeps.getByIdx (h : Keeps s s') {a : Int} : s'.getByIdx t id a = s.getByIdx t id a := by
  rw [FeatureTable.getByIdx, FeatureTable.getByIdx, h.data]

theorem Keeps.getColumn (h : Keeps s s') {name : String} : s'.getColumn name = s.getColumn name := by
  rw [FeatureTable.getColumn, FeatureTable.getColumn, h.columns, h.nameToIdx]

theorem removeRow_spec (h : s.removeRow i = some s') : Keeps s s' ∧ s.idx.removeRow i = some s'.idx := by
  cases hr : s.idx.removeRow i with
  | none => simp [removeRow, hr] at h
  | some x =>
    simp only [removeRow, hr, Option.bind_eq_bind, Option.bind_some, Option.pure_def, Option.some.injEq] at h
    subst h
    exact ⟨⟨.refl _, .refl _, .refl _⟩, .refl _⟩

theorem removeRow_of_lt (hi : i < s.rowSize) : ∃ s', s.removeRow i = some s' := by
  have hx : s.idx.removeRow i = some ⟨s.idx.list.eraseIdx i, (s.idx.list.eraseIdx i).foldl max (-1)⟩ := if_pos hi
  exact ⟨{ s with idx := ⟨s.idx.list.eraseIdx i, (s.idx.list.eraseIdx i).foldl max (-1)⟩ }, by
    rw [removeRow, hx]
    rfl⟩

theorem get_eq {a : Int} (ha : s.idx.list[i]? = some a) : s.get t id i = s.getByIdx t id a := by
  rw [FeatureTable.get, ha]
  rfl

theorem getByIdx_eq (hd : s.data t id = some d) {m : Nat} : s.getByIdx t id m = d[m]? := by
  simp [getByIdx, hd]

theorem get_of_lt (hd : s.data t id = some d) (hin : ∀ a ∈ s.idx.list, 0 ≤ a ∧ a < d.length)
    (hi : i < s.rowSize) : ∃ v, s.get t id i = some v := by
  have hi' : i < s.idx.list.length := hi
  obtain ⟨h0, hlt⟩ := hin s.idx.list[i] (List.getElem_mem hi')
  obtain ⟨m, hm⟩ := Int.eq_ofNat_of_zero_le h0
  have hml : m < d.length := by omega
  have he : s.idx.list[i]? = some (m : Int) := by rw [List.getElem?_eq_getElem hi', hm]
  exact ⟨d[m], by rw [get_eq he, getByIdx_eq hd, List.getElem?_eq_getElem hml]⟩

/-- Rows can only leave, each for a value that the filter takes. -/
structure Filtered (t : Ty) (id : Nat) (isFilter : El t → Bool) (s s' : FeatureTable Ty El) : Prop where
  keeps : Keeps s s'
  sublist : s'.idx.list.Sublist s.idx.list
  marks : ∀ n, s.idx.Marks n → s'.idx.Marks n
  taken : ∀ a ∈ s.idx.list, a ∉ s'.idx.list → ∃ v, s.getByIdx t id a = some v ∧ isFilter v = true

theorem Filtered.rfl : Filtered t id isFilter s s where
  keeps := .rfl
  sublist := .refl _
  marks _ h := h
  taken _ ha hn := absurd ha hn

theorem Filtered.trans (h : Filtered t id isFilter s s') (h' : Filtered t id isFilter s' s'') :
    Filtered t id isFilter s s'' where
  keeps := h.keeps.trans h'.keeps
  sublist := h'.sublist.trans h.sublist
  marks n hn := h'.marks n (h.marks n hn)
  taken a ha hn := by
    by_cases hm : a ∈ s'.idx.list
    · obtain ⟨v, hv, hf⟩ := h'.taken a hm hn
      exact ⟨v, h.keeps.getByIdx ▸ hv, hf⟩
    · exact h.taken a ha hm

theorem Filtered.removeRow {v : El t} (hv : s.get t id i = some v) (hf : isFilter v = true)
    (h : s.removeRow i = some s') : Filtered t id isFilter s s' := by
  obtain ⟨hkeeps, hr⟩ := removeRow_spec h
  obtain ⟨hi, hlist⟩ := IdxList.removeRow_eq hr
  refine ⟨hkeeps, hlist ▸ List.eraseIdx_sublist _ _, fun n hn => hn.removeRow hr, fun a ha hn => ?_⟩
  obtain ⟨k, hk, he⟩ := List.getElem_of_mem ha
  have hki : k = i := by
    by_contra hne
    rw [hlist] at hn
    exact hn (List.mem_eraseIdx_iff_getElem.2 ⟨k, hk, hne, he⟩)
  subst hki
  refine ⟨v, ?_, hf⟩
  rw [← hv, get_eq (List.getElem?_eq_some_iff.2 ⟨hk, he⟩)]

theorem filterFrom_spec (h : filterFrom t id isFilter fuel i s = some s') : Filtered t id isFilter s s' := by
  induction fuel generalizing i s with
  | zero => cases h
  | succ fuel ih =>
    rw [filterFrom] at h
    split at h
    · cases hv : s.get t id i with
      | none => simp [hv] at h
      | some v =>
        simp only [hv, Option.bind_eq_bind, Option.bind_some, Option.bind_eq_some_iff] at h
        obtain ⟨s₁, h₁, h⟩ := h
        have hstep : Filtered t id isFilter s s₁ := by
          split at h₁
          · exact .removeRow hv (by assumption) h₁
          · cases h₁
            exact .rfl
        split at h
        · exact hstep.trans (ih h)
        · cases h
    · cases h
      exact .rfl

/-- With fewer than `2 ^ 31` rows shown, all of them in the column, the loop ends. -/
theorem filterFrom_returns (isFilter : El t → Bool) (hd : s.data t id = some d)
    (hin : ∀ a ∈ s.idx.list, 0 ≤ a ∧ a < d.length)
    (hsmall : s.rowSize < 2 ^ 31) (hfuel : s.rowSize < fuel + i) (hpos : 0 < fuel) :
    ∃ s', filterFrom t id isFilter fuel i s = some s' := by
  induction fuel generalizing i s with
  | zero => omega
  | succ fuel ih =>
    rw [filterFrom]
    split
    case isTrue hi =>
      obtain ⟨v, hv⟩ := get_of_lt hd hin hi
      obtain ⟨s₁, h₁, hf⟩ : ∃ s₁, (if isFilter v = true then s.removeRow i else some s) = some s₁ ∧
          Filtered t id isFilter s s₁ := by
        by_cases hc : isFilter v = true
        · obtain ⟨s₁, h₁⟩ := removeRow_of_lt hi
          exact ⟨s₁, by rw [if_pos hc, h₁], .removeRow hv hc h₁⟩
        · exact ⟨s, by rw [if_neg hc], .rfl⟩
      have hle : s₁.rowSize ≤ s.rowSize := hf.sublist.length_le
      have hbound : i + 1 < 2 ^ 31 := by omega
      obtain ⟨s', hs'⟩ := ih (i := i + 1) (s := s₁) (hf.keeps.data.trans hd)
        (fun a ha => hin a (hf.sublist.subset ha)) (by omega) (by omega) (by omega)
      exact ⟨s', by simp only [hv, h₁, hbound, Option.bind_eq_bind, Option.bind_some, if_true, hs']⟩
    case isFalse hi => exact ⟨s, .refl _⟩

end Loop

variable {cs : Schema Ty}

inductive Op (El : Ty → Type) (cs : Schema Ty)
  | append (row : Row El cs) (order : List (Fin cs.length))
  | removeRow (i : Nat)
  | sortBy (j : Fin cs.length) (comp : El (cs.type j) → El (cs.type j) → Bool)
  | filter (j : Fin cs.length) (isFilter : El (cs.type j) → Bool)

/-- A table with the rows appended to it and the numbers of those removed. -/
structure History (El : Ty → Type) (cs : Schema Ty) where
  table : FeatureTable Ty El
  rows : List (Row El cs)
  gone : List Nat

section Steps

variable [DecidableEq Ty]

/-- A fresh table after its columns are made. -/
def Start (s : History El cs) : Prop :=
  (cs.map Prod.fst).Nodup ∧ ∃ featureSize, cs.length ≤ featureSize ∧
    (make featureSize).createAll cs = some s.table ∧ s.rows = [] ∧ s.gone = []

/-- An append pushes into every column once. -/
def Allowed (s : History El cs) : Op El cs → Prop
  | .append _ order => order.Perm (List.finRange cs.length) ∧ order ≠ []
  | .removeRow i => i < s.table.rowSize
  | .sortBy _ comp => IsStrictWeakOrder _ (fun x y => comp x y = true)
  | .filter _ _ => True

def Does (s t : History El cs) : Op El cs → Prop
  | .append row order => s.table.appendRow row order = some t.table ∧ t.rows = s.rows ++ [row] ∧ t.gone = s.gone
  | .removeRow i => s.table.removeRow i = some t.table ∧ t.rows = s.rows ∧
      t.gone = s.gone ++ (s.table.idx.list[i]?.map Int.toNat).toList
  | .sortBy j comp => s.table.SortBy (cs.type j) (cs.name j) comp t.table ∧ t.rows = s.rows ∧ t.gone = s.gone
  | .filter j isFilter => s.table.filter (cs.type j) (cs.name j) isFilter = some t.table ∧ t.rows = s.rows ∧
      t.gone = s.gone ++ (s.table.idx.list.filter (fun a => a ∉ t.table.idx.list)).map Int.toNat

def Step (s t : History El cs) : Prop := ∃ op, Allowed s op ∧ Does s t op

end Steps

/-- Row numbers are ints: `2 ^ 31` rows, at most. -/
def Numbered (s : History El cs) : Prop := s.rows.length ≤ 2 ^ 31

/-- What an operation does to the rows shown. -/
def Effect (s t : History El cs) : Op El cs → Prop
  | .append _ _ => t.table.idx.list = s.table.idx.list ++ [(s.rows.length : Int)]
  | .removeRow i => t.table.idx.list = s.table.idx.list.eraseIdx i
  | .sortBy j comp => t.table.idx.list.Perm s.table.idx.list ∧ ∀ i k, i < k → ∀ x y,
      t.table.get (cs.type j) j i = some x → t.table.get (cs.type j) j k = some y → ¬ comp y x = true
  | .filter j isFilter => t.table.idx.list.Sublist s.table.idx.list ∧
      ∀ (m : Nat) row, (m : Int) ∈ s.table.idx.list → s.rows[m]? = some row → (m : Int) ∉ t.table.idx.list →
        isFilter (row j) = true

/-- What every operation keeps. -/
structure Inv (s : History El cs) : Prop where
  marks : s.table.idx.Marks s.rows.length
  names : ∀ j, s.table.getColumn (cs.name j) = some (j : Nat)
  columns : ∀ j, s.table.data (cs.type j) j = some (s.rows.map (fun row => row j))
  shown : ∀ m < s.rows.length, (m : Int) ∈ s.table.idx.list ↔ m ∉ s.gone
  gone : ∀ m ∈ s.gone, m < s.rows.length

section Kept

variable {s t : History El cs}

theorem Inv.read (h : Inv s) {i m : Nat} {row : Row El cs} (hi : s.table.idx.list[i]? = some (m : Int))
    (hm : s.rows[m]? = some row) (j : Fin cs.length) : s.table.get (cs.type j) j i = some (row j) := by
  rw [get_eq hi, getByIdx_eq (h.columns j), List.getElem?_map, hm]
  rfl

theorem Inv.row (h : Inv s) {a : Int} (ha : a ∈ s.table.idx.list) :
    ∃ (m : Nat) (row : Row El cs), a = m ∧ s.rows[m]? = some row := by
  obtain ⟨m, hm⟩ := Int.eq_ofNat_of_zero_le (h.marks.nonneg a ha)
  have hlt := h.marks.lt ha
  have hml : m < s.rows.length := by omega
  exact ⟨m, s.rows[m], hm, List.getElem?_eq_getElem hml⟩

/-- The list of indices alone has changed, and no row was appended. -/
theorem Inv.reindex (h : Inv s) (hk : Keeps s.table t.table) (hrows : t.rows = s.rows)
    (hmarks : t.table.idx.Marks s.rows.length)
    (hgone : ∀ m, m ∈ t.gone ↔ m ∈ s.gone ∨ (m : Int) ∈ s.table.idx.list ∧ (m : Int) ∉ t.table.idx.list)
    (hsub : ∀ a ∈ t.table.idx.list, a ∈ s.table.idx.list) : Inv t where
  marks := hrows ▸ hmarks
  names j := hk.getColumn.trans (h.names j)
  columns j := by rw [hk.data, hrows, h.columns j]
  shown m hm := by
    have hs := h.shown m (hrows ▸ hm)
    have ht := hsub m
    rw [hgone]
    tauto
  gone m hm := by
    rw [hrows]
    rcases (hgone m).1 hm with hm | hm
    · exact h.gone m hm
    · have hlt := h.marks.lt hm.1
      omega

theorem newIdx_of_lt {n : Nat} (hn : n < 2 ^ 31) : newIdx n = n :=
  Int.bmod_eq_of_le (by omega) (by omega)

theorem Inv.removeRow {i : Nat} (h : Inv s) (hd : s.table.removeRow i = some t.table) (hrows : t.rows = s.rows)
    (hgone : t.gone = s.gone ++ (s.table.idx.list[i]?.map Int.toNat).toList) :
    Inv t ∧ t.table.idx.list = s.table.idx.list.eraseIdx i := by
  obtain ⟨hkeeps, hr⟩ := removeRow_spec hd
  obtain ⟨hi, hlist⟩ := IdxList.removeRow_eq hr
  refine ⟨h.reindex hkeeps hrows (h.marks.removeRow hr) (fun m => ?_) (fun a ha => ?_), hlist⟩
  · obtain ⟨k, row, hk, hrow⟩ := h.row (List.getElem_mem hi)
    have hleft : ((m : Int) ∈ s.table.idx.list ∧ (m : Int) ∉ t.table.idx.list) ↔ m = k := by
      rw [hlist]
      constructor
      · intro ⟨hin, hout⟩
        obtain ⟨l, hl, he⟩ := List.getElem_of_mem hin
        by_contra hne
        refine hout (List.mem_eraseIdx_iff_getElem.2 ⟨l, hl, fun hli => ?_, he⟩)
        subst hli
        omega
      · intro hmk
        subst hmk
        refine ⟨hk ▸ List.getElem_mem hi, fun hin => ?_⟩
        obtain ⟨l, hl, hne, he⟩ := List.mem_eraseIdx_iff_getElem.1 hin
        exact hne ((List.Nodup.getElem_inj_iff h.marks.nodup).1 (he.trans hk.symm))
    rw [hgone, List.getElem?_eq_getElem hi, hk, hleft]
    simp
  · rw [hlist] at ha
    exact List.mem_of_mem_eraseIdx ha

theorem Inv.sortBy {j : Fin cs.length} {comp : El (cs.type j) → El (cs.type j) → Bool} (h : Inv s)
    (hd : s.table.SortBy (cs.type j) (cs.name j) comp t.table) (hrows : t.rows = s.rows) (hgone : t.gone = s.gone) :
    Inv t ∧ Effect s t (.sortBy j comp) := by
  obtain ⟨id, list, hcol, hperm, hsorted, ht⟩ := hd
  have hid : id = j := Option.some.inj (hcol.symm.trans (h.names j))
  subst hid
  have hkeeps : Keeps s.table t.table := by
    rw [ht]
    exact ⟨.refl _, .refl _, .refl _⟩
  have hlist : t.table.idx.list = list := by rw [ht]
  refine ⟨h.reindex hkeeps hrows ?_ (fun m => ?_) (fun a ha => ?_), ?_, fun i k hik x y hx hy => ?_⟩
  · rw [ht]
    exact h.marks.perm hperm
  · rw [hgone, hlist, hperm.mem_iff]
    tauto
  · rw [hlist] at ha
    exact hperm.mem_iff.1 ha
  · rw [hlist]
    exact hperm
  · rw [FeatureTable.get, hlist, Option.bind_eq_bind, Option.bind_eq_some_iff] at hx hy
    obtain ⟨a, ha, hx⟩ := hx
    obtain ⟨b, hb, hy⟩ := hy
    obtain ⟨hil, he⟩ := List.getElem?_eq_some_iff.1 ha
    obtain ⟨hkl, he'⟩ := List.getElem?_eq_some_iff.1 hb
    rw [hkeeps.getByIdx] at hx hy
    have hord := List.pairwise_iff_getElem.1 hsorted i k hil hkl hik
    rw [he, he'] at hord
    exact hord x y hx hy

theorem Inv.filter {j : Fin cs.length} {isFilter : El (cs.type j) → Bool} (h : Inv s)
    (hd : s.table.filter (cs.type j) (cs.name j) isFilter = some t.table) (hrows : t.rows = s.rows)
    (hgone : t.gone = s.gone ++ (s.table.idx.list.filter (fun a => a ∉ t.table.idx.list)).map Int.toNat) :
    Inv t ∧ Effect s t (.filter j isFilter) := by
  rw [FeatureTable.filter, h.names j] at hd
  have hf : Filtered (cs.type j) j isFilter s.table t.table := filterFrom_spec hd
  refine ⟨h.reindex hf.keeps hrows (hf.marks _ h.marks) (fun m => ?_) hf.sublist.subset,
    hf.sublist, fun m row hin hrow hout => ?_⟩
  · rw [hgone, List.mem_append, List.mem_map]
    refine or_congr_right ⟨fun ⟨a, ha, he⟩ => ?_, fun hm => ⟨m, by simpa using hm, Int.toNat_natCast m⟩⟩
    rw [List.mem_filter, decide_eq_true_eq] at ha
    have h0 := h.marks.nonneg a ha.1
    have hma : (m : Int) = a := by omega
    rwa [hma]
  · obtain ⟨v, hv, hfv⟩ := hf.taken m hin hout
    rw [getByIdx_eq (h.columns j), List.getElem?_map, hrow] at hv
    cases hv
    exact hfv

theorem Inv.append [DecidableEq Ty] {order : List (Fin cs.length)} (h : Inv s) (row : Row El cs)
    (hall : order.Perm (List.finRange cs.length) ∧ order ≠ []) (hsmall : s.rows.length < 2 ^ 31) :
    ∃ table, s.table.appendRow row order = some table ∧ Inv ⟨table, s.rows ++ [row], s.gone⟩ ∧
      table.idx.list = s.table.idx.list ++ [(s.rows.length : Int)] := by
  have hmem : ∀ j, j ∈ order := fun j => hall.1.mem_iff.2 (List.mem_finRange j)
  obtain ⟨table, hr, hidx, hcol, hname, hdata⟩ := appendRow_eq row (n := s.rows.length)
    (hall.1.nodup_iff.2 (List.nodup_finRange _)) (fun j _ => ⟨_, h.columns j, List.length_map _⟩)
  rw [if_neg hall.2, newIdx_of_lt hsmall] at hidx
  obtain ⟨hlist, hmarks⟩ := h.marks.addIdx
  rw [← hidx] at hlist hmarks
  refine ⟨table, hr, ⟨?_, fun j => ?_, fun j => ?_, fun m hm => ?_, fun m hm => ?_⟩, hlist⟩
  · rw [List.length_append]
    exact hmarks
  · have hn := h.names j
    rw [getColumn] at hn ⊢
    rw [hcol, hname, hn]
  · rw [hdata j, if_pos (hmem j), h.columns j]
    simp
  · rw [List.length_append, List.length_singleton] at hm
    rw [hlist, List.mem_append, List.mem_singleton]
    by_cases he : m = s.rows.length
    · have hn : m ∉ s.gone := fun hg => absurd (h.gone m hg) (by omega)
      simp [he, he ▸ hn]
    · have hne : (m : Int) ≠ s.rows.length := by omega
      rw [or_iff_left hne]
      exact h.shown m (by omega)
  · rw [List.length_append]
    exact (h.gone m hm).trans (Nat.lt_succ_self _)

theorem Inv.start [DecidableEq Ty] (h : Start s) : Inv s := by
  obtain ⟨hnd, featureSize, hle, hc, hrows, hgone⟩ := h
  obtain ⟨table, hc', hcreated⟩ : ∃ table, (make featureSize : FeatureTable Ty El).createAll cs = some table ∧
      Created featureSize cs table := createAll_make hnd hle
  have he : table = s.table := Option.some.inj (hc'.symm.trans hc)
  subst he
  refine ⟨?_, fun j => ?_, fun j => ?_, fun m hm => ?_, fun m hm => ?_⟩
  · rw [hcreated.idx, hrows]
    exact ⟨List.nodup_nil, by simp, by simp, le_refl _, by simp⟩
  · rw [getColumn, hcreated.names j]
    simp [hcreated.ids j j.isLt]
  · rw [hcreated.vectors j, hrows]
    rfl
  · simp [hrows] at hm
  · simp [hgone] at hm

theorem Inv.step [DecidableEq Ty] {op : Op El cs} (h : Inv s) (ha : Allowed s op) (hd : Does s t op)
    (hn : Numbered t) : Inv t ∧ Effect s t op := by
  cases op with
  | append row order =>
    obtain ⟨hr, hrows, hgone⟩ := hd
    have hsmall : s.rows.length < 2 ^ 31 := by
      rw [Numbered, hrows, List.length_append, List.length_singleton] at hn
      omega
    obtain ⟨table, hr', hinv, hlist⟩ := h.append row ha hsmall
    have he : table = t.table := Option.some.inj (hr'.symm.trans hr)
    subst he
    have ht : t = ⟨t.table, s.rows ++ [row], s.gone⟩ := by rw [← hrows, ← hgone]
    exact ⟨ht ▸ hinv, hlist⟩
  | removeRow i => exact h.removeRow hd.1 hd.2.1 hd.2.2
  | sortBy j comp => exact h.sortBy hd.1 hd.2.1 hd.2.2
  | filter j isFilter => exact h.filter hd.1 hd.2.1 hd.2.2

theorem Inv.reachable [DecidableEq Ty] (h : Reachable Start (Within Step Numbered) s) : Inv s :=
  h.invariant (fun _ hs => .start hs) (fun _ _ _ hi hs => by
    obtain ⟨⟨op, ha, hd⟩, hn⟩ := hs
    exact (hi.step ha hd hn).1)

/-- The bounds under which an operation has a result. -/
def Fits (s : History El cs) : Op El cs → Prop
  | .append _ _ => s.rows.length < 2 ^ 31
  | .filter _ _ => s.table.rowSize < 2 ^ 31
  | _ => True

/-- Not before, for readings that need not be there. -/
def leBy {α : Type} (comp : α → α → Bool) : Option α → Option α → Bool
  | some x, some y => !comp y x
  | none, _ => true
  | some _, none => false

theorem leBy_trans {α : Type} {comp : α → α → Bool} [IsStrictWeakOrder α (fun x y => comp x y = true)]
    (a b c : Option α) (hab : leBy comp a b = true) (hbc : leBy comp b c = true) : leBy comp a c = true := by
  cases a with
  | none => rfl
  | some x =>
    cases b with
    | none => simp [leBy] at hab
    | some y =>
      cases c with
      | none => simp [leBy] at hbc
      | some z =>
        simp only [leBy, Bool.not_eq_true', Bool.eq_false_iff] at hab hbc ⊢
        intro hzx
        have htrans : ∀ u v w, comp u v = true → comp v w = true → comp u w = true :=
          fun u v w => trans_of (fun x y => comp x y = true)
        have hxy : ¬ comp x y = true := fun hlt => hbc (htrans z x y hzx hlt)
        have hyz : ¬ comp y z = true := fun hlt => hab (htrans y z x hlt hzx)
        have hweak : IsStrictWeakOrder α (fun x y => comp x y = true) := inferInstance
        exact (hweak.incomp_trans x y z ⟨hxy, hab⟩ ⟨hyz, hbc⟩).2 hzx

theorem leBy_total {α : Type} {comp : α → α → Bool} [IsStrictWeakOrder α (fun x y => comp x y = true)]
    (a b : Option α) : (leBy comp a b || leBy comp b a) = true := by
  cases a with
  | none => rfl
  | some x =>
    cases b with
    | none => rfl
    | some y =>
      simp only [leBy, Bool.or_eq_true, Bool.not_eq_true', Bool.eq_false_iff]
      by_contra hno
      push Not at hno
      have htrans : comp y y = true := trans_of (fun x y => comp x y = true) hno.1 hno.2
      exact irrefl_of (fun x y => comp x y = true) y htrans

theorem Inv.sorts {j : Fin cs.length} (h : Inv s) (comp : El (cs.type j) → El (cs.type j) → Bool)
    [IsStrictWeakOrder _ (fun x y => comp x y = true)] :
    ∃ table, s.table.SortBy (cs.type j) (cs.name j) comp table := by
  set le : Int → Int → Bool := fun a b =>
    leBy comp (s.table.getByIdx (cs.type j) j a) (s.table.getByIdx (cs.type j) j b) with hle
  have hsorted : (s.table.idx.list.mergeSort le).Pairwise (fun a b => le a b = true) :=
    List.pairwise_mergeSort (fun a b c => leBy_trans _ _ _) (fun a b => leBy_total _ _) s.table.idx.list
  refine ⟨_, j, _, h.names j, List.mergeSort_perm _ _, hsorted.imp (fun {a b} hab x y hx hy => ?_), rfl⟩
  simp only [hle, hx, hy, leBy] at hab
  simpa using hab

theorem Inv.returns [DecidableEq Ty] {op : Op El cs} (h : Inv s) (ha : Allowed s op) (hf : Fits s op) :
    ∃ t, Does s t op := by
  cases op with
  | append row order =>
    obtain ⟨table, hr, _, _⟩ := h.append row ha hf
    exact ⟨⟨table, _, _⟩, hr, rfl, rfl⟩
  | removeRow i =>
    obtain ⟨table, hr⟩ := removeRow_of_lt ha
    exact ⟨⟨table, _, _⟩, hr, rfl, rfl⟩
  | sortBy j comp =>
    have hc : IsStrictWeakOrder _ (fun x y => comp x y = true) := ha
    obtain ⟨table, hr⟩ := h.sorts comp
    exact ⟨⟨table, _, _⟩, hr, rfl, rfl⟩
  | filter j isFilter =>
    obtain ⟨table, hr⟩ := filterFrom_returns isFilter (h.columns j)
      (fun a ha => ⟨h.marks.nonneg a ha, by rw [List.length_map]; exact h.marks.lt ha⟩) hf
      (show s.table.rowSize < s.table.rowSize + 1 + 0 by omega) (Nat.succ_pos _)
    refine ⟨⟨table, s.rows, s.gone ++ (s.table.idx.list.filter (fun a => a ∉ table.idx.list)).map Int.toNat⟩,
      ?_, rfl, rfl⟩
    rw [FeatureTable.filter, h.names j]
    exact hr

end Kept

variable [DecidableEq Ty]

section Examples

abbrev Uid : Unit → Type := fun _ => Int

end Examples

end FeatureTable

end Wizard
