import Wizard.HazptrUsage

/-! How many records there are. Without the thread caches a holder takes any record that
is not active. With them it takes a record of the cache of its thread or a new one, so
what a full cache turns away, or a thread leaves behind, is never used again. -/

namespace Wizard.Hazptr

variable {Obj Rec Cell Holder Tid : Type*} {s s' : State Obj Rec Cell Holder Tid} {list : List Rec} {t : Tid}

/-- Not giving up records. -/
def Act.calm : Act Obj Rec Cell Holder → Bool
  | .dropCached _ | .exited | .releaseRecord _ => false
  | _ => true

/-- Inside `new HazptrRecord` up to the push. -/
def Act.making : Act Obj Rec Cell Holder → Bool
  | .newRecord _ | .pushRecord _ _ => true
  | _ => false

/-- What holds without the caches. A record that the search has passed is active. -/
structure Shared (s : State Obj Rec Cell Holder Tid) (list : List Rec) (peak : Nat) : Prop where
  pool : ∀ t, s.pool t = []
  used : ∀ r ∈ list, s.active r = true → ∃ u, Uses s r u
  passed : ∀ t x rec, (s.thread t).act = .loadActive x rec ∨ (s.thread t).act = .casActive x rec →
    ∃ pre post, list = pre ++ rec :: post ∧ ∀ q ∈ pre, s.active q = true
  length : list.length ≤ peak
  room : ∀ t, (s.thread t).act.making = true → list.length + 1 ≤ peak

/-- What holds with the caches: no record is lost. -/
structure Kept (s : State Obj Rec Cell Holder Tid) (list : List Rec) (running : Finset Tid) : Prop where
  used : ∀ r ∈ list, ∃ u, Uses s r u
  drained : ∀ t rest, (s.thread t).act = .dropCached rest → rest = [] ∧ s.pool t = []
  cached : ∀ t, (s.pool t).length ≤ recordCacheSize
  running : ∀ t, s.pool t ≠ [] → t ∈ running
  released : ∀ t rec, (s.thread t).act ≠ .releaseRecord rec

/-- `_hazptr_count` follows the list. -/
structure Tracked (s : State Obj Rec Cell Holder Tid) (list : List Rec) : Prop where
  low : -2 ^ 31 ≤ s.hazptrCount
  count : s.hazptrCount ≤ list.length
  pending : ∀ t x r, (s.thread t).act = .countRecord x r → s.hazptrCount + 1 ≤ list.length

variable {list' : List Rec} {peak peak' : Nat} {running : Finset Tid} {A : Finset Holder}

theorem holding_of_recs {a : Act Obj Rec Cell Holder} (h : a.recs ≠ []) : a.holding = true := by
  cases a <;> simp_all [Act.recs, Act.holding]

theorem recs_of_holding {a : Act Obj Rec Cell Holder} (h : a.holding = false) : a.recs = [] := by
  by_contra hr
  rw [holding_of_recs hr] at h
  cases h

theorem gone_of_calm {a : Act Obj Rec Cell Holder} (h : a.calm = true) : a.gone = false := by
  cases a <;> simp_all [Act.calm, Act.gone]

theorem making_holding {a : Act Obj Rec Cell Holder} (h : a.making = true) : a.holding = true := by
  cases a <;> simp_all [Act.making, Act.holding]

section Invariants

variable [DecidableEq Rec] [DecidableEq Holder] [DecidableEq Tid]

theorem Tracked.step {useCache : Bool} (h : Tracked s list) (hs : ReuseStep useCache s s' list t list')
    (hother : ∀ u, u ≠ t → (s'.thread u).act = (s.thread u).act) (hseq : s.Sequential) : Tracked s' list' := by
  have hkeep : ∀ l : List Rec, list.length ≤ l.length → s'.hazptrCount = s.hazptrCount →
      (∀ x r, (s'.thread t).act = .countRecord x r → s.hazptrCount + 1 ≤ l.length) → Tracked s' l := by
    intro l hle hc ht
    have hlc : s.hazptrCount ≤ l.length := by
      have hh := h.count
      omega
    constructor
    · rw [hc]
      exact h.low
    · rw [hc]
      exact hlc
    · intro u x r hu
      rw [hc]
      by_cases hut : u = t
      · rw [hut] at hu
        exact ht x r hu
      · rw [hother u hut] at hu
        have hh := h.pending u x r hu
        omega
  cases hs with
  | push x rec hl h1 h2 h3 h4 ha ha' =>
    refine hkeep _ (by simp) h4 ?_
    intro y r _
    have hh := h.count
    simp only [List.length_cons]
    omega
  | count x rec hl h1 h2 h3 h4 ha ha' =>
    have hh := h.pending t x rec ha
    have hlow := h.low
    have hle : wrap (s.hazptrCount + 1) ≤ s.hazptrCount + 1 := wrap_le (by omega)
    constructor
    · rw [h4]
      exact le_wrap _
    · omega
    · intro u y r hu
      have hut : u ≠ t := by
        intro hut
        rw [hut, ha'] at hu
        cases hu
      rw [hother u hut] at hu
      exact absurd (hseq u t (by rw [hu]; rfl) (by rw [ha]; rfl)) hut
  | quiet hl h1 h2 h3 h4 ha ha' =>
    refine hkeep _ le_rfl h4 ?_
    intro x r hc
    rw [hc] at ha'
    cases ha'
  | search x o hl h1 h2 h3 h4 ha ha' =>
    refine hkeep _ le_rfl h4 ?_
    intro y r hc
    rw [ha'] at hc
    cases o <;> cases hc
  | release rec rest hl h1 h2 h3 h4 ha =>
    refine hkeep _ le_rfl h4 ?_
    intro y r hc
    rcases ha with ⟨-, ha'⟩ | ⟨-, ha'⟩ <;> rw [ha'] at hc <;> cases hc
  | attempt x rec hl h1 h2 h3 h4 ha ha' | claim x rec hl h1 h2 h3 h4 ha ha'
  | popCache x rec rest hl h1 hu hh hp h2 h3 h4 ha ha' | fresh x hl hu h1 h2 h3 h4 ha ha'
  | create x rec hl h1 hr h2 h3 h4 ha ha' | retry x rec hl h1 h2 h3 h4 ha ha'
  | destroy x rec hl hu hh h1 h2 h3 h4 ha ha' | cache x rec hl hu hh h1 h2 h3 h4 ha ha'
  | drain hl h1 h2 h3 h4 ha ha' | leave hl h1 h2 h3 h4 ha ha' =>
    refine hkeep _ le_rfl h4 ?_
    intro y r hc
    rw [ha'] at hc
    cases hc

omit [DecidableEq Rec] [DecidableEq Holder] [DecidableEq Tid] in
theorem uses_other (hother : ∀ u, u ≠ t → (s'.thread u).act = (s.thread u).act) {u : Tid} (hu : u ≠ t) {r : Rec}
    (h : Uses s r (.thread u)) : Uses s' r (.thread u) := by
  simp only [Uses] at h ⊢
  rw [hother u hu]
  exact h

omit [DecidableEq Rec] [DecidableEq Holder] [DecidableEq Tid] in
/-- Only the thread that moves and its cache have to be looked at. -/
theorem Kept.frame (h : Kept s list running) (hother : ∀ u, u ≠ t → (s'.thread u).act = (s.thread u).act)
    {running' : Finset Tid} (hr : ∀ u, u ≠ t → u ∈ running → u ∈ running')
    (ht : (s'.thread t).act.gone = false → t ∈ running') (hpool : ∀ u, u ≠ t → s'.pool u = s.pool u)
    (hused : ∀ r ∈ list', ∃ u, Uses s' r u)
    (hd : ∀ rest, (s'.thread t).act = .dropCached rest → rest = [] ∧ s'.pool t = [])
    (hc : (s'.pool t).length ≤ recordCacheSize) (hg : (s'.thread t).act.gone = true → s'.pool t = [])
    (hrel : ∀ rec, (s'.thread t).act ≠ .releaseRecord rec) : Kept s' list' running' := by
  constructor
  · exact hused
  · intro u rest hu
    by_cases hut : u = t
    · rw [hut] at hu ⊢
      exact hd rest hu
    · rw [hother u hut] at hu
      rw [hpool u hut]
      exact h.drained u rest hu
  · intro u
    by_cases hut : u = t
    · rw [hut]
      exact hc
    · rw [hpool u hut]
      exact h.cached u
  · intro u hu
    by_cases hut : u = t
    · rw [hut] at hu ⊢
      apply ht
      by_contra hgone
      rw [Bool.not_eq_false] at hgone
      exact hu (hg hgone)
    · rw [hpool u hut] at hu
      exact hr u hut (h.running u hu)
  · intro u rec hu
    by_cases hut : u = t
    · rw [hut] at hu
      exact hrel rec hu
    · rw [hother u hut] at hu
      exact h.released u rec hu

omit [DecidableEq Rec] [DecidableEq Holder] [DecidableEq Tid] in
theorem Kept.users (h : Kept s list running) (hother : ∀ u, u ≠ t → (s'.thread u).act = (s.thread u).act)
    (hh : ∀ x r, s.holder x = some r → ∃ u, Uses s' r u) (ht : ∀ r ∈ (s.thread t).act.recs, ∃ u, Uses s' r u)
    (hp : ∀ v, ∀ r ∈ s.pool v, ∃ u, Uses s' r u) : ∀ r ∈ list, ∃ u, Uses s' r u := by
  intro r hr
  obtain ⟨u, hu⟩ := h.used r hr
  cases u with
  | holder x => exact hh x r hu
  | pool v => exact hp v r hu
  | thread v =>
    by_cases hv : v = t
    · rw [hv] at hu
      exact ht r hu
    · exact ⟨_, uses_other hother hv hu⟩

/-- With the caches every record on the list has a user after the step. -/
theorem Kept.step (h : Kept s list running) (hrec : Records s list) (hs : ReuseStep true s s' list t list')
    (hother : ∀ u, u ≠ t → (s'.thread u).act = (s.thread u).act)
    (hkeep : ¬ Loses t s s') {running' : Finset Tid} (hr : ∀ u, u ≠ t → u ∈ running → u ∈ running')
    (ht : (s'.thread t).act.gone = false → t ∈ running') : Kept s' list' running' := by
  have hsameh : s'.holder = s.holder → ∀ x r, s.holder x = some r → ∃ u, Uses s' r u := by
    intro h2 x r hx
    exact ⟨.holder x, by rw [← h2] at hx; exact hx⟩
  have hsamep : s'.pool = s.pool → ∀ v, ∀ r ∈ s.pool v, ∃ u, Uses s' r u := by
    intro h3 v r hv
    exact ⟨.pool v, by rw [← h3] at hv; exact hv⟩
  have hpool : s'.pool = s.pool → ∀ u, u ≠ t → s'.pool u = s.pool u := fun h3 u _ => congrFun h3 u
  have hlen : s'.pool = s.pool → (s'.pool t).length ≤ recordCacheSize := by
    intro h3
    rw [h3]
    exact h.cached t
  have hrecs : ∀ {a : Act Obj Rec Cell Holder}, (s.thread t).act = a → a.recs = [] →
      ∀ r ∈ (s.thread t).act.recs, ∃ u, Uses s' r u := by
    intro a ha hnil r hr
    rw [ha, hnil] at hr
    cases hr
  have hgive : ∀ {x : Holder} {rec : Rec}, s.holder x = none → s'.holder = Function.update s.holder x (some rec) →
      ∀ y r, s.holder y = some r → ∃ u, Uses s' r u := by
    intro x rec hx h2 y r hy
    have hne : y ≠ x := by
      intro hyx
      rw [hyx, hx] at hy
      cases hy
    exact ⟨.holder y, by simpa [Uses, h2, hne] using hy⟩
  have hplain : ∀ {a : Act Obj Rec Cell Holder}, (s'.thread t).act = a → a.calm = true →
      (s'.pool t).length ≤ recordCacheSize → (∀ u, u ≠ t → s'.pool u = s.pool u) →
      (∀ r ∈ list', ∃ u, Uses s' r u) → Kept s' list' running' := by
    intro a ha hcalm hc hp hused
    refine h.frame hother hr ht hp hused ?_ hc ?_ ?_ <;> rw [ha]
    · rintro rest rfl
      cases hcalm
    · intro hg
      rw [gone_of_calm hcalm] at hg
      cases hg
    · rintro rec rfl
      cases hcalm
  cases hs with
  | quiet hl h1 h2 h3 h4 ha ha' =>
    have haside : ∀ {a : Act Obj Rec Cell Holder}, (s'.thread t).act = a → a.aside = true := by
      intro a haa
      rw [← haa]
      exact ha'
    refine h.frame hother hr ht (hpool h3) (h.users hother ?_ ?_ (hsamep h3)) ?_ (hlen h3) ?_ ?_
    · intro x r hx
      obtain ⟨x', hx'⟩ := h2 x r hx
      exact ⟨.holder x', hx'⟩
    · apply hrecs rfl (recs_of_holding ?_)
      simp only [Act.aside, Bool.and_eq_true, Bool.not_eq_true'] at ha
      exact ha.1
    · intro rest hd
      cases haside hd
    · intro hg
      simp only [Act.aside, Bool.and_eq_true, Bool.not_eq_true'] at ha'
      rw [ha'.2] at hg
      cases hg
    · intro rec hc
      cases haside hc
  | search x o hl h1 h2 h3 h4 ha ha' =>
    have hnil : (s.thread t).act.recs = [] := by
      rcases ha with ⟨ha, -⟩ | ⟨rec, ha | ha, -⟩ <;> rw [ha] <;> rfl
    refine hplain ha' ?_ (hlen h3) (hpool h3) (h.users hother (hsameh h2) (hrecs rfl hnil) (hsamep h3))
    cases o <;> rfl
  | attempt x rec hl h1 h2 h3 h4 ha ha' =>
    exact hplain ha' rfl (hlen h3) (hpool h3) (h.users hother (hsameh h2) (hrecs ha rfl) (hsamep h3))
  | claim x rec hl h1 h2 h3 h4 ha ha' =>
    have hx := hrec.act t
    rw [ha] at hx
    exact hplain ha' rfl (hlen h3) (hpool h3) (h.users hother (hgive hx.2 h2) (hrecs ha rfl) (hsamep h3))
  | popCache x rec rest hl h1 hu hh hp h2 h3 h4 ha ha' =>
    have hle := h.cached t
    rw [hp, List.length_cons] at hle
    have hpt : s'.pool t = rest := by rw [h3, Function.update_self]
    refine hplain ha' rfl (by rw [hpt]; omega) ?_ (h.users hother (hgive hh h2) (hrecs ha rfl) ?_)
    · intro u hu
      rw [h3, Function.update_of_ne hu]
    · intro v r hr
      by_cases hv : v = t
      · rw [hv, hp] at hr
        rcases List.mem_cons.1 hr with rfl | hr
        · exact ⟨.holder x, by simp [Uses, h2]⟩
        · exact ⟨.pool t, by simpa [Uses, hpt] using hr⟩
      · exact ⟨.pool v, by simpa [Uses, h3, hv] using hr⟩
  | fresh x hl hu h1 h2 h3 h4 ha ha' =>
    exact hplain ha' rfl (hlen h3) (hpool h3) (h.users hother (hsameh h2) (hrecs ha rfl) (hsamep h3))
  | create x rec hl h1 hr h2 h3 h4 ha ha' =>
    exact hplain ha' rfl (hlen h3) (hpool h3) (h.users hother (hsameh h2) (hrecs ha rfl) (hsamep h3))
  | push x rec hl h1 h2 h3 h4 ha ha' =>
    have hself : ∃ u, Uses s' rec u := ⟨.thread t, by simp [Uses, ha', Act.recs]⟩
    refine hplain ha' rfl (hlen h3) (hpool h3) ?_
    intro r hr
    rcases List.mem_cons.1 hr with rfl | hr
    · exact hself
    · refine h.users hother (hsameh h2) ?_ (hsamep h3) r hr
      intro q hq
      rw [ha] at hq
      rw [List.mem_singleton.1 hq]
      exact hself
  | retry x rec hl h1 h2 h3 h4 ha ha' =>
    refine hplain ha' rfl (hlen h3) (hpool h3) (h.users hother (hsameh h2) ?_ (hsamep h3))
    intro q hq
    rw [ha] at hq
    exact ⟨.thread t, by simpa [Uses, ha', Act.recs] using hq⟩
  | count x rec hl h1 h2 h3 h4 ha ha' =>
    have hx := hrec.act t
    rw [ha] at hx
    refine hplain ha' rfl (hlen h3) (hpool h3) (h.users hother (hgive hx.2 h2) ?_ (hsamep h3))
    intro q hq
    rw [ha] at hq
    exact ⟨.holder x, by simp [Uses, h2, List.mem_singleton.1 hq]⟩
  | destroy x rec hl hu hh h1 h2 h3 h4 ha ha' => cases hu
  | cache x rec hl hu hh h1 h2 h3 h4 ha ha' =>
    have hroom : (s.pool t).length < recordCacheSize := by
      by_contra hfull
      refine hkeep (.inl ⟨⟨x, ?_, ?_⟩, by omega⟩)
      · rw [hh]
        simp
      · simp [h2]
    rw [if_pos hroom] at h3
    have hpt : s'.pool t = rec :: s.pool t := by rw [h3, Function.update_self]
    refine hplain ha' rfl (by rw [hpt]; simpa using hroom) ?_ (h.users hother ?_ (hrecs ha rfl) ?_)
    · intro u hu
      rw [h3, Function.update_of_ne hu]
    · intro y r hy
      by_cases hyx : y = x
      · rw [hyx, hh] at hy
        exact ⟨.pool t, by simp [Uses, hpt, Option.some.inj hy]⟩
      · exact ⟨.holder y, by simpa [Uses, h2, hyx] using hy⟩
    · intro v r hr
      by_cases hv : v = t
      · rw [hv] at hr
        exact ⟨.pool t, by simp [Uses, hpt, hr]⟩
      · exact ⟨.pool v, by simpa [Uses, h3, hv] using hr⟩
  | release rec rest hl h1 h2 h3 h4 ha =>
    rcases ha with ⟨ha, -⟩ | ⟨ha, -⟩
    · exact absurd ha (h.released t rec)
    · cases (h.drained t _ ha).1
  | drain hl h1 h2 h3 h4 ha ha' =>
    have hnil : s.pool t = [] := by
      by_contra hne
      exact hkeep (.inr ⟨by rw [ha']; rfl, hne⟩)
    have hpt : s'.pool = s.pool := by rw [h3, ← hnil, Function.update_eq_self]
    refine h.frame hother hr ht (hpool hpt) (h.users hother (hsameh h2) (hrecs rfl ?_) (hsamep hpt)) ?_ (hlen hpt) ?_ ?_
    · apply recs_of_holding
      simp only [Act.aside, Bool.and_eq_true, Bool.not_eq_true'] at ha
      exact ha.1
    · intro rest hd
      rw [ha', hnil] at hd
      exact ⟨(Act.dropCached.inj hd).symm, by rw [hpt, hnil]⟩
    · intro hg
      rw [ha'] at hg
      cases hg
    · intro rec hc
      rw [ha'] at hc
      cases hc
  | leave hl h1 h2 h3 h4 ha ha' =>
    refine h.frame hother hr ht (hpool h3) (h.users hother (hsameh h2) (hrecs ha rfl) (hsamep h3)) ?_ (hlen h3) ?_ ?_
    · intro rest hd
      rw [ha'] at hd
      cases hd
    · intro _
      rw [h3]
      exact (h.drained t [] ha).2
    · intro rec hc
      rw [ha'] at hc
      cases hc

omit [DecidableEq Rec] [DecidableEq Holder] [DecidableEq Tid] in
theorem Shared.users (h : Shared s list peak) (hother : ∀ u, u ≠ t → (s'.thread u).act = (s.thread u).act)
    {r : Rec} (hr : r ∈ list) (ha : s.active r = true) (hh : ∀ x, s.holder x = some r → ∃ u, Uses s' r u)
    (ht : r ∈ (s.thread t).act.recs → ∃ u, Uses s' r u) : ∃ u, Uses s' r u := by
  obtain ⟨u, hu⟩ := h.used r hr ha
  cases u with
  | holder x => exact hh x hu
  | pool v =>
    have hv : r ∈ s.pool v := hu
    rw [h.pool v] at hv
    cases hv
  | thread v =>
    by_cases hv : v = t
    · rw [hv] at hu
      exact ht hu
    · exact ⟨_, uses_other hother hv hu⟩

omit [DecidableEq Rec] [DecidableEq Holder] [DecidableEq Tid] in
/-- While one thread is at work on the records nobody else searches them. -/
theorem Shared.frame (h : Shared s list peak) (hother : ∀ u, u ≠ t → (s'.thread u).act = (s.thread u).act)
    (hseq : s.Sequential) (hp : peak ≤ peak') (hpool : ∀ u, s'.pool u = [])
    (hused : ∀ r ∈ list', s'.active r = true → ∃ u, Uses s' r u)
    (hself : ∀ x rec, (s'.thread t).act = .loadActive x rec ∨ (s'.thread t).act = .casActive x rec →
      ∃ pre post, list' = pre ++ rec :: post ∧ ∀ q ∈ pre, s'.active q = true)
    (hlen : list'.length ≤ peak') (hroom : (s'.thread t).act.making = true → list'.length + 1 ≤ peak')
    (hkeep : (s.thread t).act.holding = true ∨ list' = list ∧ s'.active = s.active) : Shared s' list' peak' := by
  have hcase : ∀ u, u ≠ t → (s.thread u).act.holding = true → list' = list ∧ s'.active = s.active := by
    intro u hut hu
    rcases hkeep with ht | hk
    · exact absurd (hseq u t hu ht) hut
    · exact hk
  constructor
  · exact hpool
  · exact hused
  · intro u x rec hu
    by_cases hut : u = t
    · rw [hut] at hu
      exact hself x rec hu
    · rw [hother u hut] at hu
      have hold : (s.thread u).act.holding = true := by rcases hu with hu | hu <;> rw [hu] <;> rfl
      obtain ⟨rfl, hact⟩ := hcase u hut hold
      rw [hact]
      exact h.passed u x rec hu
  · exact hlen
  · intro u hu
    by_cases hut : u = t
    · rw [hut] at hu
      exact hroom hu
    · rw [hother u hut] at hu
      obtain ⟨rfl, -⟩ := hcase u hut (making_holding hu)
      have hh := h.room u hu
      omega

omit [DecidableEq Rec] [DecidableEq Tid] in
/-- When all records are active and `x` is about to make a new one, each of them has a
holder other than `x`. -/
theorem room_of_active (hrec : Records s list) (hseq : s.Sequential) (hpool : ∀ u, s.pool u = [])
    (hA : ∀ h, h ∈ A ↔ s.Alive h) {x : Holder} (ha : (s.thread t).act = .newRecord x)
    (hused : ∀ r ∈ list, ∃ u, Uses s r u) : list.length + 1 ≤ A.card := by
  have hx := hrec.act t
  rw [ha] at hx
  have hxA : x ∈ A := (hA x).2 (.inr ⟨t, by rw [ha]; rfl⟩)
  have hlen : list.length ≤ (A.erase x).card := by
    apply length_le_card hrec.linked.nodup (r := fun y r => s.holder y = some r)
    · intro y r r' hr hr'
      rw [hr] at hr'
      exact Option.some.inj hr'
    · intro r hr
      obtain ⟨u, hu⟩ := hused r hr
      cases u with
      | holder y =>
        have hy : s.holder y = some r := hu
        refine ⟨y, Finset.mem_erase.2 ⟨?_, (hA y).2 (.inl (by rw [hy]; simp))⟩, hy⟩
        intro hyx
        rw [hyx, hx] at hy
        cases hy
      | pool v =>
        have hv : r ∈ s.pool v := hu
        rw [hpool v] at hv
        cases hv
      | thread v =>
        have hv : r ∈ (s.thread v).act.recs := hu
        rw [hseq v t (holding_of_recs (List.ne_nil_of_mem hv)) (by rw [ha]; rfl), ha] at hv
        cases hv
  have hc := Finset.card_erase_add_one hxA
  omega

theorem Shared.step (h : Shared s list peak) (hrec : Records s list) (hrec' : Records s' list')
    (hs : ReuseStep false s s' list t list') (hother : ∀ u, u ≠ t → (s'.thread u).act = (s.thread u).act)
    (hseq : s.Sequential) (hseq' : s'.Sequential) (hA : ∀ h, h ∈ A ↔ s'.Alive h) (hp : peak ≤ peak')
    (hA' : A.card ≤ peak') : Shared s' list' peak' := by
  have hlen := h.length.trans hp
  have hsameh : s'.holder = s.holder → ∀ r x, s.holder x = some r → ∃ u, Uses s' r u := by
    intro h2 r x hx
    exact ⟨.holder x, by rw [← h2] at hx; exact hx⟩
  have hsamep : s'.pool = s.pool → ∀ u, s'.pool u = [] := by
    intro h3 u
    rw [h3]
    exact h.pool u
  have hgive : ∀ {x : Holder} {rec : Rec}, s.holder x = none → s'.holder = Function.update s.holder x (some rec) →
      ∀ r y, s.holder y = some r → ∃ u, Uses s' r u := by
    intro x rec hx h2 r y hy
    have hne : y ≠ x := by
      intro hyx
      rw [hyx, hx] at hy
      cases hy
    exact ⟨.holder y, by simpa [Uses, h2, hne] using hy⟩
  have hnot : ∀ {a : Act Obj Rec Cell Holder}, (s'.thread t).act = a → a.constructs = none →
      ∀ x rec, (s'.thread t).act = .loadActive x rec ∨ (s'.thread t).act = .casActive x rec →
      ∃ pre post, list' = pre ++ rec :: post ∧ ∀ q ∈ pre, s'.active q = true := by
    intro a ha hc x rec hx
    rcases hx with hx | hx <;> rw [← ha, hx] at hc <;> cases hc
  have hmake : ∀ {a : Act Obj Rec Cell Holder}, (s'.thread t).act = a → a.making = false →
      (s'.thread t).act.making = true → list'.length + 1 ≤ peak' := by
    intro a ha hm hm'
    rw [ha, hm] at hm'
    cases hm'
  cases hs with
  | quiet hl h1 h2 h3 h4 ha ha' =>
    have hold : (s.thread t).act.holding = false := by
      simp only [Act.aside, Bool.and_eq_true, Bool.not_eq_true'] at ha
      exact ha.1
    have hold' : (s'.thread t).act.holding = false := by
      simp only [Act.aside, Bool.and_eq_true, Bool.not_eq_true'] at ha'
      exact ha'.1
    refine h.frame hother hseq hp (hsamep h3) ?_ ?_ hlen ?_ (.inr ⟨rfl, h1⟩)
    · intro r hr hact
      rw [h1] at hact
      refine h.users hother hr hact ?_ ?_
      · intro x hx
        obtain ⟨x', hx'⟩ := h2 x r hx
        exact ⟨.holder x', hx'⟩
      · intro ht
        rw [recs_of_holding hold] at ht
        cases ht
    · intro x rec hx
      rcases hx with hx | hx <;> rw [hx] at hold' <;> cases hold'
    · intro hm
      rw [making_holding hm] at hold'
      cases hold'
  | search x o hl h1 h2 h3 h4 ha ha' =>
    have hnil : (s.thread t).act.recs = [] := by
      rcases ha with ⟨ha, -⟩ | ⟨rec, ha | ha, -⟩ <;> rw [ha] <;> rfl
    have hused : ∀ r ∈ list, s'.active r = true → ∃ u, Uses s' r u := by
      intro r hr hact
      rw [h1] at hact
      refine h.users hother hr hact (hsameh h2 r) ?_
      intro ht
      rw [hnil] at ht
      cases ht
    -- the records before the one the search has come to
    have hprefix : ∃ pre post, list = pre ++ post ∧ o = post.head? ∧ ∀ q ∈ pre, s'.active q = true := by
      rw [h1]
      rcases ha with ⟨-, ho⟩ | ⟨rec, ha, hact, ho⟩
      · refine ⟨[], list, rfl, ?_, by simp⟩
        rw [ho]
        have hlist := hrec.linked
        cases list with
        | nil => exact hlist
        | cons r l => exact hlist.1
      · obtain ⟨pre, post, rfl, hpre⟩ := h.passed t x rec ha
        refine ⟨pre ++ [rec], post, by simp, ho.trans hrec.linked.next_eq_head?, ?_⟩
        intro q hq
        rcases List.mem_append.1 hq with hq | hq
        · exact hpre q hq
        · rw [List.mem_singleton.1 hq]
          exact hact
    obtain ⟨pre, post, hsplit, ho, hpre⟩ := hprefix
    refine h.frame hother hseq hp (hsamep h3) hused ?_ hlen ?_ (.inr ⟨rfl, h1⟩)
    · intro y rec hy
      rw [ha'] at hy
      cases post with
      | nil =>
        rw [ho] at hy
        rcases hy with hy | hy <;> cases hy
      | cons r post =>
        rw [ho] at hy
        have hyr : r = rec := by
          rcases hy with hy | hy
          · exact (Act.loadActive.inj hy).2
          · cases hy
        rw [← hyr]
        exact ⟨pre, post, hsplit, hpre⟩
    · intro hm
      cases post with
      | cons r post =>
        rw [ha', ho] at hm
        cases hm
      | nil =>
        rw [ho] at ha'
        rw [List.append_nil] at hsplit
        have hroom := room_of_active hrec' hseq' (hsamep h3) hA ha' (fun r hr => hused r hr (hpre r (hsplit ▸ hr)))
        omega
  | attempt x rec hl h1 h2 h3 h4 ha ha' =>
    refine h.frame hother hseq hp (hsamep h3) ?_ ?_ hlen (hmake ha' rfl) (.inr ⟨rfl, h1⟩)
    · intro r hr hact
      rw [h1] at hact
      refine h.users hother hr hact (hsameh h2 r) ?_
      intro ht
      rw [ha] at ht
      cases ht
    · intro y r hy
      rw [ha'] at hy
      rw [h1]
      have hyr : rec = r := by
        rcases hy with hy | hy
        · cases hy
        · exact (Act.casActive.inj hy).2
      rw [← hyr]
      exact h.passed t x rec (.inl ha)
  | claim x rec hl h1 h2 h3 h4 ha ha' =>
    have hx := hrec.act t
    rw [ha] at hx
    refine h.frame hother hseq hp (hsamep h3) ?_ (hnot ha' rfl) hlen (hmake ha' rfl) (.inl (by rw [ha]; rfl))
    intro r hr hact
    by_cases hrr : r = rec
    · exact ⟨.holder x, by simp [Uses, h2, hrr]⟩
    · rw [h1, Function.update_of_ne hrr] at hact
      refine h.users hother hr hact (hgive hx.2 h2 r) ?_
      intro ht
      rw [ha] at ht
      cases ht
  | popCache x rec rest hl h1 hu => cases hu
  | fresh x hl hu => cases hu
  | create x rec hl h1 hr h2 h3 h4 ha ha' =>
    have hroom := h.room t (by rw [ha]; rfl)
    refine h.frame hother hseq hp (hsamep h3) ?_ ?_ hlen (fun _ => by omega) (.inl (by rw [ha]; rfl))
    · intro r hrl hact
      rw [h1, Function.update_of_ne (ne_of_mem_of_not_mem hrl hr)] at hact
      refine h.users hother hrl hact (hsameh h2 r) ?_
      intro ht
      rw [ha] at ht
      cases ht
    · intro y r hy
      rcases hy with hy | hy <;> rw [ha'] at hy <;> cases hy
  | push x rec hl h1 h2 h3 h4 ha ha' =>
    have hroom := h.room t (by rw [ha]; rfl)
    have hself : ∃ u, Uses s' rec u := ⟨.thread t, by simp [Uses, ha', Act.recs]⟩
    refine h.frame hother hseq hp (hsamep h3) ?_ ?_ ?_ (hmake ha' rfl) (.inl (by rw [ha]; rfl))
    · intro r hr hact
      rcases List.mem_cons.1 hr with rfl | hr
      · exact hself
      · rw [h1] at hact
        refine h.users hother hr hact (hsameh h2 r) ?_
        intro ht
        rw [ha] at ht
        rw [List.mem_singleton.1 ht]
        exact hself
    · intro y r hy
      rcases hy with hy | hy <;> rw [ha'] at hy <;> cases hy
    · simp only [List.length_cons]
      omega
  | retry x rec hl h1 h2 h3 h4 ha ha' =>
    have hroom := h.room t (by rw [ha]; rfl)
    refine h.frame hother hseq hp (hsamep h3) ?_ ?_ hlen (fun _ => by omega) (.inl (by rw [ha]; rfl))
    · intro r hr hact
      rw [h1] at hact
      refine h.users hother hr hact (hsameh h2 r) ?_
      intro ht
      rw [ha] at ht
      exact ⟨.thread t, by simpa [Uses, ha', Act.recs] using ht⟩
    · intro y r hy
      rcases hy with hy | hy <;> rw [ha'] at hy <;> cases hy
  | count x rec hl h1 h2 h3 h4 ha ha' =>
    have hx := hrec.act t
    rw [ha] at hx
    refine h.frame hother hseq hp (hsamep h3) ?_ (hnot ha' rfl) hlen (hmake ha' rfl) (.inl (by rw [ha]; rfl))
    intro r hr hact
    rw [h1] at hact
    refine h.users hother hr hact (hgive hx.2 h2 r) ?_
    intro ht
    rw [ha] at ht
    exact ⟨.holder x, by simp [Uses, h2, List.mem_singleton.1 ht]⟩
  | destroy x rec hl hu hh h1 h2 h3 h4 ha ha' =>
    refine h.frame hother hseq hp (hsamep h3) ?_ (hnot ha' rfl) hlen (hmake ha' rfl) (.inr ⟨rfl, h1⟩)
    intro r hr hact
    rw [h1] at hact
    refine h.users hother hr hact ?_ ?_
    · intro y hy
      by_cases hyx : y = x
      · rw [hyx, hh] at hy
        exact ⟨.thread t, by simp [Uses, ha', Act.recs, Option.some.inj hy]⟩
      · exact ⟨.holder y, by simpa [Uses, h2, hyx] using hy⟩
    · intro ht
      rw [ha] at ht
      cases ht
  | cache x rec hl hu => cases hu
  | release rec rest hl h1 h2 h3 h4 ha =>
    have hold : (s.thread t).act.holding = true := by
      rcases ha with ⟨ha, -⟩ | ⟨ha, -⟩ <;> rw [ha] <;> rfl
    refine h.frame hother hseq hp (hsamep h3) ?_ ?_ hlen ?_ (.inl hold)
    · intro r hr hact
      have hne : r ≠ rec := by
        intro hrr
        simp [h1, hrr] at hact
      rw [h1, Function.update_of_ne hne] at hact
      refine h.users hother hr hact (hsameh h2 r) ?_
      intro ht
      rcases ha with ⟨ha, -⟩ | ⟨ha, ha'⟩
      · rw [ha] at ht
        exact absurd (List.mem_singleton.1 ht) hne
      · rw [ha] at ht
        exact ⟨.thread t, by simpa [Uses, ha', Act.recs, hne] using ht⟩
    · intro y r hy
      rcases ha with ⟨-, ha'⟩ | ⟨-, ha'⟩ <;> rcases hy with hy | hy <;> rw [ha'] at hy <;> cases hy
    · intro hm
      rcases ha with ⟨-, ha'⟩ | ⟨-, ha'⟩ <;> rw [ha'] at hm <;> cases hm
  | drain hl h1 h2 h3 h4 ha ha' =>
    have hold : (s.thread t).act.holding = false := by
      simp only [Act.aside, Bool.and_eq_true, Bool.not_eq_true'] at ha
      exact ha.1
    refine h.frame hother hseq hp ?_ ?_ (hnot ha' rfl) hlen (hmake ha' rfl) (.inr ⟨rfl, h1⟩)
    · intro u
      rw [h3]
      by_cases hu : u = t
      · rw [hu, Function.update_self]
      · rw [Function.update_of_ne hu]
        exact h.pool u
    · intro r hr hact
      rw [h1] at hact
      refine h.users hother hr hact (hsameh h2 r) ?_
      intro ht
      rw [recs_of_holding hold] at ht
      cases ht
  | leave hl h1 h2 h3 h4 ha ha' =>
    refine h.frame hother hseq hp (hsamep h3) ?_ (hnot ha' rfl) hlen (hmake ha' rfl) (.inr ⟨rfl, h1⟩)
    intro r hr hact
    rw [h1] at hact
    refine h.users hother hr hact (hsameh h2 r) ?_
    intro ht
    rw [ha] at ht
    cases ht

omit [DecidableEq Rec] in
/-- Each record on the list has a holder or a place in the cache of a running thread. -/
theorem Kept.length_le (h : Kept s list running) (hrec : Records s list) (hA : ∀ h, h ∈ A ↔ s.Alive h) :
    list.length ≤ A.card + recordCacheSize * running.card := by
  let at_ : Holder ⊕ Tid × Nat → Rec → Prop := fun b r =>
    match b with
    | .inl x => s.holder x = some r ∨ ∃ t, (s.thread t).act = .countRecord x r
    | .inr p => (s.pool p.1)[p.2]? = some r
  have hbound : list.length ≤ (A.disjSum (running ×ˢ Finset.range recordCacheSize)).card := by
    apply length_le_card hrec.linked.nodup (r := at_)
    · have hmixed : ∀ {x r r' t}, s.holder x = some r → (s.thread t).act = .countRecord x r' → r = r' := by
        intro x r r' t hr ht
        have hx := hrec.act t
        rw [ht] at hx
        rw [hx.2] at hr
        cases hr
      rintro (x | p) r r' hr hr'
      · rcases hr with hr | ⟨t, ht⟩
        · rcases hr' with hr' | ⟨u, hu⟩
          · rw [hr] at hr'
            exact Option.some.inj hr'
          · exact hmixed hr hu
        · rcases hr' with hr' | ⟨u, hu⟩
          · exact (hmixed hr' ht).symm
          · have htu := hrec.busy t u x (by rw [ht]; rfl) (by rw [hu]; rfl)
            rw [htu, hu] at ht
            exact ((Act.countRecord.inj ht).2).symm
      · have hr₁ : (s.pool p.1)[p.2]? = some r := hr
        rw [show (s.pool p.1)[p.2]? = some r' from hr'] at hr₁
        exact (Option.some.inj hr₁).symm
    · intro r hr
      obtain ⟨u, hu⟩ := h.used r hr
      cases u with
      | holder x =>
        have hx : s.holder x = some r := hu
        refine ⟨.inl x, ?_, .inl hx⟩
        simp only [Finset.inl_mem_disjSum]
        exact (hA x).2 (.inl (by rw [hx]; simp))
      | pool t =>
        have hmem : r ∈ s.pool t := hu
        obtain ⟨i, hi⟩ := List.mem_iff_getElem?.1 hmem
        have hlt := (List.getElem?_eq_some_iff.1 hi).1
        have hle := h.cached t
        refine ⟨.inr (t, i), ?_, hi⟩
        simp only [Finset.inr_mem_disjSum, Finset.mem_product, Finset.mem_range]
        exact ⟨h.running t (List.ne_nil_of_mem hmem), by omega⟩
      | thread t =>
        have hmem : r ∈ (s.thread t).act.recs := hu
        cases ha : (s.thread t).act with
        | countRecord x rec =>
          rw [ha] at hmem
          rw [List.mem_singleton.1 hmem]
          refine ⟨.inl x, ?_, .inr ⟨t, ha⟩⟩
          simp only [Finset.inl_mem_disjSum]
          exact (hA x).2 (.inr ⟨t, by rw [ha]; rfl⟩)
        | pushRecord x rec =>
          rw [ha] at hmem
          rw [List.mem_singleton.1 hmem] at hr
          exact absurd hr (hrec.fresh ha)
        | releaseRecord rec => exact absurd ha (h.released t rec)
        | dropCached rest =>
          rw [ha, (h.drained t rest ha).1] at hmem
          cases hmem
        | _ =>
          rw [ha] at hmem
          cases hmem
  rw [Finset.card_disjSum, Finset.card_product, Finset.card_range, Nat.mul_comm] at hbound
  exact hbound

end Invariants

structure Reused (useCache : Bool) (a : Usage Obj Rec Cell Holder Tid) (list : List Rec) : Prop where
  records : Records a.base list
  alive : ∀ h, h ∈ a.alive ↔ a.base.Alive h
  peak : a.alive.card ≤ a.peak
  sequential : a.base.Sequential
  tracked : Tracked a.base list
  shared : useCache = false → Shared a.base list a.peak
  kept : useCache = true → Kept a.base list a.running

section Runs

variable [DecidableEq Obj] [DecidableEq Rec] [DecidableEq Cell] [DecidableEq Holder] [DecidableEq Tid]
  {a b : Usage Obj Rec Cell Holder Tid}

theorem Reused.step {useCache : Bool} (h : Reused useCache a list) (hstep : ReusingStep useCache a b) :
    ∃ list', Reused useCache b list' := by
  obtain ⟨hseq, t, hmove, hkeep⟩ := hstep
  cases hmove with
  | start ha =>
    refine ⟨list, h.records, h.alive, h.peak, h.sequential, h.tracked, h.shared, fun hu => ?_⟩
    have hk := h.kept hu
    exact ⟨hk.used, hk.drained, hk.cached, fun u hu' => Finset.mem_insert_of_mem (hk.running u hu'), hk.released⟩
  | move s' A ht hs hA =>
    obtain ⟨list', hreuse, hrec'⟩ := reuse_step hs h.records
    have hother : ∀ u, u ≠ t → (s'.thread u).act = (a.base.thread u).act := by
      intro u hu
      rw [step_other hs hu]
    refine ⟨list', hrec', hA, le_max_right _ _, hseq, h.tracked.step hreuse hother h.sequential, fun hu => ?_,
      fun hu => ?_⟩
    · subst hu
      exact (h.shared rfl).step h.records hrec' hreuse hother h.sequential hseq hA (le_max_left _ _)
        (le_max_right _ _)
    · subst hu
      refine (h.kept rfl).step h.records hreuse hother (hkeep rfl) ?_ ?_
      · intro u hu hur
        show u ∈ if (s'.thread t).act.gone then a.running.erase t else a.running
        split
        · exact Finset.mem_erase.2 ⟨hu, hur⟩
        · exact hur
      · intro hg
        show t ∈ if (s'.thread t).act.gone then a.running.erase t else a.running
        rw [if_neg (by rw [hg]; simp)]
        exact ht

omit [DecidableEq Obj] [DecidableEq Rec] [DecidableEq Cell] [DecidableEq Holder] [DecidableEq Tid] in
theorem reused_init {useCache : Bool} (h : a.Init) : Reused useCache a [] := by
  have hact : ∀ t, (a.base.thread t).act = .client := by
    intro t
    rw [h.base.thread]
  constructor
  · exact records_init h.base
  · intro x
    rw [h.alive]
    simp [State.Alive, h.base.holder, hact, Act.constructs]
  · rw [h.alive, h.peak]
    rfl
  · intro t u ht
    rw [hact] at ht
    cases ht
  · constructor
    · simp [h.base.hazptrCount]
    · simp [h.base.hazptrCount]
    · intro t x r ht
      rw [hact] at ht
      cases ht
  · intro _
    constructor
    · exact h.base.pool
    · intro r hr
      cases hr
    · intro t x rec ht
      rw [hact] at ht
      rcases ht with ht | ht <;> cases ht
    · exact Nat.zero_le _
    · intro t ht
      rw [hact] at ht
      cases ht
  · intro _
    constructor
    · intro r hr
      cases hr
    · intro t rest ht
      rw [hact] at ht
      cases ht
    · intro t
      rw [h.base.pool]
      exact Nat.zero_le _
    · intro t ht
      exact absurd (h.base.pool t) ht
    · intro t rec ht
      rw [hact] at ht
      cases ht

/-- What the records are bounded by. -/
def Usage.bound (useCache : Bool) (a : Usage Obj Rec Cell Holder Tid) : Nat :=
  a.peak + if useCache then recordCacheSize * a.running.card else 0

/-- As long as no record is lost there are no more than holders at the peak and places in
the caches. -/
theorem records_reused {useCache : Bool} (ha : Reachable Usage.Init (ReusingStep useCache) a) :
    ∃ list, Segment a.base.recNext a.base.hazptrList list none ∧ list.length ≤ a.bound useCache ∧
      a.base.hazptrCount ≤ a.bound useCache := by
  have hinv : ∃ list, Reused useCache a list := by
    apply ha.invariant
    · intro a₀ h₀
      exact ⟨[], reused_init h₀⟩
    · rintro a₁ a₂ - ⟨list, h⟩ hstep
      exact h.step hstep
  obtain ⟨list, h⟩ := hinv
  have hle : list.length ≤ a.bound useCache := by
    cases useCache with
    | false => exact (h.shared rfl).length
    | true =>
      have hk := (h.kept rfl).length_le h.records h.alive
      have hp := h.peak
      simp only [Usage.bound, if_true]
      omega
  have hc := h.tracked.count
  exact ⟨list, h.records.linked, hle, by omega⟩

end Runs

section Growth

variable {σ σ' : State Unit Nat Unit Unit Nat} {A : Finset Unit} {p n : Nat} {running : Finset Nat} {t : Nat}

theorem exists_alive (σ : State Unit Nat Unit Unit Nat) :
    ∃ A : Finset Unit, (∀ h, h ∈ A ↔ σ.Alive h) ∧ A.card ≤ 1 := by
  classical
  refine ⟨Finset.univ.filter σ.Alive, by simp, ?_⟩
  exact (Finset.card_le_univ _).trans (by simp)

theorem sequential_of_idle (h : ∀ u, u ≠ t → (σ.thread u).act.holding = false) : σ.Sequential := by
  have hh : ∀ u, (σ.thread u).act.holding = true → u = t := by
    intro u hu
    by_contra hut
    rw [h u hut] at hu
    cases hu
  intro u v hu hv
  rw [hh u hu, hh v hv]

theorem advance {R : Usage Unit Nat Unit Unit Nat → Usage Unit Nat Unit Unit Nat → Prop}
    (hR : ∀ a b, a.base = σ → b.base = σ' → b.base.Sequential → Usage.Step true t a b → R a b)
    (h : Reachable Usage.Init R ⟨σ, running, A, p⟩) (hp : p ≤ 1) (ht : t ∈ running) (hs : Step true t σ σ')
    (hidle : ∀ u, u ≠ t → (σ'.thread u).act.holding = false) (hg : (σ'.thread t).act.gone = false) :
    ∃ A' p', p' ≤ 1 ∧ Reachable Usage.Init R ⟨σ', running, A', p'⟩ := by
  obtain ⟨A', hA', hc⟩ := exists_alive σ'
  have hmove := Usage.Step.move ⟨σ, running, A, p⟩ σ' A' ht hs hA'
  rw [hg] at hmove
  exact ⟨A', max p A'.card, max_le hp hc, h.tail (hR _ _ rfl rfl (sequential_of_idle hidle) hmove)⟩

theorem not_loses (hh : ∀ h, σ.holder h ≠ none → σ'.holder h ≠ none) (hd : (σ'.thread t).act.draining = false) :
    ¬ Loses t σ σ' := by
  rintro (⟨⟨h, h₁, h₂⟩, -⟩ | ⟨h₁, -⟩)
  · exact hh h h₁ h₂
  · rw [hd] at h₁
    cases h₁

/-- After `n` threads have each used one holder and ended. -/
structure Round (n : Nat) (σ : State Unit Nat Unit Unit Nat) : Prop where
  list : ∃ l, Segment σ.recNext σ.hazptrList l none ∧ l.length = n ∧ ∀ r ∈ l, r < n
  holder : σ.holder () = none
  fresh : ∀ r, n ≤ r → ¬ σ.allocated r
  next : ∀ t, n < t → σ.thread t = ⟨.client, [], false⟩ ∧ σ.privList t = .clear ∧ σ.pool t = []
  idle : ∀ t, (σ.thread t).act = .client ∨ (σ.thread t).act = .exited

theorem Round.thread_free (h : ∀ u, (σ.thread u).act = .client ∨ (σ.thread u).act = .exited) :
    σ.Free () ∧ ∀ u, (σ.thread u).act.holding = false := by
  constructor
  · intro u
    rcases h u with hu | hu <;> rw [hu] <;> simp [Act.holder?]
  · intro u
    rcases h u with hu | hu <;> rw [hu] <;> rfl

/-- The state once thread `t` has made record `n` and given it to the holder. -/
def holding (σ : State Unit Nat Unit Unit Nat) (t n : Nat) : State Unit Nat Unit Unit Nat :=
  { σ with
    allocated := fun r => r = n ∨ σ.allocated r
    active := Function.update σ.active n true
    realptr := Function.update σ.realptr n none
    recNext := Function.update σ.recNext n σ.hazptrList
    hazptrList := some n
    hazptrCount := wrap (σ.hazptrCount + 1)
    holder := Function.update σ.holder () (some n)
    thread := Function.update σ.thread t { σ.thread t with act := .client } }

theorem exists_holding {R : Usage Unit Nat Unit Unit Nat → Usage Unit Nat Unit Unit Nat → Prop}
    (hR : ∀ a b, ReusingStep true a b → R a b) (hr : Reachable Usage.Init R ⟨σ, running, A, p⟩) (hp : p ≤ 1)
    (ht : t ∈ running) (hth : (σ.thread t).act = .client) (hpool : σ.pool t = []) (hh : σ.holder () = none)
    (hn : ¬ σ.allocated n) (hidle : ∀ u, (σ.thread u).act = .client ∨ (σ.thread u).act = .exited) :
    ∃ A' p', p' ≤ 1 ∧ Reachable Usage.Init R ⟨holding σ t n, running, A', p'⟩ := by
  obtain ⟨hfree, hhold⟩ := Round.thread_free hidle
  let s₂ := σ.setAct t (.newRecord ())
  let s₃ := { s₂ with
    allocated := fun r => r = n ∨ s₂.allocated r
    active := Function.update s₂.active n true
    realptr := Function.update s₂.realptr n none
    recNext := Function.update s₂.recNext n s₂.hazptrList }.setAct t (.pushRecord () n)
  let s₄ := { s₃ with hazptrList := some n }.setAct t (.countRecord () n)
  let s₅ := ({ s₄ with hazptrCount := wrap (s₄.hazptrCount + 1) }.setHolder () (some n)).setAct t .client
  have hrest : ∀ u, u ≠ t → (s₂.thread u).act.holding = false ∧ (s₃.thread u).act.holding = false ∧
      (s₄.thread u).act.holding = false ∧ (s₅.thread u).act.holding = false := by
    intro u hu
    simp [s₂, s₃, s₄, s₅, State.setAct, State.setThread, State.setHolder, hu, hhold]
  have hkeep : ∀ σ₁ σ₂ : State Unit Nat Unit Unit Nat, (∀ h, σ₁.holder h ≠ none → σ₂.holder h ≠ none) →
      (σ₂.thread t).act.draining = false → ∀ a b, a.base = σ₁ → b.base = σ₂ → b.base.Sequential →
      Usage.Step true t a b → R a b := by
    rintro _ _ h₁ h₂ a b rfl rfl hseq hstep
    exact hR a b ⟨hseq, t, hstep, fun _ => not_loses h₁ h₂⟩
  obtain ⟨A₂, p₂, hp₂, h₂⟩ := advance (hkeep σ s₂ (fun _ h => h) (by simp [s₂, Act.draining])) hr hp ht
    (.acquireFresh σ () hth rfl hh hfree hpool) (fun u hu => (hrest u hu).1) (by simp [s₂, Act.gone])
  obtain ⟨A₃, p₃, hp₃, h₃⟩ := advance (hkeep s₂ s₃ (fun _ h => h) (by simp [s₃, Act.draining])) h₂ hp₂ ht
    (.newRecord s₂ () n (by simp [s₂]) hn) (fun u hu => (hrest u hu).2.1) (by simp [s₃, Act.gone])
  obtain ⟨A₄, p₄, hp₄, h₄⟩ := advance (hkeep s₃ s₄ (fun _ h => h) (by simp [s₄, Act.draining])) h₃ hp₃ ht
    (.pushRecordOk s₃ () n (by simp [s₃]) (by simp [s₃, State.setAct, State.setThread]))
    (fun u hu => (hrest u hu).2.2.1) (by simp [s₄, Act.gone])
  obtain ⟨A₅, p₅, hp₅, h₅⟩ := advance
    (hkeep s₄ s₅ (fun _ _ => by simp [s₅, State.setAct, State.setThread, State.setHolder])
      (by simp [s₅, Act.draining])) h₄ hp₄ ht
    (.countRecord s₄ () n (by simp [s₄])) (fun u hu => (hrest u hu).2.2.2) (by simp [s₅, Act.gone])
  have hend : s₅ = holding σ t n := by
    simp [s₂, s₃, s₄, s₅, holding, State.setAct, State.setThread, State.setHolder]
  refine ⟨A₅, p₅, hp₅, ?_⟩
  rw [← hend]
  exact h₅

/-- The state once the thread has destroyed the holder and ended. -/
def abandoned (σ : State Unit Nat Unit Unit Nat) (t n : Nat) : State Unit Nat Unit Unit Nat :=
  { σ with
    active := Function.update σ.active n false
    realptr := Function.update σ.realptr n none
    holder := Function.update σ.holder () none
    pool := Function.update σ.pool t []
    thread := Function.update σ.thread t ⟨.exited, [], true⟩ }

theorem exists_abandoned (hr : Reachable Usage.Init (SequentialStep true) ⟨σ, running, A, p⟩) (hp : p ≤ 1)
    (ht : t ∈ running) (hth : σ.thread t = ⟨.client, [], false⟩) (hpool : σ.pool t = [])
    (hpriv : σ.privList t = .clear) (hh : σ.holder () = some n)
    (hidle : ∀ u, (σ.thread u).act = .client ∨ (σ.thread u).act = .exited) :
    ∃ A' p', p' ≤ 1 ∧
      Reachable Usage.Init (SequentialStep true) ⟨abandoned σ t n, running.erase t, A', p'⟩ := by
  obtain ⟨hfree, hhold⟩ := Round.thread_free hidle
  let s₂ := { (σ.storeReal n none).setHolder () none with pool := Function.update σ.pool t (n :: σ.pool t) }
  let s₃ := { s₂ with pool := Function.update s₂.pool t [] }.setThread t ⟨.dropCached (s₂.pool t).reverse, [], true⟩
  let s₄ := { s₃ with active := Function.update s₃.active n false }.setAct t (.dropCached [])
  let s₅ := s₄.setAct t .exited
  have hpool₂ : (s₂.pool t).reverse = [n] := by
    show (Function.update σ.pool t (n :: σ.pool t) t).reverse = [n]
    rw [Function.update_self, hpool]
    rfl
  have hstep₂ : Step true t σ s₂ := by
    have hs : Step true t σ _ := .destroyCached σ () n (by rw [hth]) rfl hh hfree
    unfold State.freeCachedRec at hs
    rw [if_pos (by show (σ.pool t).length < _; rw [hpool]; decide)] at hs
    exact hs
  have hstep₃ : Step true t s₂ s₃ := by
    have hth₂ : s₂.thread t = ⟨.client, [], false⟩ := hth
    have hs : Step true t s₂ _ := .exit s₂ (by rw [hth₂]) (by rw [hth₂]) (by rw [hth₂])
    unfold State.exit at hs
    rw [if_neg (by show ¬ 0 < (σ.privList t).count; rw [hpriv]; decide)] at hs
    exact hs
  have hrest : ∀ u, u ≠ t → (s₂.thread u).act.holding = false ∧ (s₃.thread u).act.holding = false ∧
      (s₄.thread u).act.holding = false ∧ (s₅.thread u).act.holding = false := by
    intro u hu
    simp [s₂, s₃, s₄, s₅, State.setAct, State.setThread, State.setHolder, State.storeReal, hu, hhold]
  have hseq : ∀ {σ₁ σ₂ : State Unit Nat Unit Unit Nat} (a b : Usage Unit Nat Unit Unit Nat), a.base = σ₁ →
      b.base = σ₂ → b.base.Sequential → Usage.Step true t a b → SequentialStep true a b :=
    fun _ _ _ _ hb hs => ⟨hb, t, hs⟩
  obtain ⟨A₂, p₂, hp₂, h₂⟩ := advance hseq hr hp ht hstep₂ (fun u hu => (hrest u hu).1)
    (by show (σ.thread t).act.gone = false; rw [hth]; rfl)
  obtain ⟨A₃, p₃, hp₃, h₃⟩ := advance hseq h₂ hp₂ ht hstep₃ (fun u hu => (hrest u hu).2.1)
    (by simp [s₃, State.setThread, Act.gone])
  obtain ⟨A₄, p₄, hp₄, h₄⟩ := advance hseq h₃ hp₃ ht (.dropCached s₃ n [] (by simp [s₃, State.setThread, hpool₂]))
    (fun u hu => (hrest u hu).2.2.1) (by simp [Act.gone])
  obtain ⟨A₅, hA₅, hc₅⟩ := exists_alive s₅
  have hmove : Usage.Step true t ⟨s₄, running, A₄, p₄⟩ _ := .move _ s₅ A₅ ht (.exited s₄ (by simp [s₄])) hA₅
  rw [if_pos (by simp [s₅, Act.gone])] at hmove
  have hend : s₅ = abandoned σ t n := by
    simp [s₂, s₃, s₄, s₅, abandoned, State.setAct, State.setThread, State.setHolder, State.storeReal]
  refine ⟨A₅, max p₄ A₅.card, max_le hp₄ hc₅, ?_⟩
  rw [← hend]
  exact h₄.tail ⟨sequential_of_idle (fun u hu => (hrest u hu).2.2.2), t, hmove⟩

theorem Round.succ (h : Round n σ) (hp : p ≤ 1)
    (hr : Reachable Usage.Init (SequentialStep true) ⟨σ, {0}, A, p⟩) :
    ∃ σ' A' p', p' ≤ 1 ∧ Round (n + 1) σ' ∧ Reachable Usage.Init (SequentialStep true) ⟨σ', {0}, A', p'⟩ := by
  obtain ⟨hth, hpriv, hpool⟩ := h.next (n + 1) (by omega)
  obtain ⟨hfree, hhold⟩ := Round.thread_free h.idle
  have h₁ := hr.tail ⟨sequential_of_idle (t := 0) (fun u _ => hhold u), n + 1, .start ⟨σ, {0}, A, p⟩ (by rw [hth])⟩
  have ht : n + 1 ∈ insert (n + 1) ({0} : Finset Nat) := Finset.mem_insert_self _ _
  obtain ⟨A₂, p₂, hp₂, h₂⟩ := exists_holding (fun a b h => ⟨h.1, h.2.choose, h.2.choose_spec.1⟩)
    h₁ hp ht (by rw [hth]) hpool h.holder (h.fresh n le_rfl) h.idle
  have hth₂ : (holding σ (n + 1) n).thread (n + 1) = ⟨.client, [], false⟩ := by simp [holding, hth]
  have hidle₂ : ∀ u, ((holding σ (n + 1) n).thread u).act = .client ∨
      ((holding σ (n + 1) n).thread u).act = .exited := by
    intro u
    by_cases hu : u = n + 1
    · rw [hu, hth₂]
      exact .inl rfl
    · simpa [holding, hu] using h.idle u
  obtain ⟨A₃, p₃, hp₃, h₃⟩ := exists_abandoned h₂ hp₂ ht hth₂ hpool hpriv (n := n) (by simp [holding]) hidle₂
  have hrun : (insert (n + 1) ({0} : Finset Nat)).erase (n + 1) = {0} :=
    Finset.erase_insert (by simp)
  rw [hrun] at h₃
  refine ⟨_, A₃, p₃, hp₃, ?_, h₃⟩
  obtain ⟨l, hl, hlen, hlt⟩ := h.list
  constructor
  · refine ⟨n :: l, ⟨rfl, ?_⟩, by simp [hlen], ?_⟩
    · have hn : (abandoned (holding σ (n + 1) n) (n + 1) n).recNext n = σ.hazptrList := by
        simp [abandoned, holding]
      rw [hn]
      apply hl.congr
      intro r hr
      have hne : r ≠ n := (hlt r hr).ne
      simp [abandoned, holding, hne]
    · intro r hr
      rcases List.mem_cons.1 hr with rfl | hr
      · omega
      · have hh := hlt r hr
        omega
  · simp [abandoned]
  · rintro r hr (hrn | hra)
    · omega
    · exact h.fresh r (by omega) hra
  · intro u hu
    have hne : u ≠ n + 1 := by omega
    simpa [abandoned, holding, hne] using h.next u (by omega)
  · intro u
    by_cases hu : u = n + 1
    · simp [abandoned, hu]
    · simpa [abandoned, hu] using hidle₂ u

theorem unused_round : Round 0 (State.unused : State Unit Nat Unit Unit Nat) :=
  ⟨⟨[], rfl, rfl, by simp⟩, rfl, fun _ _ h => h, fun _ _ => ⟨rfl, rfl, rfl⟩, fun _ => .inl rfl⟩

theorem exists_started {R : Usage Unit Nat Unit Unit Nat → Usage Unit Nat Unit Unit Nat → Prop}
    (hR : ∀ a b, ReusingStep true a b → R a b) : Reachable Usage.Init R ⟨State.unused, {0}, ∅, 0⟩ := by
  have h₀ : Reachable Usage.Init R ⟨State.unused, ∅, ∅, 0⟩ := .of_init ⟨unused_init, rfl, rfl, rfl⟩
  exact h₀.tail (hR _ _ ⟨sequential_of_idle (t := 0) (fun _ _ => rfl), 0, .start ⟨State.unused, ∅, ∅, 0⟩ rfl,
    fun _ => not_loses (fun _ h => h) rfl⟩)

theorem exists_round (n : Nat) : ∃ σ A p, p ≤ 1 ∧ Round n σ ∧
    Reachable Usage.Init (SequentialStep true) ⟨σ, {0}, A, p⟩ := by
  induction n with
  | zero => exact ⟨_, ∅, 0, by omega, unused_round, exists_started fun a b h => ⟨h.1, h.2.choose, h.2.choose_spec.1⟩⟩
  | succ n ih =>
    obtain ⟨σ, A, p, hp, h, hr⟩ := ih
    exact h.succ hp hr

/-- Twelve threads, one after the other, that use one holder each, next to a main thread. -/
theorem records_grow : ¬ ∀ a : Usage Unit Nat Unit Unit Nat, Reachable Usage.Init (SequentialStep true) a →
    ∃ list, Segment a.base.recNext a.base.hazptrList list none ∧ list.length ≤ a.bound true ∧
      a.base.hazptrCount ≤ a.bound true := by
  intro h
  obtain ⟨σ, A, p, hp, hround, hr⟩ := exists_round 12
  obtain ⟨l, hl, hlen, -⟩ := hround.list
  obtain ⟨list, hlist, hle, -⟩ := h _ hr
  have hlist' : Segment σ.recNext σ.hazptrList list none := hlist
  rw [hlist'.unique hl, hlen] at hle
  have hb : (Usage.bound true ⟨σ, {0}, A, p⟩ : Nat) = p + 10 := rfl
  rw [hb] at hle
  omega

/-- A holder is destroyed, its record goes to the cache, and the next holder takes it out again. -/
theorem exists_retaken : ∃ (σ σ' : State Unit Nat Unit Unit Nat) (A A' : Finset Unit) (p p' : Nat),
    Reachable Usage.Init (ReusingStep true) ⟨σ, {0}, A, p⟩ ∧ σ.holder () = none ∧ σ.pool 0 = [0] ∧
    Step true 0 σ σ' ∧ Reachable Usage.Init (ReusingStep true) ⟨σ', {0}, A', p'⟩ ∧ σ'.holder () = some 0 := by
  obtain ⟨A, p, hp, h⟩ := exists_holding (R := ReusingStep true) (t := 0) (n := 0) (fun a b h => h)
    (exists_started fun a b h => h) (by omega) (by simp) rfl rfl rfl (fun h => h) (fun _ => .inl rfl)
  have hidle : ∀ u, (holding (State.unused : State Unit Nat Unit Unit Nat) 0 0).thread u = ⟨.client, [], false⟩ := by
    intro u
    by_cases hu : u = 0
    · rw [hu]
      rfl
    · exact Function.update_of_ne hu _ _
  have hfree : (holding (State.unused : State Unit Nat Unit Unit Nat) 0 0).Free () := by
    intro u
    rw [hidle]
    exact nofun
  have hs₁ : Step true 0 (holding State.unused 0 0) _ := .destroyCached _ () 0 (by rw [hidle]) rfl rfl hfree
  have hpool : ((((holding State.unused 0 0).storeReal 0 none).setHolder () none).pool 0).length < recordCacheSize := by
    decide
  rw [State.freeCachedRec, if_pos hpool] at hs₁
  obtain ⟨A₁, p₁, hp₁, h₁⟩ := advance (t := 0) (R := ReusingStep true) (fun a b ha hb hseq hstep => by
    refine ⟨hseq, 0, hstep, fun _ => ?_⟩
    rw [ha, hb]
    rintro (⟨-, hle⟩ | ⟨hd, -⟩)
    · exact absurd hle (by decide)
    · cases hd) h hp (by simp) hs₁ (fun u _ => congrArg (Act.holding ∘ Thread.act) (hidle u)) rfl
  have hs₂ : Step true 0 { ((holding State.unused 0 0).storeReal 0 none).setHolder () none with
      pool := Function.update (State.unused : State Unit Nat Unit Unit Nat).pool 0 [0] } _ :=
    .acquireCached _ () 0 [] rfl rfl rfl hfree rfl
  obtain ⟨A₂, p₂, hp₂, h₂⟩ := advance (t := 0) (R := ReusingStep true) (fun a b ha hb hseq hstep => by
    refine ⟨hseq, 0, hstep, fun _ => ?_⟩
    rw [ha, hb]
    exact not_loses (fun _ _ => nofun) rfl) h₁ hp₁ (by simp) hs₂
    (fun u _ => congrArg (Act.holding ∘ Thread.act) (hidle u)) rfl
  exact ⟨_, _, A₁, A₂, p₁, p₂, h₁, rfl, rfl, hs₂, h₂, rfl⟩

theorem records_reused_retaken : ∃ (σ σ' : State Unit Nat Unit Unit Nat) (a : Usage Unit Nat Unit Unit Nat),
    σ.holder () = none ∧ σ.pool 0 = [0] ∧ Step true 0 σ σ' ∧ a.base = σ' ∧ σ'.holder () = some 0 ∧
    ∃ list, Segment σ'.recNext σ'.hazptrList list none ∧ list.length ≤ a.bound true ∧
      σ'.hazptrCount ≤ a.bound true := by
  obtain ⟨σ, σ', -, A, -, p, -, hnone, hpool, hstep, h, hh⟩ := exists_retaken
  exact ⟨σ, σ', _, hnone, hpool, hstep, rfl, hh, records_reused h⟩

end Growth

end Wizard.Hazptr
