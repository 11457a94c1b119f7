import Wizard.HazptrSafe

/-! Who owns a record. A record has at most one owner, it is null while it has none,
and once it is on `_hazptr_list` it stays there. -/

namespace Wizard.Hazptr

variable {Obj Rec Cell Holder Tid : Type*}

/-- `rec` is reached from the head of `_hazptr_list`. -/
def State.Listed (s : State Obj Rec Cell Holder Tid) (rec : Rec) : Prop :=
  ∃ list, Segment s.recNext s.hazptrList list none ∧ rec ∈ list

/-- Records without an owner protect nothing. -/
def State.Cleared (s : State Obj Rec Cell Holder Tid) : Prop :=
  ∀ r, s.allocated r → (∀ h, s.holder h ≠ some r) → s.realptr r = none

variable {s s' : State Obj Rec Cell Holder Tid} {list : List Rec} {t : Tid}

theorem Records.listed_iff (h : Records s list) {r : Rec} : s.Listed r ↔ r ∈ list := by
  constructor
  · rintro ⟨l, hl, hr⟩
    rw [h.linked.unique hl]
    exact hr
  · intro hr
    exact ⟨list, h.linked, hr⟩

variable [DecidableEq Rec] [DecidableEq Holder]

/-- How a step changes the owners and what the records protect. -/
inductive OwnerStep (s s' : State Obj Rec Cell Holder Tid) : Prop
  | same (h1 : s'.allocated = s.allocated) (h2 : s'.holder = s.holder) (h3 : s'.realptr = s.realptr)
  | create (rec) (h1 : s'.allocated = fun r => r = rec ∨ s.allocated r) (h2 : s'.holder = s.holder)
      (h3 : s'.realptr = Function.update s.realptr rec none)
  | give (h rec) (hh : s.holder h = none) (h1 : s'.allocated = s.allocated)
      (h2 : s'.holder = Function.update s.holder h (some rec)) (h3 : s'.realptr = s.realptr)
  | store (h rec p) (hh : s.holder h = some rec) (h1 : s'.allocated = s.allocated)
      (h2 : s'.holder = s.holder) (h3 : s'.realptr = Function.update s.realptr rec p)
  | swap (h h' rec rec') (hh : s.holder h = some rec) (hh' : s.holder h' = some rec')
      (h1 : s'.allocated = s.allocated)
      (h2 : s'.holder = Function.update (Function.update s.holder h (some rec')) h' (some rec))
      (h3 : s'.realptr = s.realptr)
  | drop (h rec) (hh : s.holder h = some rec) (h1 : s'.allocated = s.allocated)
      (h2 : s'.holder = Function.update s.holder h none)
      (h3 : s'.realptr = Function.update s.realptr rec none)

theorem OwnerStep.cleared (hstep : OwnerStep s s') (h : s.Cleared) : s'.Cleared := by
  intro r hr hown
  cases hstep with
  | same h1 h2 h3 =>
    rw [h1] at hr
    rw [h2] at hown
    rw [h3]
    exact h r hr hown
  | create rec h1 h2 h3 =>
    rw [h1] at hr
    rw [h2] at hown
    rw [h3]
    by_cases hrr : r = rec
    · simp [hrr]
    · rw [Function.update_of_ne hrr]
      exact h r (hr.resolve_left hrr) hown
  | give x rec hx h1 h2 h3 =>
    rw [h1] at hr
    rw [h3]
    apply h r hr
    intro y hy
    have hne : y ≠ x := by
      intro hyx
      rw [hyx, hx] at hy
      cases hy
    apply hown y
    rw [h2, Function.update_of_ne hne]
    exact hy
  | store x rec p hx h1 h2 h3 =>
    rw [h1] at hr
    rw [h2] at hown
    have hne : r ≠ rec := by
      intro hrr
      exact hown x (by rw [hx, hrr])
    rw [h3, Function.update_of_ne hne]
    exact h r hr hown
  | swap x x' rec rec' hx hx' h1 h2 h3 =>
    rw [h1] at hr
    rw [h3]
    apply h r hr
    intro y hy
    by_cases hyx : y = x
    · -- the record has gone to the other holder
      rw [hyx, hx] at hy
      apply hown x'
      rw [h2, Function.update_self]
      exact hy
    · by_cases hyx' : y = x'
      · rw [hyx', hx'] at hy
        have hne : x ≠ x' := fun he => hyx (hyx'.trans he.symm)
        apply hown x
        rw [h2, Function.update_of_ne hne, Function.update_self]
        exact hy
      · apply hown y
        rw [h2, Function.update_of_ne hyx', Function.update_of_ne hyx]
        exact hy
  | drop x rec hx h1 h2 h3 =>
    rw [h1] at hr
    rw [h3]
    by_cases hrr : r = rec
    · simp [hrr]
    · rw [Function.update_of_ne hrr]
      apply h r hr
      intro y hy
      have hne : y ≠ x := by
        intro hyx
        rw [hyx, hx] at hy
        exact hrr (Option.some.inj hy).symm
      apply hown y
      rw [h2, Function.update_of_ne hne]
      exact hy

variable [DecidableEq Obj] [DecidableEq Cell] [DecidableEq Tid]

theorem owner_step {useCache : Bool} (hstep : Step useCache t s s') (h : Records s list) :
    OwnerStep s s' := by
  have hok := h.act t
  have hfinish : ∀ σ : State Obj Rec Cell Holder Tid, σ.allocated = s.allocated → σ.holder = s.holder →
      σ.realptr = s.realptr → OwnerStep s (σ.finish t) := by
    intro σ h1 h2 h3
    obtain ⟨a, pool, -, -, he⟩ := finish_eq σ t
    rw [he]
    exact .same h1 h2 h3
  cases hstep with
  | retire x ha hx hcell =>
    unfold State.retire
    split <;> exact .same rfl rfl rfl
  | acquire x ha hu hh hf =>
    obtain ⟨a, -, he⟩ := searchAt_eq s t x s.hazptrList
    rw [he]
    exact .same rfl rfl rfl
  | acquireCached x rec rest ha hu hh hf hp => exact .give x rec hh rfl rfl rfl
  | loadActive x rec ha =>
    split
    · obtain ⟨a, -, he⟩ := searchAt_eq s t x (s.recNext rec)
      rw [he]
      exact .same rfl rfl rfl
    · exact .same rfl rfl rfl
  | casActiveOk x rec ha hr =>
    rw [ha] at hok
    exact .give x rec hok.2 rfl rfl rfl
  | casActiveFail x rec ha hr =>
    obtain ⟨a, -, he⟩ := searchAt_eq s t x (s.recNext rec)
    rw [he]
    exact .same rfl rfl rfl
  | newRecord x rec ha hr => exact .create rec rfl rfl rfl
  | countRecord x rec ha =>
    rw [ha] at hok
    exact .give x rec hok.2 rfl rfl rfl
  | tryProtect x rec p src ha hh hf => exact .store x rec p hh rfl rfl rfl
  | publish x rec p src ha hh => exact .store x rec p hh rfl rfl rfl
  | retract x rec latest src again ha hh => exact .store x rec none hh rfl rfl rfl
  | reset x rec p ha hh hf => exact .store x rec p hh rfl rfl rfl
  | swap x x' rec rec' ha hh hh' hf hf' => exact .swap x x' rec rec' hh hh' rfl rfl rfl
  | destroy x rec ha hu hh hf => exact .drop x rec hh rfl rfl rfl
  | destroyCached x rec ha hu hh hf =>
    unfold State.freeCachedRec
    split <;> exact .drop x rec hh rfl rfl rfl
  | countLeft b rest ha hs => exact hfinish _ rfl rfl rfl
  | loadHazptrCount cnt ha =>
    split
    · exact hfinish s rfl rfl rfl
    · exact .same rfl rfl rfl
  | loadRecords ha =>
    rw [scanAt_eq]
    exact .same rfl rfl rfl
  | scan rec b rest ha hs =>
    rw [scanAt_eq]
    exact .same rfl rfl rfl
  | reclaimed b rest ha hs hp hl => exact hfinish _ rfl rfl rfl
  | exit ha hs he =>
    obtain ⟨pool, th, hexit⟩ := exit_eq s t
    rw [hexit]
    exact .same rfl rfl rfl
  | _ => exact .same rfl rfl rfl

theorem reachable_cleared {useCache : Bool} (hs : Reachable Init (Next useCache) s) : s.Cleared := by
  apply hs.invariant
  · intro s₀ h₀ r hr
    exact absurd hr (h₀.allocated r)
  · rintro s₁ s₂ hs₁ h₁ ⟨t, hstep⟩
    obtain ⟨list, hrec⟩ := reachable_records hs₁
    exact (owner_step hstep hrec).cleared h₁

/-- A record on the list keeps its place in all later states. -/
theorem listed_run {useCache : Bool} (h : Records s list)
    (hrun : Relation.ReflTransGen (Next useCache) s s') :
    ∃ list', Records s' list' ∧ ∀ r ∈ list, r ∈ list' ∧ s'.recNext r = s.recNext r := by
  induction hrun with
  | refl => exact ⟨list, h, fun r hr => ⟨hr, rfl⟩⟩
  | tail _ hstep ih =>
    obtain ⟨list₁, h₁, hsub⟩ := ih
    obtain ⟨t, hstep⟩ := hstep
    obtain ⟨list₂, h₂, hsub₂⟩ := records_step hstep h₁
    refine ⟨list₂, h₂, fun r hr => ?_⟩
    obtain ⟨hr₁, he⟩ := hsub r hr
    exact ⟨hsub₂ r hr₁, ((effect_of_step hstep).recNext h₁ hr₁).trans he⟩

/-- What is owned is on the list that a later scan walks through. -/
theorem records_exclusive {useCache : Bool} (hs : Reachable Init (Next useCache) s) :
    (∀ r h h', s.holder h = some r → s.holder h' = some r → h = h') ∧
    (∀ r, s.allocated r → (∀ h, s.holder h ≠ some r) → s.realptr r = none) ∧
    (∀ h r, s.holder h = some r → s.Listed r) ∧
    ∀ s', Relation.ReflTransGen (Next useCache) s s' →
      ∀ r, s.Listed r → s'.Listed r ∧ s'.recNext r = s.recNext r := by
  obtain ⟨list, h⟩ := reachable_records hs
  refine ⟨?_, reachable_cleared hs, ?_, ?_⟩
  · intro r x y hx hy
    exact h.holder_inj hx hy
  · intro x r hx
    exact h.listed_iff.2 (h.holder x r hx)
  · intro s' hrun r hr
    obtain ⟨list', h', hsub⟩ := listed_run h hrun
    obtain ⟨hr', he⟩ := hsub r (h.listed_iff.1 hr)
    exact ⟨h'.listed_iff.2 hr', he⟩

/-- A record is given up. Two threads want it, and one of them gets it. -/
theorem exists_contended : ∃ s : State Nat Nat Unit Nat Bool, Reachable Init (Next false) s ∧
    s.holder 1 = some 1 ∧ s.holder 2 = some 0 ∧ (s.thread false).act = .newRecord 3 := by
  have h₀ : Reachable Init (Next false) (State.unused : State Nat Nat Unit Nat Bool) := .of_init unused_init
  have h₁ := h₀.tail ⟨false, .acquire _ 0 rfl rfl rfl (by rintro (_ | _) <;> exact nofun)⟩
  have h₂ := (h₁.tail ⟨false, .newRecord _ 0 0 rfl nofun⟩).tail ⟨false, .pushRecordOk _ 0 0 rfl rfl⟩
  have h₃ := h₂.tail ⟨false, .countRecord _ 0 0 rfl⟩
  have h₄ := h₃.tail ⟨true, .acquire _ 1 rfl rfl rfl (by rintro (_ | _) <;> exact nofun)⟩
  have h₅ := (h₄.tail ⟨true, .loadActive _ 1 0 rfl⟩).tail ⟨true, .newRecord _ 1 1 rfl nofun⟩
  have h₆ := (h₅.tail ⟨true, .pushRecordOk _ 1 1 rfl rfl⟩).tail ⟨true, .countRecord _ 1 1 rfl⟩
  have h₇ := h₆.tail ⟨false, .destroy _ 0 0 rfl rfl rfl (by rintro (_ | _) <;> exact nofun)⟩
  have h₈ := h₇.tail ⟨false, .releaseRecord _ 0 rfl⟩
  have h₉ := h₈.tail ⟨true, .acquire _ 2 rfl rfl rfl (by rintro (_ | _) <;> exact nofun)⟩
  have k₁ := h₉.tail ⟨false, .acquire _ 3 rfl rfl rfl (by rintro (_ | _) <;> exact nofun)⟩
  have k₂ := (k₁.tail ⟨true, .loadActive _ 2 1 rfl⟩).tail ⟨true, .loadActive _ 2 0 rfl⟩
  have k₃ := (k₂.tail ⟨false, .loadActive _ 3 1 rfl⟩).tail ⟨false, .loadActive _ 3 0 rfl⟩
  have k₄ := (k₃.tail ⟨true, .casActiveOk _ 2 0 rfl rfl⟩).tail ⟨false, .casActiveFail _ 3 0 rfl rfl⟩
  exact ⟨_, k₄, rfl, rfl, rfl⟩

theorem records_exclusive_contended : ∃ s : State Nat Nat Unit Nat Bool, Reachable Init (Next false) s ∧
    s.holder 1 = some 1 ∧ s.holder 2 = some 0 ∧ (s.thread false).act = .newRecord 3 ∧
    (∀ h, s.holder h = some 0 → h = 2) ∧ s.Listed 0 ∧ s.Listed 1 := by
  obtain ⟨s, hs, h₁, h₂, hact⟩ := exists_contended
  obtain ⟨hexcl, -, hlisted, -⟩ := records_exclusive hs
  exact ⟨s, hs, h₁, h₂, hact, fun h hh => hexcl 0 h 2 hh h₂, hlisted 2 0 h₂, hlisted 1 1 h₁⟩

end Wizard.Hazptr
