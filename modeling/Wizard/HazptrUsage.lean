import Wizard.HazptrExit

/-! Running threads, the holders alive and what one step does to the records they use. -/

namespace Wizard.Hazptr

variable {Obj Rec Cell Holder Tid : Type*}

/-- Inside the constructor of a holder. -/
def Act.constructs : Act Obj Rec Cell Holder → Option Holder
  | .loadActive h _ | .casActive h _ | .newRecord h | .pushRecord h _ | .countRecord h _ => some h
  | _ => none

/-- Inside the constructor or the destructor of a holder, or inside `~HazptrPool`. -/
def Act.holding : Act Obj Rec Cell Holder → Bool
  | .loadActive _ _ | .casActive _ _ | .newRecord _ | .pushRecord _ _ | .countRecord _ _ | .releaseRecord _
  | .dropCached _ => true
  | _ => false

/-- The holder exists; its constructor may still be running. -/
def State.Alive (s : State Obj Rec Cell Holder Tid) (h : Holder) : Prop :=
  s.holder h ≠ none ∨ ∃ t, (s.thread t).act.constructs = some h

/-- These operations do not overlap. -/
def State.Sequential (s : State Obj Rec Cell Holder Tid) : Prop :=
  ∀ t u, (s.thread t).act.holding = true → (s.thread u).act.holding = true → t = u

/-- `peak` is the largest number of holders alive so far. -/
structure Usage (Obj Rec Cell Holder Tid : Type*) where
  base : State Obj Rec Cell Holder Tid
  running : Finset Tid
  alive : Finset Holder
  peak : Nat

structure Usage.Init (a : Usage Obj Rec Cell Holder Tid) : Prop where
  base : Hazptr.Init a.base
  running : a.running = ∅
  alive : a.alive = ∅
  peak : a.peak = 0

def Act.gone : Act Obj Rec Cell Holder → Bool
  | .exited => true
  | _ => false

/-- Neither at work on records nor gone. -/
def Act.aside (a : Act Obj Rec Cell Holder) : Bool := !a.holding && !a.gone

def Act.draining : Act Obj Rec Cell Holder → Bool
  | .dropCached _ => true
  | _ => false

section Usage

variable [DecidableEq Obj] [DecidableEq Rec] [DecidableEq Cell] [DecidableEq Holder] [DecidableEq Tid]

inductive Usage.Step (useCache : Bool) (t : Tid) :
    Usage Obj Rec Cell Holder Tid → Usage Obj Rec Cell Holder Tid → Prop
  | start (a) (ha : (a.base.thread t).act = .client) : Step useCache t a { a with running := insert t a.running }
  | move (a s' A) (ht : t ∈ a.running) (hs : Hazptr.Step useCache t a.base s') (hA : ∀ h, h ∈ A ↔ s'.Alive h) :
      Step useCache t a ⟨s', if (s'.thread t).act.gone then a.running.erase t else a.running, A, max a.peak A.card⟩

/-- `t` destroys a holder while its cache is full, or ends with records in its cache. -/
def Loses (t : Tid) (s s' : State Obj Rec Cell Holder Tid) : Prop :=
  (∃ h, s.holder h ≠ none ∧ s'.holder h = none) ∧ recordCacheSize ≤ (s.pool t).length ∨
    (s'.thread t).act.draining = true ∧ s.pool t ≠ []

/-- Steps without overlap. -/
def SequentialStep (useCache : Bool) (a b : Usage Obj Rec Cell Holder Tid) : Prop :=
  b.base.Sequential ∧ ∃ t, Usage.Step useCache t a b

/-- Steps without overlap that lose no record. -/
def ReusingStep (useCache : Bool) (a b : Usage Obj Rec Cell Holder Tid) : Prop :=
  b.base.Sequential ∧ ∃ t, Usage.Step useCache t a b ∧ (useCache = true → ¬ Loses t a.base b.base)

end Usage

section Counting

/-- Each of `l` has a partner of its own in `B`. -/
theorem length_le_card {α β : Type*} [DecidableEq β] {l : List α} (hn : l.Nodup) {B : Finset β} {r : β → α → Prop}
    (hf : ∀ b a a', r b a → r b a' → a = a') (hl : ∀ a ∈ l, ∃ b ∈ B, r b a) : l.length ≤ B.card := by
  induction l generalizing B with
  | nil => exact Nat.zero_le _
  | cons a l ih =>
    rw [List.nodup_cons] at hn
    obtain ⟨b, hb, hr⟩ := hl a List.mem_cons_self
    have hh := ih hn.2 (B := B.erase b) (fun a' ha' => by
      obtain ⟨b', hb', hr'⟩ := hl a' (List.mem_cons_of_mem a ha')
      have hne : b' ≠ b := by
        intro he
        rw [he] at hr'
        exact hn.1 (hf b a a' hr hr' ▸ ha')
      exact ⟨b', Finset.mem_erase.2 ⟨hne, hb'⟩, hr'⟩)
    have hc := Finset.card_erase_add_one hb
    simp only [List.length_cons]
    omega

end Counting

/-- The search of `acquire_record` at a record. -/
def searchAct (h : Holder) : Option Rec → Act Obj Rec Cell Holder
  | some rec => .loadActive h rec
  | none => .newRecord h

variable {s s' : State Obj Rec Cell Holder Tid} {list : List Rec} {t : Tid}

section Inversion

variable [DecidableEq Rec] [DecidableEq Holder] [DecidableEq Tid]

/-- How a step changes the records, the caches and their users. `list` becomes `list'`. -/
inductive ReuseStep (useCache : Bool) (s s' : State Obj Rec Cell Holder Tid) (list : List Rec) (t : Tid) :
    List Rec → Prop
  | quiet (hl : Segment s'.recNext s'.hazptrList list none) (h1 : s'.active = s.active)
      (h2 : ∀ h r, s.holder h = some r → ∃ h', s'.holder h' = some r) (h3 : s'.pool = s.pool)
      (h4 : s'.hazptrCount = s.hazptrCount) (ha : (s.thread t).act.aside = true)
      (ha' : (s'.thread t).act.aside = true) : ReuseStep useCache s s' list t list
  | search (x o) (hl : Segment s'.recNext s'.hazptrList list none) (h1 : s'.active = s.active)
      (h2 : s'.holder = s.holder) (h3 : s'.pool = s.pool) (h4 : s'.hazptrCount = s.hazptrCount)
      (ha : (s.thread t).act = .client ∧ o = s.hazptrList ∨
        ∃ rec, ((s.thread t).act = .loadActive x rec ∨ (s.thread t).act = .casActive x rec) ∧
          s.active rec = true ∧ o = s.recNext rec)
      (ha' : (s'.thread t).act = searchAct x o) : ReuseStep useCache s s' list t list
  | attempt (x rec) (hl : Segment s'.recNext s'.hazptrList list none) (h1 : s'.active = s.active)
      (h2 : s'.holder = s.holder) (h3 : s'.pool = s.pool) (h4 : s'.hazptrCount = s.hazptrCount)
      (ha : (s.thread t).act = .loadActive x rec) (ha' : (s'.thread t).act = .casActive x rec) :
      ReuseStep useCache s s' list t list
  | claim (x rec) (hl : Segment s'.recNext s'.hazptrList list none)
      (h1 : s'.active = Function.update s.active rec true) (h2 : s'.holder = Function.update s.holder x (some rec))
      (h3 : s'.pool = s.pool) (h4 : s'.hazptrCount = s.hazptrCount) (ha : (s.thread t).act = .casActive x rec)
      (ha' : (s'.thread t).act = .client) : ReuseStep useCache s s' list t list
  | popCache (x rec rest) (hl : Segment s'.recNext s'.hazptrList list none) (h1 : s'.active = s.active)
      (hu : useCache = true) (hh : s.holder x = none) (hp : s.pool t = rec :: rest)
      (h2 : s'.holder = Function.update s.holder x (some rec)) (h3 : s'.pool = Function.update s.pool t rest)
      (h4 : s'.hazptrCount = s.hazptrCount) (ha : (s.thread t).act = .client)
      (ha' : (s'.thread t).act = .client) : ReuseStep useCache s s' list t list
  | fresh (x) (hl : Segment s'.recNext s'.hazptrList list none) (hu : useCache = true) (h1 : s'.active = s.active)
      (h2 : s'.holder = s.holder) (h3 : s'.pool = s.pool) (h4 : s'.hazptrCount = s.hazptrCount)
      (ha : (s.thread t).act = .client) (ha' : (s'.thread t).act = .newRecord x) :
      ReuseStep useCache s s' list t list
  | create (x rec) (hl : Segment s'.recNext s'.hazptrList list none)
      (h1 : s'.active = Function.update s.active rec true) (hr : rec ∉ list) (h2 : s'.holder = s.holder)
      (h3 : s'.pool = s.pool) (h4 : s'.hazptrCount = s.hazptrCount) (ha : (s.thread t).act = .newRecord x)
      (ha' : (s'.thread t).act = .pushRecord x rec) : ReuseStep useCache s s' list t list
  | push (x rec) (hl : Segment s'.recNext s'.hazptrList (rec :: list) none) (h1 : s'.active = s.active)
      (h2 : s'.holder = s.holder) (h3 : s'.pool = s.pool) (h4 : s'.hazptrCount = s.hazptrCount)
      (ha : (s.thread t).act = .pushRecord x rec) (ha' : (s'.thread t).act = .countRecord x rec) :
      ReuseStep useCache s s' list t (rec :: list)
  | retry (x rec) (hl : Segment s'.recNext s'.hazptrList list none) (h1 : s'.active = s.active)
      (h2 : s'.holder = s.holder) (h3 : s'.pool = s.pool) (h4 : s'.hazptrCount = s.hazptrCount)
      (ha : (s.thread t).act = .pushRecord x rec) (ha' : (s'.thread t).act = .pushRecord x rec) :
      ReuseStep useCache s s' list t list
  | count (x rec) (hl : Segment s'.recNext s'.hazptrList list none) (h1 : s'.active = s.active)
      (h2 : s'.holder = Function.update s.holder x (some rec)) (h3 : s'.pool = s.pool)
      (h4 : s'.hazptrCount = wrap (s.hazptrCount + 1)) (ha : (s.thread t).act = .countRecord x rec)
      (ha' : (s'.thread t).act = .client) : ReuseStep useCache s s' list t list
  | destroy (x rec) (hl : Segment s'.recNext s'.hazptrList list none) (hu : useCache = false)
      (hh : s.holder x = some rec) (h1 : s'.active = s.active) (h2 : s'.holder = Function.update s.holder x none)
      (h3 : s'.pool = s.pool) (h4 : s'.hazptrCount = s.hazptrCount) (ha : (s.thread t).act = .client)
      (ha' : (s'.thread t).act = .releaseRecord rec) : ReuseStep useCache s s' list t list
  | cache (x rec) (hl : Segment s'.recNext s'.hazptrList list none) (hu : useCache = true)
      (hh : s.holder x = some rec) (h1 : s'.active = s.active) (h2 : s'.holder = Function.update s.holder x none)
      (h3 : s'.pool = if (s.pool t).length < recordCacheSize then Function.update s.pool t (rec :: s.pool t)
        else s.pool)
      (h4 : s'.hazptrCount = s.hazptrCount) (ha : (s.thread t).act = .client)
      (ha' : (s'.thread t).act = .client) : ReuseStep useCache s s' list t list
  | release (rec rest) (hl : Segment s'.recNext s'.hazptrList list none)
      (h1 : s'.active = Function.update s.active rec false) (h2 : s'.holder = s.holder) (h3 : s'.pool = s.pool)
      (h4 : s'.hazptrCount = s.hazptrCount)
      (ha : (s.thread t).act = .releaseRecord rec ∧ (s'.thread t).act = .client ∨
        (s.thread t).act = .dropCached (rec :: rest) ∧ (s'.thread t).act = .dropCached rest) :
      ReuseStep useCache s s' list t list
  | drain (hl : Segment s'.recNext s'.hazptrList list none) (h1 : s'.active = s.active)
      (h2 : s'.holder = s.holder) (h3 : s'.pool = Function.update s.pool t [])
      (h4 : s'.hazptrCount = s.hazptrCount) (ha : (s.thread t).act.aside = true)
      (ha' : (s'.thread t).act = .dropCached (s.pool t).reverse) : ReuseStep useCache s s' list t list
  | leave (hl : Segment s'.recNext s'.hazptrList list none) (h1 : s'.active = s.active)
      (h2 : s'.holder = s.holder) (h3 : s'.pool = s.pool) (h4 : s'.hazptrCount = s.hazptrCount)
      (ha : (s.thread t).act = .dropCached []) (ha' : (s'.thread t).act = .exited) :
      ReuseStep useCache s s' list t list

theorem finish_reuse {useCache : Bool} {σ : State Obj Rec Cell Holder Tid}
    (hl : Segment σ.recNext σ.hazptrList list none) (h1 : σ.active = s.active) (h2 : σ.holder = s.holder)
    (h3 : σ.pool = s.pool) (h4 : σ.hazptrCount = s.hazptrCount) (ha : (s.thread t).act.aside = true) :
    ReuseStep useCache s (σ.finish t) list t list := by
  unfold State.finish
  split
  · refine .drain hl h1 h2 ?_ h4 ha ?_
    · simp [State.setAct, State.setThread, h3]
    · simp [h3]
  · refine .quiet hl h1 ?_ h3 h4 ha (by simp [Act.aside, Act.holding, Act.gone])
    intro h r hr
    exact ⟨h, by rw [← h2] at hr; exact hr⟩

variable [DecidableEq Obj] [DecidableEq Cell]

theorem reuse_step {useCache : Bool} (hstep : Step useCache t s s') (h : Records s list) :
    ∃ list', ReuseStep useCache s s' list t list' ∧ Records s' list' := by
  have hl := h.linked
  obtain ⟨list', h', -⟩ := records_step hstep h
  suffices hsuff : ∃ l, ReuseStep useCache s s' list t l by
    obtain ⟨l, hr⟩ := hsuff
    refine ⟨l, hr, ?_⟩
    have hseg : Segment s'.recNext s'.hazptrList l none := by
      cases hr <;> assumption
    rw [hseg.unique h'.linked]
    exact h'
  clear h'
  have hhold : ∀ {a b : Act Obj Rec Cell Holder}, a = b → b.aside = true → a.aside = true := by
    intro a b hab hb
    rw [hab]
    exact hb
  have hself : ∀ {σ : State Obj Rec Cell Holder Tid} {a : Act Obj Rec Cell Holder}, a.aside = true →
      ((σ.setAct t a).thread t).act.aside = true := by
    intro σ a ha
    simpa using ha
  have hsame : ∀ x r, s.holder x = some r → ∃ x', s.holder x' = some r := fun x r hx => ⟨x, hx⟩
  have hsearch : ∀ (x : Holder) (o : Option Rec), s.searchAt t x o = s.setAct t (searchAct x o) := by
    intro x o
    cases o <;> rfl
  cases hstep with
  | retire x ha hx hcell =>
    refine ⟨list, ?_⟩
    unfold State.retire
    split
    · exact .quiet hl rfl hsame rfl rfl (hhold ha rfl) (hself rfl)
    · exact .quiet hl rfl hsame rfl rfl (hhold ha rfl) (hhold ha rfl)
  | acquire x ha hu hh hf =>
    rw [hsearch]
    exact ⟨list, .search x s.hazptrList hl rfl rfl rfl rfl (.inl ⟨ha, rfl⟩) (by simp)⟩
  | acquireCached x rec rest ha hu hh hf hp =>
    exact ⟨list, .popCache x rec rest hl rfl hu hh hp rfl rfl rfl ha ha⟩
  | acquireFresh x ha hu hh hf hp => exact ⟨list, .fresh x hl hu rfl rfl rfl rfl ha (by simp)⟩
  | loadActive x rec ha =>
    refine ⟨list, ?_⟩
    split
    · rename_i hr
      rw [hsearch]
      exact .search x (s.recNext rec) hl rfl rfl rfl rfl (.inr ⟨rec, .inl ha, hr, rfl⟩) (by simp)
    · exact .attempt x rec hl rfl rfl rfl rfl ha (by simp)
  | casActiveOk x rec ha hr => exact ⟨list, .claim x rec hl rfl rfl rfl rfl ha (by simp)⟩
  | casActiveFail x rec ha hr =>
    rw [hsearch]
    exact ⟨list, .search x (s.recNext rec) hl rfl rfl rfl rfl (.inr ⟨rec, .inr ha, hr, rfl⟩) (by simp)⟩
  | newRecord x rec ha hr =>
    have hrl : rec ∉ list := fun hrl => hr (h.allocated rec hrl)
    refine ⟨list, .create x rec ?_ rfl hrl rfl rfl rfl ha (by simp)⟩
    exact hl.congr (fun q hq => Function.update_of_ne (ne_of_mem_of_not_mem hq hrl) _ _)
  | pushRecordOk x rec ha he =>
    refine ⟨rec :: list, .push x rec ⟨rfl, ?_⟩ rfl rfl rfl rfl ha (by simp)⟩
    rw [he] at hl
    exact hl
  | pushRecordFail x rec ha =>
    refine ⟨list, .retry x rec ?_ rfl rfl rfl rfl ha ha⟩
    exact hl.congr (fun q hq => Function.update_of_ne (ne_of_mem_of_not_mem hq (h.fresh ha)) _ _)
  | countRecord x rec ha => exact ⟨list, .count x rec hl rfl rfl rfl rfl ha (by simp)⟩
  | retract x rec latest src again ha hh =>
    refine ⟨list, .quiet hl rfl hsame rfl rfl (hhold ha rfl) (hself ?_)⟩
    cases again <;> rfl
  | swap x x' rec rec' ha hh hh' hf hf' =>
    refine ⟨list, .quiet hl rfl ?_ rfl rfl (hhold ha rfl) (hhold ha rfl)⟩
    intro y r hy
    by_cases hyx : y = x
    · refine ⟨x', ?_⟩
      rw [hyx, hh] at hy
      simpa [State.setHolder] using hy
    · by_cases hyx' : y = x'
      · refine ⟨x, ?_⟩
        rw [hyx', hh'] at hy
        have hne : x ≠ x' := fun he => hyx (hyx'.trans he.symm)
        simpa [State.setHolder, hne] using hy
      · exact ⟨y, by simpa [State.setHolder, hyx, hyx'] using hy⟩
  | destroy x rec ha hu hh hf => exact ⟨list, .destroy x rec hl hu hh rfl rfl rfl rfl ha (by simp)⟩
  | destroyCached x rec ha hu hh hf =>
    refine ⟨list, ?_⟩
    unfold State.freeCachedRec
    split
    · rename_i hlt
      have hlt' : (s.pool t).length < recordCacheSize := hlt
      exact .cache x rec hl hu hh rfl rfl (if_pos hlt').symm rfl ha ha
    · rename_i hlt
      have hlt' : ¬ (s.pool t).length < recordCacheSize := hlt
      exact .cache x rec hl hu hh rfl rfl (if_neg hlt').symm rfl ha ha
  | releaseRecord rec ha => exact ⟨list, .release rec [] hl rfl rfl rfl rfl (.inl ⟨ha, by simp⟩)⟩
  | countLeft b rest ha hs => exact ⟨list, finish_reuse hl rfl rfl rfl rfl (hhold ha rfl)⟩
  | loadHazptrCount cnt ha =>
    refine ⟨list, ?_⟩
    split
    · exact finish_reuse hl rfl rfl rfl rfl (hhold ha rfl)
    · exact .quiet hl rfl hsame rfl rfl (hhold ha rfl) (hself rfl)
  | loadRecords ha =>
    rw [scanAt_eq]
    refine ⟨list, .quiet hl rfl hsame rfl rfl (hhold ha rfl) (hself ?_)⟩
    cases s.hazptrList <;> rfl
  | scan rec b rest ha hs =>
    rw [scanAt_eq]
    refine ⟨list, .quiet hl rfl hsame rfl rfl (hhold ha rfl) (hself ?_)⟩
    cases s.recNext rec <;> rfl
  | keep x b rest ha hs hp hset =>
    refine ⟨list, .quiet hl rfl hsame rfl rfl (hhold ha rfl) ?_⟩
    simp [State.setBatch, State.setThread, ha, Act.aside, Act.holding, Act.gone]
  | reclaimed b rest ha hs hp hleft => exact ⟨list, finish_reuse hl rfl rfl rfl rfl (hhold ha rfl)⟩
  | exit ha hs he =>
    refine ⟨list, ?_⟩
    unfold State.exit
    split
    · exact .quiet hl rfl hsame rfl rfl (hhold ha rfl) (by simp [State.setThread, Act.aside, Act.holding, Act.gone])
    · exact .drain hl rfl rfl rfl rfl (hhold ha rfl) (by simp [State.setThread])
  | dropCached rec rest ha => exact ⟨list, .release rec rest hl rfl rfl rfl rfl (.inr ⟨ha, by simp⟩)⟩
  | exited ha => exact ⟨list, .leave hl rfl rfl rfl rfl ha (by simp)⟩
  | store c v ha | reset x rec p ha | appendFail source tail ha =>
    exact ⟨list, .quiet hl rfl hsame rfl rfl (hhold ha rfl) (hhold ha rfl)⟩
  | tryProtect x rec p src ha | getProtected x rec src ha | publish x rec p src ha | validateOk x p src again ha
  | validateFail x p src again ha | link source tail ha | appendOk source tail ha | countPriv ha | loadCount ha
  | casCountOk cnt ha | casCountFail cnt ha | exchange ha | delete x b rest ha | destructed b rest ha
  | appendLeft b rest ha =>
    exact ⟨list, .quiet hl rfl hsame rfl rfl (hhold ha rfl) (hself rfl)⟩

end Inversion

end Wizard.Hazptr
