import Wizard.HazptrSafe
import Wizard.Tally

/-! The count of retired objects. `append` adds to `_retired_count` after it has linked
its objects in, and `tryBulkReclaim` sets the count to zero before it takes the list, so
the count may run behind the list only while some thread is between two such steps. It is
an `int`, and what has been linked in and not taken may be more than it holds. -/

namespace Wizard.Hazptr

variable {Obj Rec Cell Holder Tid : Type*}

/-- Inside `append`, `tryBulkReclaim` or `bulkReclaim`. -/
def Act.inside : Act Obj Rec Cell Holder → Bool
  | .link _ | .append _ | .countRetired _ | .loadCount | .loadHazptrCount _ | .casCount _
  | .exchange | .loadRecords | .scan _ | .reclaim => true
  | _ => false

def State.Inside (s : State Obj Rec Cell Holder Tid) (t : Tid) : Prop :=
  (s.thread t).act.inside = true ∨ (s.thread t).stack ≠ []

/-- Calls do not overlap. -/
def State.Apart (s : State Obj Rec Cell Holder Tid) : Prop :=
  ∀ t u, s.Inside t → s.Inside u → t = u

/-- Between the two steps of `append`, or of `tryBulkReclaim`. -/
def Act.counting : Act Obj Rec Cell Holder → Bool
  | .countRetired _ | .exchange => true
  | _ => false

/-- What the thread has linked in and not yet counted. -/
def State.pending (s : State Obj Rec Cell Holder Tid) (t : Tid) : Int :=
  match (s.thread t).act with
  | .countRetired .priv => (s.privList t).count
  | .countRetired .left =>
    match (s.thread t).stack with
    | b :: _ => b.leftList.count
    | [] => 0
  | _ => 0

/-- What `t` adds to `_retired_count`, if that is its step, fits in an `int`. -/
def State.Fits (s : State Obj Rec Cell Holder Tid) (t : Tid) : Prop :=
  s.retiredCount + s.pending t < 2 ^ 31

instance (s : State Obj Rec Cell Holder Tid) (t : Tid) : Decidable (s.Fits t) :=
  inferInstanceAs (Decidable (_ < _))

/-- The count of each list fits in an `int`, and so does the threshold of the records. -/
structure State.Small (s : State Obj Rec Cell Holder Tid) : Prop where
  priv : ∀ t, (s.privList t).count < 2 ^ 31
  left : ∀ t, ∀ b ∈ (s.thread t).stack, b.leftList.count < 2 ^ 31
  records : scanMult * s.hazptrCount < 2 ^ 31

variable {s s' : State Obj Rec Cell Holder Tid} {own own' : Spot Tid → List Obj} {t : Tid}

theorem pending_eq_zero (h : (s.thread t).act.counting = false) : s.pending t = 0 := by
  unfold State.pending
  split <;> simp_all [Act.counting]

theorem inside_of_counting (h : (s.thread t).act.counting = true) : s.Inside t := by
  left
  revert h
  cases (s.thread t).act <;> simp [Act.counting, Act.inside]

theorem pending_congr (h : s'.thread t = s.thread t) (hp : s'.privList t = s.privList t) :
    s'.pending t = s.pending t := by
  unfold State.pending
  rw [h, hp]

/-- How a step changes the retired list, its count and what is still to be counted. -/
inductive CountStep (s s' : State Obj Rec Cell Holder Tid) (l : List Obj) (t : Tid) : Prop
  | quiet (ha : (s.thread t).act.counting = false) (ha' : (s'.thread t).act.counting = false)
      (hl : Segment s'.next s'.retiredList l none) (hc : s'.retiredCount = s.retiredCount)
  | push (xs) (ha : (s.thread t).act.counting = false) (ha' : (s'.thread t).act ≠ .exchange)
      (hi : (s'.thread t).act.counting = true) (hp : s'.pending t = xs.length)
      (hl : Segment s'.next s'.retiredList (xs ++ l) none) (hc : s'.retiredCount = s.retiredCount)
  | add (ha : (s.thread t).act ≠ .exchange) (hi : (s.thread t).act.counting = true)
      (ha' : (s'.thread t).act.counting = false) (hl : Segment s'.next s'.retiredList l none)
      (hc : s'.retiredCount = wrap (s.retiredCount + s.pending t))
  | reset (ha : (s.thread t).act.counting = false) (ha' : (s'.thread t).act = .exchange)
      (hl : Segment s'.next s'.retiredList l none) (hc : s'.retiredCount = 0)
  | take (ha : (s.thread t).act = .exchange) (ha' : (s'.thread t).act.counting = false)
      (hl : Segment s'.next s'.retiredList [] none) (hc : s'.retiredCount = s.retiredCount)

variable [DecidableEq Tid]

theorem finish_counting (s : State Obj Rec Cell Holder Tid) (t : Tid) :
    ((s.finish t).thread t).act.counting = false := by
  unfold State.finish
  split <;> simp [State.setAct, State.setThread, Act.counting]

theorem searchAt_counting (s : State Obj Rec Cell Holder Tid) (t : Tid) (x : Holder) (rec : Option Rec) :
    ((s.searchAt t x rec).thread t).act.counting = false := by
  cases rec <;> simp [State.searchAt, State.setAct, State.setThread, Act.counting]

theorem finish_lists (s : State Obj Rec Cell Holder Tid) (t : Tid) :
    (s.finish t).next = s.next ∧ (s.finish t).retiredList = s.retiredList ∧
      (s.finish t).retiredCount = s.retiredCount ∧ (s.finish t).privList = s.privList := by
  obtain ⟨a, pool, -, -, he⟩ := finish_eq s t
  rw [he]
  exact ⟨rfl, rfl, rfl, rfl⟩

theorem searchAt_lists (s : State Obj Rec Cell Holder Tid) (t : Tid) (x : Holder) (rec : Option Rec) :
    (s.searchAt t x rec).next = s.next ∧ (s.searchAt t x rec).privList = s.privList := by
  obtain ⟨a, -, he⟩ := searchAt_eq s t x rec
  rw [he]
  exact ⟨rfl, rfl⟩

variable [DecidableEq Obj]

omit [DecidableEq Tid] [DecidableEq Obj] in
theorem push_count (l : DoubleLinkedList Obj) (y : Obj) : (l.push y).count = l.count + 1 := by
  unfold DoubleLinkedList.push
  split <;> rfl

omit [DecidableEq Tid] [DecidableEq Obj] in
theorem push_tail (l : DoubleLinkedList Obj) (y : Obj) : (l.push y).tail = some y := by
  unfold DoubleLinkedList.push
  split <;> rfl

/-- The object is in the private list. -/
def State.pushed (s : State Obj Rec Cell Holder Tid) (t : Tid) (y : Obj) : State Obj Rec Cell Holder Tid :=
  { s with
    next := (s.privList t).link s.next y
    privList := Function.update s.privList t ((s.privList t).push y)
    retired := fun z => z = y ∨ s.retired z }

theorem pushed_self (y : Obj) : (s.pushed t y).privList t = (s.privList t).push y := Function.update_self ..

theorem retire_below {x : Obj} (h : ¬ (scanThreshold ≤ (s.privList t).count + 1 ∧
    scanMult * s.hazptrCount ≤ (s.privList t).count + 1)) : s.retire t x = s.pushed t x := by
  rw [← push_count _ x] at h
  exact if_neg h

theorem retire_reached {x : Obj} (h : scanThreshold ≤ (s.privList t).count + 1 ∧
    scanMult * s.hazptrCount ≤ (s.privList t).count + 1) :
    s.retire t x = (s.pushed t x).setAct t (.link .priv) := by
  rw [← push_count _ x] at h
  exact if_pos h

omit [DecidableEq Tid] [DecidableEq Obj] in
theorem Lists.source_tail (h : Lists s own) {source : Source} {tail : Obj}
    (ha : (s.thread t).act = .link source ∨ (s.thread t).act = .append source)
    (hl : (s.source t source).tail = some tail) :
    ∃ p, p.thread? = some t ∧ Items s.next (s.source t source) (own p) ∧ tail ∈ own p := by
  have hmem : ∀ p, Items s.next (s.source t source) (own p) → tail ∈ own p := by
    intro p hi
    obtain ⟨ys, hys⟩ := hi.concat_of_tail hl
    simp [hys]
  cases source with
  | priv =>
    have hs : Settled s.next own t (s.privList t) (s.thread t).stack := by
      apply h.settled
      rcases ha with ha | ha <;> rw [ha] <;> rfl
    exact ⟨.priv t, rfl, hs.priv, hmem _ hs.priv⟩
  | left =>
    obtain ⟨hs, b, rest, hstack, -⟩ := h.left_settled ha
    rw [hstack] at hs
    have hi : Items s.next (s.source t .left) (own (.left t rest.length)) := by
      simp only [State.source, hstack]
      exact hs.batches.2.1
    exact ⟨.left t rest.length, rfl, hi, hmem _ hi⟩

omit [DecidableEq Tid] in
theorem Lists.source_ne (h : Lists s own) {source : Source} {tail : Obj} (r : Option Obj)
    (ha : (s.thread t).act = .link source ∨ (s.thread t).act = .append source)
    (hl : (s.source t source).tail = some tail) {q : Spot Tid} (hq : q.thread? ≠ some t) :
    ∀ y ∈ own q, Function.update s.next tail r y = s.next y := by
  obtain ⟨p, hp, -, htail⟩ := h.source_tail ha hl
  intro y hy
  refine h.next_update htail ?_ hy
  intro he
  rw [he] at hq
  exact hq hp

variable [DecidableEq Rec] [DecidableEq Cell] [DecidableEq Holder]

theorem next_frame {useCache : Bool} (hstep : Step useCache t s s') (h : Lists s own) {q : Spot Tid}
    (hq : q.thread? ≠ some t) : ∀ y ∈ own q, s'.next y = s.next y := by
  have hne : ∀ {p : Spot Tid}, p.thread? = some t → ∀ y ∈ own q, y ∉ own p := by
    intro p hp y hy hy'
    rw [h.spot_eq hy hy'] at hq
    exact hq hp
  intro y hy
  cases hstep with
  | retire x ha hx hcell =>
    have hs := h.settled (t := t) (by rw [ha]; rfl)
    have hlink : (s.privList t).link s.next x y = s.next y := by
      refine hs.priv.link_of_ne ?_ (hne (p := .priv t) rfl y hy)
      intro hyx
      rw [hyx] at hy
      exact h.not_mem_of_fresh hx _ hy
    unfold State.retire
    split <;> exact hlink
  | link source tail ha ht => exact h.source_ne s.retiredList (.inl ha) ht hq y hy
  | appendFail source tail ha ht => exact h.source_ne s.retiredList (.inr ha) ht hq y hy
  | keep x b rest ha hs hp hset =>
    obtain ⟨l, hrest, -⟩ := h.rest_cons ha hs hp
    have hsettled := h.settled (t := t) (by rw [ha]; rfl)
    rw [hs] at hsettled
    refine hsettled.batches.2.1.link_of_ne ?_ (hne (p := .left t rest.length) rfl y hy)
    intro hyx
    refine hne (p := .rest t rest.length) rfl y hy ?_
    simp [hrest, hyx]
  | acquire x ha hu hh hf => exact congrFun (searchAt_lists s t x s.hazptrList).1 y
  | loadActive x rec ha =>
    split
    · exact congrFun (searchAt_lists s t x (s.recNext rec)).1 y
    · rfl
  | casActiveFail x rec ha hr => exact congrFun (searchAt_lists s t x (s.recNext rec)).1 y
  | destroyCached x rec ha hu hh hf =>
    unfold State.freeCachedRec
    split <;> rfl
  | countLeft b rest ha hs => exact congrFun (finish_lists _ t).1 y
  | loadHazptrCount cnt ha =>
    split
    · exact congrFun (finish_lists _ t).1 y
    · rfl
  | loadRecords ha =>
    rw [scanAt_eq]
    rfl
  | scan rec b rest ha hs =>
    rw [scanAt_eq]
    rfl
  | reclaimed b rest ha hs hp hl => exact congrFun (finish_lists _ t).1 y
  | exit ha hs he =>
    obtain ⟨pool, th, hexit⟩ := exit_eq s t
    rw [hexit]
    rfl
  | _ => rfl

theorem count_step {useCache : Bool} (hstep : Step useCache t s s') (h : Lists s own) :
    CountStep s s' (own .retiredList) t := by
  have hl := h.retiredList
  have hnext : Segment s'.next s.retiredList (own .retiredList) none :=
    h.retiredList.congr (next_frame hstep h (q := .retiredList) (by simp [Spot.thread?]))
  have hcount : ∀ {a b : Act Obj Rec Cell Holder}, a = b → b.counting = false → a.counting = false := by
    intro a b hab hb
    rw [hab]
    exact hb
  have hself : ∀ {σ : State Obj Rec Cell Holder Tid} {a : Act Obj Rec Cell Holder}, a.counting = false →
      ((σ.setAct t a).thread t).act.counting = false := by
    intro σ a ha
    simpa [State.setAct, State.setThread] using ha
  cases hstep with
  | store c v ha hv => exact .quiet (hcount ha rfl) (hcount ha rfl) hl rfl
  | retire x ha hx hcell =>
    revert hnext
    unfold State.retire
    split
    · exact fun hnext => .quiet (hcount ha rfl) (hself rfl) hnext rfl
    · exact fun hnext => .quiet (hcount ha rfl) (hcount ha rfl) hnext rfl
  | acquire x ha hu hh hf =>
    obtain ⟨a, -, he⟩ := searchAt_eq s t x s.hazptrList
    have ha' := searchAt_counting s t x s.hazptrList
    rw [he] at ha' ⊢
    exact .quiet (hcount ha rfl) ha' hl rfl
  | loadActive x rec ha =>
    split
    · obtain ⟨a, -, he⟩ := searchAt_eq s t x (s.recNext rec)
      have ha' := searchAt_counting s t x (s.recNext rec)
      rw [he] at ha' ⊢
      exact .quiet (hcount ha rfl) ha' hl rfl
    · exact .quiet (hcount ha rfl) (hself rfl) hl rfl
  | casActiveFail x rec ha hr =>
    obtain ⟨a, -, he⟩ := searchAt_eq s t x (s.recNext rec)
    have ha' := searchAt_counting s t x (s.recNext rec)
    rw [he] at ha' ⊢
    exact .quiet (hcount ha rfl) ha' hl rfl
  | retract x rec latest src again ha hh =>
    cases again <;> exact .quiet (hcount ha rfl) (hself rfl) hl rfl
  | destroyCached x rec ha hu hh hf =>
    unfold State.freeCachedRec
    split <;> exact .quiet (hcount ha rfl) (hcount ha rfl) hl rfl
  | link source tail ha ht => exact .quiet (hcount ha rfl) (hself rfl) hnext rfl
  | appendOk source tail ha ht he =>
    obtain ⟨p, -, hi, -⟩ := h.source_tail (.inr ha) ht
    refine .push (own p) (hcount ha rfl) ?_ ?_ ?_ ?_ rfl
    · simp
    · simp [Act.counting]
    · rw [← hi.count]
      cases source with
      | priv => simp [State.pending, State.setAct, State.setThread, State.source]
      | left =>
        obtain ⟨-, b, rest, hstack, -⟩ := h.left_settled (.inr ha)
        simp [State.pending, State.setAct, State.setThread, State.source, hstack]
    · have hseg := hi.segment_tail ht
      rw [← he] at hseg
      exact hseg.append hl
  | appendFail source tail ha ht => exact .quiet (hcount ha rfl) (hcount ha rfl) hnext rfl
  | countPriv ha =>
    refine .add (by simp [ha]) (by simp [ha, Act.counting]) (hself rfl) hl ?_
    simp [State.pending, ha, State.setAct, State.setThread]
  | countLeft b rest ha hs =>
    obtain ⟨h1, h2, h3, -⟩ := finish_lists ({ s with
      retiredCount := wrap (s.retiredCount + b.leftList.count) }.setThread t { s.thread t with stack := rest }) t
    refine .add (by simp [ha]) (by simp [ha, Act.counting]) (finish_counting _ t) ?_ ?_
    · rw [h1, h2]
      exact hl
    · rw [h3]
      simp [State.pending, ha, hs, State.setThread]
  | loadHazptrCount cnt ha =>
    split
    · obtain ⟨h1, h2, h3, -⟩ := finish_lists s t
      refine .quiet (hcount ha rfl) (finish_counting s t) ?_ h3
      rw [h1, h2]
      exact hl
    · exact .quiet (hcount ha rfl) (hself rfl) hl rfl
  | casCountOk cnt ha he => exact .reset (hcount ha rfl) (by simp) hl rfl
  | exchange ha => exact .take ha (hself rfl) rfl rfl
  | loadRecords ha =>
    cases hh : s.hazptrList <;>
      exact .quiet (hcount ha rfl) (by simp [State.scanAt, Act.counting]) hl
        (by simp [State.scanAt, State.setAct, State.setThread])
  | scan rec b rest ha hs =>
    rw [scanAt_eq]
    refine .quiet (hcount ha rfl) (hself ?_) hl rfl
    cases s.recNext rec <;> rfl
  | keep x b rest ha hs hp hset =>
    refine .quiet (hcount ha rfl) ?_ hnext rfl
    simp [State.setBatch, State.setThread, ha, Act.counting]
  | reclaimed b rest ha hs hp hleft =>
    obtain ⟨h1, h2, h3, -⟩ := finish_lists (s.setThread t { s.thread t with stack := rest }) t
    refine .quiet (hcount ha rfl) (finish_counting _ t) ?_ h3
    rw [h1, h2]
    exact hl
  | exit ha hs he =>
    unfold State.exit
    split <;> exact .quiet (hcount ha rfl) (by simp [State.setThread, Act.counting]) hl rfl
  | acquireCached x rec rest ha | pushRecordFail x rec ha | reset x rec p ha | swap x x' rec rec' ha =>
    exact .quiet (hcount ha rfl) (hcount ha rfl) hl rfl
  | acquireFresh x ha | casActiveOk x rec ha | newRecord x rec ha | pushRecordOk x rec ha | countRecord x rec ha
  | tryProtect x rec p src ha | getProtected x rec src ha | publish x rec p src ha
  | validateOk x p src again ha | validateFail x p src again ha | destroy x rec ha | releaseRecord rec ha
  | loadCount ha | casCountFail cnt ha | delete x b rest ha | destructed b rest ha | appendLeft b rest ha
  | dropCached rec rest ha | exited ha =>
    exact .quiet (hcount ha rfl) (hself rfl) hl rfl

theorem privList_other {useCache : Bool} (hstep : Step useCache t s s')
    {u : Tid} (hu : u ≠ t) : s'.privList u = s.privList u := by
  cases hstep with
  | retire x ha hx hcell =>
    unfold State.retire
    split <;> exact Function.update_of_ne hu _ _
  | acquire x ha hu' hh hf => exact congrFun (searchAt_lists s t x s.hazptrList).2 u
  | loadActive x rec ha =>
    split
    · exact congrFun (searchAt_lists s t x (s.recNext rec)).2 u
    · rfl
  | casActiveFail x rec ha hr => exact congrFun (searchAt_lists s t x (s.recNext rec)).2 u
  | destroyCached x rec ha hu' hh hf =>
    unfold State.freeCachedRec
    split <;> rfl
  | countPriv ha => exact Function.update_of_ne hu _ _
  | countLeft b rest ha hs => exact congrFun (finish_lists _ t).2.2.2 u
  | loadHazptrCount cnt ha =>
    split
    · exact congrFun (finish_lists _ t).2.2.2 u
    · rfl
  | loadRecords ha =>
    rw [scanAt_eq]
    rfl
  | scan rec b rest ha hs =>
    rw [scanAt_eq]
    rfl
  | reclaimed b rest ha hs hp hl => exact congrFun (finish_lists _ t).2.2.2 u
  | exit ha hs he =>
    obtain ⟨pool, th, hexit⟩ := exit_eq s t
    rw [hexit]
    rfl
  | _ => rfl

/-- `S` has all threads that are between two steps. -/
structure Counted (s : State Obj Rec Cell Holder Tid) (l : List Obj) (S : Finset Tid) : Prop where
  linked : Segment s.next s.retiredList l none
  nonneg : 0 ≤ s.retiredCount
  pending : ∀ t, 0 ≤ s.pending t
  outside : ∀ t, t ∉ S → (s.thread t).act.counting = false
  covers : (∀ t, (s.thread t).act ≠ .exchange) → (l.length : Int) ≤ s.retiredCount + ∑ t ∈ S, s.pending t

/-- What holds as well while calls do not overlap. -/
structure Exact (s : State Obj Rec Cell Holder Tid) (l : List Obj) (S : Finset Tid) : Prop where
  eq : (∀ t, (s.thread t).act ≠ .exchange) → (l.length : Int) = s.retiredCount + ∑ t ∈ S, s.pending t
  zero : ∀ t, (s.thread t).act = .exchange → s.retiredCount = 0

section Counting

variable {l : List Obj} {S : Finset Tid}

omit [DecidableEq Tid] [DecidableEq Obj] [DecidableEq Rec] [DecidableEq Cell] [DecidableEq Holder] in
theorem ne_exchange {a : Act Obj Rec Cell Holder} (h : a.counting = false) : a ≠ .exchange := by
  intro he
  rw [he] at h
  cases h

omit [DecidableEq Obj] [DecidableEq Rec] [DecidableEq Cell] [DecidableEq Holder] in
theorem Counted.sum_insert (h : Counted s l S) (t : Tid) :
    ∑ u ∈ insert t S, s.pending u = ∑ u ∈ S, s.pending u := by
  symm
  apply Finset.sum_subset (Finset.subset_insert t S)
  intro u _ hu
  exact pending_eq_zero (h.outside u hu)

/-- The sum follows the one thread that moves. -/
theorem Counted.sum {useCache : Bool} (h : Counted s l S) (hstep : Step useCache t s s') :
    ∑ u ∈ insert t S, s'.pending u + s.pending t = ∑ u ∈ S, s.pending u + s'.pending t := by
  rw [← h.sum_insert t]
  apply sum_change (Finset.mem_insert_self t S)
  intro u _ hu
  exact pending_congr (step_other hstep hu) (privList_other hstep hu)

/-- If nobody is about to exchange after a step of another kind, nobody was before it. -/
theorem ne_exchange_of_step {useCache : Bool} (hstep : Step useCache t s s') (ht : (s.thread t).act ≠ .exchange)
    (hall : ∀ u, (s'.thread u).act ≠ .exchange) (u : Tid) : (s.thread u).act ≠ .exchange := by
  by_cases hu : u = t
  · rw [hu]
    exact ht
  · rw [← step_other hstep hu]
    exact hall u

theorem Counted.step {useCache : Bool} (h : Counted s l S) (hstep : Step useCache t s s')
    (hc : CountStep s s' l t) (hf : s.Fits t) : ∃ l', Counted s' l' (insert t S) := by
  have hsum := h.sum hstep
  have hpend : 0 ≤ s'.pending t → ∀ u, 0 ≤ s'.pending u := by
    intro ht u
    by_cases hu : u = t
    · rw [hu]
      exact ht
    · rw [pending_congr (step_other hstep hu) (privList_other hstep hu)]
      exact h.pending u
  have hout : ∀ u, u ∉ insert t S → (s'.thread u).act.counting = false := by
    intro u hu
    rw [Finset.mem_insert, not_or] at hu
    rw [step_other hstep hu.1]
    exact h.outside u hu.2
  have hzero : ∀ {σ : State Obj Rec Cell Holder Tid}, (σ.thread t).act.counting = false → 0 ≤ σ.pending t := by
    intro σ hσ
    rw [pending_eq_zero hσ]
  cases hc with
  | quiet ha ha' hl hcnt =>
    refine ⟨l, hl, by rw [hcnt]; exact h.nonneg, hpend (hzero ha'), hout, fun hall => ?_⟩
    have hcov := h.covers (ne_exchange_of_step hstep (ne_exchange ha) hall)
    rw [pending_eq_zero ha, pending_eq_zero ha'] at hsum
    omega
  | push xs ha ha' hi hp hl hcnt =>
    refine ⟨xs ++ l, hl, by rw [hcnt]; exact h.nonneg, hpend (by omega), hout, fun hall => ?_⟩
    have hcov := h.covers (ne_exchange_of_step hstep (ne_exchange ha) hall)
    rw [pending_eq_zero ha] at hsum
    rw [List.length_append]
    omega
  | add ha hi ha' hl hcnt =>
    have hn := h.nonneg
    have hp := h.pending t
    rw [wrap_eq (by omega) hf] at hcnt
    refine ⟨l, hl, by omega, hpend (hzero ha'), hout, fun hall => ?_⟩
    have hcov := h.covers (ne_exchange_of_step hstep ha hall)
    rw [pending_eq_zero ha'] at hsum
    omega
  | reset ha ha' hl hcnt =>
    have hp : s'.pending t = 0 := by simp [State.pending, ha']
    exact ⟨l, hl, by omega, hpend (by omega), hout, fun hall => absurd ha' (hall t)⟩
  | take ha ha' hl hcnt =>
    have hn := h.nonneg
    refine ⟨[], hl, by omega, hpend (hzero ha'), hout, fun _ => ?_⟩
    have hs := Finset.sum_nonneg (fun u (_ : u ∈ insert t S) => hpend (hzero ha') u)
    simp only [List.length_nil]
    omega

/-- Nobody else counts while the one thread that is inside does. -/
theorem Exact.step {useCache : Bool} (h : Exact s l S) (hcount : Counted s l S) (hstep : Step useCache t s s')
    (hc : CountStep s s' l t) (hf : s.Fits t) (hap : s.Apart) (hap' : s'.Apart) {l' : List Obj}
    (h' : Counted s' l' (insert t S)) : Exact s' l' (insert t S) := by
  have hsum := hcount.sum hstep
  have hother : ∀ u, u ≠ t → (s'.thread u).act = (s.thread u).act := by
    intro u hu
    rw [step_other hstep hu]
  have hcounting : ∀ {a : Act Obj Rec Cell Holder}, a = .exchange → a.counting = true := by
    intro a ha
    rw [ha]
    rfl
  cases hc with
  | quiet ha ha' hl hcnt =>
    obtain rfl := h'.linked.unique hl
    rw [pending_eq_zero ha, pending_eq_zero ha'] at hsum
    constructor
    · intro hall
      have heq := h.eq (ne_exchange_of_step hstep (ne_exchange ha) hall)
      omega
    · intro u hu
      have hut : u ≠ t := by
        intro hut
        rw [hut] at hu
        exact ne_exchange ha' hu
      rw [hcnt]
      exact h.zero u (by rw [← hother u hut]; exact hu)
  | push xs ha ha' hi hp hl hcnt =>
    obtain rfl := h'.linked.unique hl
    rw [pending_eq_zero ha] at hsum
    constructor
    · intro hall
      have heq := h.eq (ne_exchange_of_step hstep (ne_exchange ha) hall)
      rw [List.length_append]
      omega
    · intro u hu
      have hut := hap' u t (inside_of_counting (hcounting hu)) (inside_of_counting hi)
      rw [hut] at hu
      exact absurd hu ha'
  | add ha hi ha' hl hcnt =>
    obtain rfl := h'.linked.unique hl
    have hn := h'.nonneg
    have hp := hcount.pending t
    have hn₀ := hcount.nonneg
    rw [wrap_eq (by omega) hf] at hcnt
    rw [pending_eq_zero ha'] at hsum
    constructor
    · intro hall
      have heq := h.eq (ne_exchange_of_step hstep ha hall)
      omega
    · intro u hu
      have hut : u ≠ t := by
        intro hut
        rw [hut] at hu
        exact ne_exchange ha' hu
      rw [hother u hut] at hu
      exact absurd (hap u t (inside_of_counting (hcounting hu)) (inside_of_counting hi)) hut
  | reset ha ha' hl hcnt =>
    constructor
    · intro hall
      exact absurd ha' (hall t)
    · intro u hu
      exact hcnt
  | take ha ha' hl hcnt =>
    obtain rfl := h'.linked.unique hl
    have hz := h.zero t ha
    have hall : ∀ u ∈ insert t S, s'.pending u = 0 := by
      intro u _
      by_cases hut : u = t
      · rw [hut, pending_eq_zero ha']
      · apply pending_eq_zero
        rw [hother u hut]
        by_contra hu
        rw [Bool.not_eq_false] at hu
        exact hut (hap u t (inside_of_counting hu) (inside_of_counting (hcounting ha)))
    constructor
    · intro _
      rw [hcnt, hz, Finset.sum_eq_zero hall]
      rfl
    · intro u _
      rw [hcnt, hz]

omit [DecidableEq Tid] [DecidableEq Obj] [DecidableEq Rec] [DecidableEq Cell] [DecidableEq Holder] in
theorem counted_init (hs : Init s) : Counted s [] ∅ ∧ Exact s [] ∅ := by
  have hact : ∀ t, (s.thread t).act.counting = false := by
    intro t
    rw [hs.thread]
    rfl
  constructor
  · refine ⟨hs.retiredList, by rw [hs.retiredCount], fun t => by rw [pending_eq_zero (hact t)],
      fun t _ => hact t, fun _ => ?_⟩
    simp [hs.retiredCount]
  · refine ⟨fun _ => by simp [hs.retiredCount], fun t _ => hs.retiredCount⟩

/-- A step in which no `int` overflows. -/
def FitStep (useCache : Bool) (s s' : State Obj Rec Cell Holder Tid) : Prop :=
  (∃ t, Step useCache t s s' ∧ s.Fits t) ∧ s'.Small

theorem FitStep.next {useCache : Bool} (h : FitStep useCache s s') : Next useCache s s' := by
  obtain ⟨⟨t, hstep, -⟩, -⟩ := h
  exact ⟨t, hstep⟩

/-- The retired list and the threads that are counting. -/
theorem reachable_counted {useCache : Bool} (hs : Reachable Init (FitStep useCache) s) :
    ∃ l S, Counted s l S := by
  apply hs.invariant
  · intro s₀ h₀
    exact ⟨[], ∅, (counted_init h₀).1⟩
  · rintro s₁ s₂ hs₁ ⟨l, S, h⟩ ⟨⟨t, hstep, hf⟩, -⟩
    obtain ⟨own, hown⟩ := reachable_lists (hs₁.mono fun _ _ => FitStep.next)
    have hc := count_step hstep hown
    rw [hown.retiredList.unique h.linked] at hc
    obtain ⟨l', h'⟩ := h.step hstep hc hf
    exact ⟨l', _, h'⟩

theorem reachable_exact {useCache : Bool} (hs : Reachable Init (Within (FitStep useCache) State.Apart) s) :
    s.Apart ∧ ∃ l S, Counted s l S ∧ Exact s l S := by
  apply hs.invariant
  · intro s₀ h₀
    refine ⟨?_, [], ∅, counted_init h₀⟩
    rintro t u (ht | ht)
    · rw [h₀.thread] at ht
      cases ht
    · rw [h₀.thread] at ht
      exact absurd rfl ht
  · rintro s₁ s₂ hs₁ ⟨hap, l, S, h, he⟩ ⟨⟨⟨t, hstep, hf⟩, -⟩, hap'⟩
    obtain ⟨own, hown⟩ := reachable_lists (hs₁.of_within.mono fun _ _ => FitStep.next)
    have hc := count_step hstep hown
    rw [hown.retiredList.unique h.linked] at hc
    obtain ⟨l', h'⟩ := h.step hstep hc hf
    exact ⟨hap', l', _, h', he.step h hstep hc hf hap hap' h'⟩

omit [DecidableEq Tid] [DecidableEq Obj] [DecidableEq Rec] [DecidableEq Cell] [DecidableEq Holder] in
theorem counting_of_not_inside (h : ¬ s.Inside t) : (s.thread t).act.counting = false := by
  by_contra hc
  rw [Bool.not_eq_false] at hc
  exact h (inside_of_counting hc)

omit [DecidableEq Tid] [DecidableEq Obj] [DecidableEq Rec] [DecidableEq Cell] [DecidableEq Holder] in
theorem Counted.length_le (h : Counted s l S) (hidle : ∀ t, (s.thread t).act.counting = false) :
    (l.length : Int) ≤ s.retiredCount := by
  have hcov := h.covers (fun t => ne_exchange (hidle t))
  rw [Finset.sum_eq_zero (fun t _ => pending_eq_zero (hidle t))] at hcov
  omega

omit [DecidableEq Tid] [DecidableEq Obj] [DecidableEq Rec] [DecidableEq Cell] [DecidableEq Holder] in
theorem Exact.length_eq (h : Exact s l S) (hidle : ∀ t, (s.thread t).act.counting = false) :
    (l.length : Int) = s.retiredCount := by
  rw [h.eq (fun t => ne_exchange (hidle t)), Finset.sum_eq_zero (fun t _ => pending_eq_zero (hidle t)), add_zero]

end Counting

/-- `tryBulkReclaim` from its first load to the exchange, on the list and the counts of `s₀`. -/
structure Trying (s₀ s : State Obj Rec Cell Holder Tid) (t : Tid) : Prop where
  list : s.retiredList = s₀.retiredList
  act : (s.thread t).act = .exchange ∨ s.retiredCount = s₀.retiredCount ∧ s.hazptrCount = s₀.hazptrCount ∧
    ((s.thread t).act = .loadCount ∨ (s.thread t).act = .loadHazptrCount s₀.retiredCount ∨
      (s.thread t).act = .casCount s₀.retiredCount)

/-- `t` has exchanged the list of `s₀` on the way from `s₀` to `s`. -/
def Collected (useCache : Bool) (t : Tid) (s₀ s : State Obj Rec Cell Holder Tid) : Prop :=
  ∃ s₁ s₂, Relation.ReflTransGen (Step useCache t) s₀ s₁ ∧ (s₁.thread t).act = .exchange ∧
    s₁.retiredList = s₀.retiredList ∧ Step useCache t s₁ s₂ ∧ Relation.ReflTransGen (Step useCache t) s₂ s

/-- The steps of `tryBulkReclaim` before the exchange. -/
def TryStep (s s' : State Obj Rec Cell Holder Tid) (t : Tid) : Act Obj Rec Cell Holder → Prop
  | .loadCount => s' = s.setAct t (.loadHazptrCount s.retiredCount)
  | .loadHazptrCount cnt =>
    s' = if cnt < scanThreshold ∨ cnt < scanMult * s.hazptrCount then s.finish t else s.setAct t (.casCount cnt)
  | .casCount _ => s' = { s with retiredCount := 0 }.setAct t .exchange ∨
      s' = s.setAct t (.loadHazptrCount s.retiredCount)
  | _ => True

theorem try_step {useCache : Bool} (hstep : Step useCache t s s') : TryStep s s' t (s.thread t).act := by
  cases hstep with
  | loadCount ha =>
    rw [ha]
    rfl
  | loadHazptrCount cnt ha =>
    rw [ha]
    rfl
  | casCountOk cnt ha he =>
    rw [ha]
    exact .inl rfl
  | casCountFail cnt ha =>
    rw [ha]
    exact .inr rfl
  | _ => simp only [*, TryStep]

/-- The count that was loaded passes the threshold, so the thread goes on to the exchange. -/
theorem Trying.step {useCache : Bool} {s₀ : State Obj Rec Cell Holder Tid} (h : Trying s₀ s t)
    (h1 : scanThreshold ≤ s₀.retiredCount) (h2 : scanMult * s₀.hazptrCount ≤ s₀.retiredCount)
    (hstep : Step useCache t s s') : (s.thread t).act = .exchange ∨ Trying s₀ s' t := by
  have ht := try_step hstep
  rcases h.act with hex | ⟨hc, hz, ha | ha | ha⟩
  · exact .inl hex
  · rw [ha] at ht
    obtain rfl := ht
    refine .inr ⟨h.list, .inr ⟨hc, hz, .inr (.inl ?_)⟩⟩
    simp [hc]
  · rw [ha] at ht
    have hno : ¬ (s₀.retiredCount < scanThreshold ∨ s₀.retiredCount < scanMult * s.hazptrCount) := by
      rw [hz]
      omega
    simp only [TryStep, if_neg hno] at ht
    obtain rfl := ht
    exact .inr ⟨h.list, .inr ⟨hc, hz, .inr (.inr (by simp))⟩⟩
  · rw [ha] at ht
    rcases ht with rfl | rfl
    · exact .inr ⟨h.list, .inl (by simp)⟩
    · exact .inr ⟨h.list, .inr ⟨hc, hz, .inr (.inl (by simp [hc]))⟩⟩

theorem Trying.run {useCache : Bool} {s₀ : State Obj Rec Cell Holder Tid} (h : Trying s₀ s₀ t)
    (h1 : scanThreshold ≤ s₀.retiredCount) (h2 : scanMult * s₀.hazptrCount ≤ s₀.retiredCount)
    (hrun : Relation.ReflTransGen (Step useCache t) s₀ s) : Trying s₀ s t ∨ Collected useCache t s₀ s := by
  induction hrun with
  | refl => exact .inl h
  | tail hrun hstep ih =>
    rcases ih with htry | ⟨s₁, s₂, hr, ha, hl, hs, hr'⟩
    · rcases htry.step h1 h2 hstep with hex | htry'
      · exact .inr ⟨_, _, hrun, hex, htry.list, hstep, .refl⟩
      · exact .inl htry'
    · exact .inr ⟨s₁, s₂, hr, ha, hl, hs, hr'.tail hstep⟩

/-- When no weak compare-and-swap fails, three steps lead to the exchange. -/
theorem exists_exchange {useCache : Bool} {s₀ : State Obj Rec Cell Holder Tid}
    (ha : (s₀.thread t).act = .loadCount) (h1 : scanThreshold ≤ s₀.retiredCount)
    (h2 : scanMult * s₀.hazptrCount ≤ s₀.retiredCount) :
    ∃ s, Relation.ReflTransGen (Step useCache t) s₀ s ∧ (s.thread t).act = .exchange ∧
      s.retiredList = s₀.retiredList := by
  let s₁ := s₀.setAct t (.loadHazptrCount s₀.retiredCount)
  let s₂ := s₁.setAct t (.casCount s₀.retiredCount)
  have hs₁ : Step useCache t s₀ s₁ := .loadCount s₀ ha
  have hs₂ : Step useCache t s₁ s₂ := by
    have hstep : Step useCache t s₁ _ := .loadHazptrCount s₁ s₀.retiredCount (by simp [s₁])
    have hno : ¬ (s₀.retiredCount < scanThreshold ∨ s₀.retiredCount < scanMult * s₁.hazptrCount) := by
      show ¬ (s₀.retiredCount < scanThreshold ∨ s₀.retiredCount < scanMult * s₀.hazptrCount)
      omega
    rw [if_neg hno] at hstep
    exact hstep
  have hs₃ : Step useCache t s₂ _ := .casCountOk s₂ s₀.retiredCount (by simp [s₂]) rfl
  exact ⟨_, ((Relation.ReflTransGen.single hs₁).tail hs₂).tail hs₃, by simp, rfl⟩

/-- The count covers the list when nobody is inside, exactly so without overlap, and a
list that passes the threshold is taken by the call of `tryBulkReclaim` that finds it. -/
theorem retired_count_covers {useCache : Bool} (hs : Reachable Init (FitStep useCache) s) :
    0 ≤ s.retiredCount ∧
    ∃ list, Segment s.next s.retiredList list none ∧
      ((∀ t, ¬ s.Inside t) → (list.length : Int) ≤ s.retiredCount) ∧
      (Reachable Init (Within (FitStep useCache) State.Apart) s → (∀ t, ¬ s.Inside t) →
        (list.length : Int) = s.retiredCount) ∧
      ∀ t, (s.thread t).act = .loadCount → (∀ u, u ≠ t → ¬ s.Inside u) →
        scanThreshold ≤ list.length → scanMult * s.hazptrCount ≤ list.length →
        (∃ s', Relation.ReflTransGen (Step useCache t) s s' ∧ (s'.thread t).act = .exchange ∧
          s'.retiredList = s.retiredList) ∧
        ∀ s', Relation.ReflTransGen (Step useCache t) s s' → Trying s s' t ∨ Collected useCache t s s' := by
  obtain ⟨l, S, h⟩ := reachable_counted hs
  refine ⟨h.nonneg, l, h.linked, ?_, ?_, ?_⟩
  · intro hidle
    exact h.length_le (fun t => counting_of_not_inside (hidle t))
  · intro hap hidle
    obtain ⟨-, l', S', h', he⟩ := reachable_exact hap
    rw [h.linked.unique h'.linked]
    exact he.length_eq (fun t => counting_of_not_inside (hidle t))
  · intro t ha halone h1 h2
    have hle : (l.length : Int) ≤ s.retiredCount := by
      apply h.length_le
      intro u
      by_cases hu : u = t
      · rw [hu, ha]
        rfl
      · exact counting_of_not_inside (halone u hu)
    have h1' := h1.trans hle
    have h2' := h2.trans hle
    have htry : Trying s s t := ⟨rfl, .inr ⟨rfl, rfl, .inl ha⟩⟩
    exact ⟨exists_exchange ha h1' h2', fun s' hrun => htry.run h1' h2' hrun⟩

/-- A thread that has retired five objects and is about to look whether they are enough. -/
theorem exists_five_counted : ∃ s : State Nat Unit Unit Unit Unit, Reachable Init (FitStep false) s ∧
    s.retiredCount = 5 ∧ (s.thread ()).act = .loadCount ∧ s.hazptrCount = 0 ∧
    Segment s.next s.retiredList [0, 1, 2, 3, 4] none := by
  have htail : ∀ {s s' : State Nat Unit Unit Unit Unit}, Reachable Init (FitStep false) s → Step false () s s' →
      s.Fits () → (s'.privList ()).count < 6 → (s'.thread ()).stack = [] → s'.hazptrCount = 0 →
      Reachable Init (FitStep false) s' := by
    intro s s' h hs hf hp hst hc
    refine h.tail ⟨⟨(), hs, hf⟩, fun _ => hp.trans (by decide), fun t b hb => ?_, by rw [hc]; decide⟩
    rw [hst] at hb
    cases hb
  have h₀ : Reachable Init (FitStep false) (State.unused : State Nat Unit Unit Unit Unit) := .of_init unused_init
  have h₁ := htail h₀ (.retire _ 0 rfl (by rintro ⟨⟩) (by rintro _ ⟨⟩)) (by decide) (by decide) rfl rfl
  have h₂ := htail h₁ (.retire _ 1 rfl (by rintro (⟨⟨⟩⟩ | ⟨⟨⟩⟩)) (by rintro _ ⟨⟩)) (by decide) (by decide) rfl rfl
  have h₃ := htail h₂ (.retire _ 2 rfl (by rintro (⟨⟨⟩⟩ | ⟨⟨⟩⟩ | ⟨⟨⟩⟩)) (by rintro _ ⟨⟩)) (by decide) (by decide)
    rfl rfl
  have h₄ := htail h₃ (.retire _ 3 rfl (by rintro (⟨⟨⟩⟩ | ⟨⟨⟩⟩ | ⟨⟨⟩⟩ | ⟨⟨⟩⟩)) (by rintro _ ⟨⟩)) (by decide)
    (by decide) rfl rfl
  have h₅ := htail h₄ (.retire _ 4 rfl (by rintro (⟨⟨⟩⟩ | ⟨⟨⟩⟩ | ⟨⟨⟩⟩ | ⟨⟨⟩⟩ | ⟨⟨⟩⟩)) (by rintro _ ⟨⟩)) (by decide)
    (by decide) rfl rfl
  have h₆ := htail h₅ (.link _ .priv 4 rfl rfl) (by decide) (by decide) rfl rfl
  have h₇ := htail h₆ (.appendOk _ .priv 4 rfl rfl rfl) (by decide) (by decide) rfl rfl
  have h₈ := htail h₇ (.countPriv _ rfl) (by decide) (by decide) rfl rfl
  exact ⟨_, h₈, rfl, rfl, rfl, ⟨rfl, rfl, rfl, rfl, rfl, rfl⟩⟩

/-- Five objects on the list, found by the `tryBulkReclaim` of the thread that retired them. -/
theorem retired_count_covers_five : ∃ s : State Nat Unit Unit Unit Unit, Reachable Init (FitStep false) s ∧
    s.retiredCount = 5 ∧ ∃ s', Relation.ReflTransGen (Step false ()) s s' ∧ (s'.thread ()).act = .exchange ∧
      s'.retiredList = s.retiredList := by
  obtain ⟨s, hs, hc, ha, hz, hl⟩ := exists_five_counted
  obtain ⟨-, list, hlist, -, -, hcollect⟩ := retired_count_covers hs
  have hlen : list.length = 5 := by
    rw [hlist.unique hl]
    rfl
  have hthreshold : scanThreshold ≤ (list.length : Int) ∧ scanMult * s.hazptrCount ≤ (list.length : Int) := by
    rw [hlen, hz]
    decide
  exact ⟨s, hs, hc, (hcollect () ha (fun u hu => absurd rfl hu) hthreshold.1 hthreshold.2).1⟩

section Overflow

variable {H n x m : Nat} {s s' : State Nat Nat Unit Nat Bool} {t : Bool}

/-- Two threads that have done nothing yet but make `n` records. -/
structure Supplied (n : Nat) (s : State Nat Nat Unit Nat Bool) : Prop where
  hazptrCount : s.hazptrCount = n
  retiredCount : s.retiredCount = 0
  retired : ∀ y, ¬ s.retired y
  cell : ∀ c, s.cell c = none
  thread : ∀ t, s.thread t = ⟨.client, [], false⟩
  privList : ∀ t, s.privList t = .clear
  pool : ∀ t, s.pool t = []
  holder : ∀ h, n ≤ h → s.holder h = none
  allocated : ∀ r, n ≤ r → ¬ s.allocated r

theorem exists_supplied (hn : n < 2 ^ 31) : ∃ s, Reachable Init (Next true) s ∧ Supplied n s := by
  induction n with
  | zero =>
    exact ⟨.unused, .of_init unused_init, rfl, rfl, fun _ => id, fun _ => rfl, fun _ => rfl, fun _ => rfl,
      fun _ => rfl, fun _ _ => rfl, fun _ _ => id⟩
  | succ n ih =>
    obtain ⟨s, hr, hs⟩ := ih (by omega)
    have hfree : s.Free n := by
      intro t
      rw [hs.thread t]
      simp [Act.holder?]
    have h₁ := hr.tail ⟨false, .acquireFresh s n (by rw [hs.thread]) rfl (hs.holder n le_rfl) hfree (hs.pool false)⟩
    have h₂ := h₁.tail ⟨false, .newRecord _ n n (by simp) (hs.allocated n le_rfl)⟩
    have h₃ := h₂.tail ⟨false, .pushRecordOk _ n n (by simp) (by simp [State.setAct, State.setThread])⟩
    have h₄ := h₃.tail ⟨false, .countRecord _ n n (by simp)⟩
    refine ⟨_, h₄, ?_, hs.retiredCount, hs.retired, hs.cell, fun t => ?_, hs.privList, hs.pool, fun h hh => ?_,
      fun r hrn => ?_⟩
    · change wrap (s.hazptrCount + 1) = _
      rw [hs.hazptrCount, wrap_eq (by omega) (by omega)]
      rfl
    · cases t <;> simp [State.setAct, State.setThread, State.setHolder, hs.thread]
    · have hne : h ≠ n := by omega
      exact (Function.update_of_ne hne _ _).trans (hs.holder h (by omega))
    · rintro (rfl | ha)
      · omega
      · exact hs.allocated r (by omega) ha

/-- There are `H` records, no object from `x` on is retired, and `t` has `m` in its private list. -/
structure Hoarding (H x m : Nat) (t : Bool) (s : State Nat Nat Unit Nat Bool) : Prop where
  hazptrCount : s.hazptrCount = H
  retired : ∀ y, s.retired y → y < x
  cell : ∀ c, s.cell c = none
  count : (s.privList t).count = m

/-- The other thread is where it was. -/
structure Beside (t : Bool) (s s' : State Nat Nat Unit Nat Bool) : Prop where
  thread : s'.thread (!t) = s.thread (!t)
  privList : s'.privList (!t) = s.privList (!t)

namespace Hoarding

variable (h : Hoarding H x m t s)
include h

theorem step (ht : (s.thread t).act = .client) : Step true t s (s.retire t x) :=
  .retire s x ht (fun hx => (h.retired x hx).false) fun c => by simp [h.cell c]

theorem pushed : Hoarding H (x + 1) (m + 1) t (s.pushed t x) where
  hazptrCount := h.hazptrCount
  retired := by
    rintro y (rfl | hy)
    · omega
    · exact (h.retired y hy).trans (Nat.lt_succ_self x)
  cell := h.cell
  count := by
    rw [pushed_self, push_count, h.count]
    rfl

theorem retire_of_lt (hm : m + 1 < 2 * H) : s.retire t x = s.pushed t x := by
  apply retire_below
  rintro ⟨-, hle⟩
  rw [h.count, h.hazptrCount, scanMult] at hle
  omega

theorem retire_of_eq (hm : m + 1 = 2 * H) (hH : 5 ≤ 2 * H) : s.retire t x = (s.pushed t x).setAct t (.link .priv) := by
  apply retire_reached
  rw [h.count, h.hazptrCount, scanMult, scanThreshold]
  omega

end Hoarding

theorem pushed_beside : Beside t s (s.pushed t x) := ⟨rfl, Function.update_of_ne (by simp) _ _⟩

/-- The thread retires objects, but not as many as it hands over at once. -/
theorem exists_hoarding (h : Hoarding H x 0 t s) (hr : Reachable Init (Next true) s) (ht : (s.thread t).act = .client)
    (hm : m < 2 * H) : ∃ s', Reachable Init (Next true) s' ∧ Hoarding H (x + m) m t s' ∧ Beside t s s' ∧
      s'.thread t = s.thread t ∧ s'.retiredCount = s.retiredCount := by
  induction m with
  | zero => exact ⟨s, hr, h, ⟨rfl, rfl⟩, rfl, rfl⟩
  | succ m ih =>
    obtain ⟨s', hr', h', hb, ht', hc⟩ := ih (by omega)
    have hstep := h'.step (ht'.symm ▸ ht)
    rw [h'.retire_of_lt hm] at hstep
    have hb' : Beside t s' (s'.pushed t (x + m)) := pushed_beside
    exact ⟨_, hr'.tail ⟨t, hstep⟩, h'.pushed, ⟨hb'.thread.trans hb.thread, hb'.privList.trans hb.privList⟩, ht', hc⟩

/-- The private list is handed over and counted. -/
theorem exists_handed {y : Nat} (h : Hoarding H x m t s) (hr : Reachable Init (Next true) s)
    (ht : s.thread t = ⟨.link .priv, [], false⟩) (hy : (s.privList t).tail = some y) :
    ∃ s', Reachable Init (Next true) s' ∧ Hoarding H x 0 t s' ∧ Beside t s s' ∧
      s'.thread t = ⟨.loadCount, [], false⟩ ∧ s'.retiredCount = wrap (s.retiredCount + m) := by
  have h₁ := hr.tail ⟨t, .link s .priv y (by rw [ht]) hy⟩
  have h₂ := h₁.tail ⟨t, .appendOk _ .priv y (by simp) hy (by simp [State.setAct, State.setThread])⟩
  have h₃ := h₂.tail ⟨t, .countPriv _ (by simp)⟩
  refine ⟨_, h₃, ⟨h.hazptrCount, h.retired, h.cell, ?_⟩, ⟨?_, ?_⟩, ?_, ?_⟩
  · simp [State.setAct, State.setThread, DoubleLinkedList.clear]
  · simp [State.setAct, State.setThread]
  · exact Function.update_of_ne (by simp) _ _
  · simp [State.setAct, State.setThread, ht]
  · rw [← h.count]
    rfl

/-- The thread hands over `2 * H` objects and stands before `tryBulkReclaim`. -/
theorem exists_counted (h : Hoarding H x 0 t s) (hr : Reachable Init (Next true) s)
    (ht : s.thread t = ⟨.client, [], false⟩) (hH : 5 ≤ 2 * H) :
    ∃ s', Reachable Init (Next true) s' ∧ Hoarding H (x + 2 * H) 0 t s' ∧ Beside t s s' ∧
      s'.thread t = ⟨.loadCount, [], false⟩ ∧ s'.retiredCount = wrap (s.retiredCount + 2 * H) := by
  obtain ⟨m, hm⟩ : ∃ m, m + 1 = 2 * H := ⟨2 * H - 1, by omega⟩
  obtain ⟨s', hr', h', hb, ht', hc⟩ := exists_hoarding (m := m) h hr (by rw [ht]) (by omega)
  have hstep := h'.step (by rw [ht', ht])
  rw [h'.retire_of_eq hm hH] at hstep
  have hp := h'.pushed
  have hb' : Beside t s' (s'.pushed t (x + m)) := pushed_beside
  have htail : ((s'.pushed t (x + m)).privList t).tail = some (x + m) := by
    rw [pushed_self, push_tail]
  obtain ⟨s'', hr'', h'', hb'', ht'', hc''⟩ := exists_handed
    (s := (s'.pushed t (x + m)).setAct t (.link .priv)) (x := x + m + 1) (m := m + 1)
    ⟨hp.hazptrCount, hp.retired, hp.cell, hp.count⟩ (hr'.tail ⟨t, hstep⟩) (by
      rw [setAct_thread_self]
      change { s'.thread t with act := .link .priv } = _
      rw [ht', ht]) htail
  refine ⟨s'', hr'', ?_, ⟨?_, ?_⟩, ht'', ?_⟩
  · rwa [Nat.add_assoc, hm] at h''
  · rw [hb''.thread, ← hb.thread, ← hb'.thread]
    exact Function.update_of_ne (by simp) _ _
  · exact hb''.privList.trans (hb'.privList.trans hb.privList)
  · rw [hc'', hm]
    change wrap (s'.retiredCount + _) = _
    rw [hc]
    rfl

/-- A count that is negative is not enough, and the thread returns. -/
theorem exists_returned (hr : Reachable Init (Next true) s) (ht : s.thread t = ⟨.loadCount, [], false⟩)
    (hc : s.retiredCount < 0) :
    ∃ s', Reachable Init (Next true) s' ∧ s'.thread t = ⟨.client, [], false⟩ ∧ s'.thread (!t) = s.thread (!t) ∧
      s'.retiredCount = s.retiredCount := by
  have h₁ := hr.tail ⟨t, .loadCount s (by rw [ht])⟩
  have h₂ := h₁.tail ⟨t, .loadHazptrCount _ s.retiredCount (by simp)⟩
  rw [if_pos (.inl (hc.trans (by decide)))] at h₂
  have hfinish : (s.setAct t (.loadHazptrCount s.retiredCount)).finish t =
      (s.setAct t (.loadHazptrCount s.retiredCount)).setAct t .client := by
    refine if_neg ?_
    simp [State.setAct, State.setThread, ht]
  rw [hfinish] at h₂
  exact ⟨_, h₂, by simp [State.setAct, State.setThread, ht], by simp [State.setAct, State.setThread], rfl⟩

/-- Of two threads each hands over `2 ^ 30` objects before the other looks at the count, and then
both find it negative. -/
theorem retired_count_negative : ¬ ∀ s : State Nat Nat Unit Nat Bool, Reachable Init (Next true) s →
    (∀ t, ¬ s.Inside t) → 0 ≤ s.retiredCount := by
  intro hclaim
  obtain ⟨s₀, h₀, hs⟩ := exists_supplied (n := 2 ^ 29) (by decide)
  obtain ⟨s₁, h₁, hh₁, hb₁, ht₁, hc₁⟩ := exists_counted (H := 2 ^ 29) (x := 0) (t := false)
    ⟨hs.hazptrCount, fun y hy => absurd hy (hs.retired y), hs.cell, by rw [hs.privList]; rfl⟩ h₀ (hs.thread false)
    (by decide)
  have hpriv : s₁.privList true = .clear := hb₁.privList.trans (hs.privList true)
  obtain ⟨s₂, h₂, -, hb₂, ht₂, hc₂⟩ := exists_counted (H := 2 ^ 29) (x := 0 + 2 * 2 ^ 29) (t := true)
    ⟨hh₁.hazptrCount, hh₁.retired, hh₁.cell, by rw [hpriv]; rfl⟩ h₁
    (hb₁.thread.trans (hs.thread true)) (by decide)
  have hneg : s₂.retiredCount = -2 ^ 31 := by
    rw [hc₂, hc₁, hs.retiredCount]
    decide
  obtain ⟨s₃, h₃, ht₃, ho₃, hc₃⟩ := exists_returned h₂ (hb₂.thread.trans ht₁) (by rw [hneg]; decide)
  obtain ⟨s₄, h₄, ht₄, ho₄, hc₄⟩ := exists_returned h₃ (ho₃.trans ht₂) (by rw [hc₃, hneg]; decide)
  have hidle : ∀ t, s₄.thread t = ⟨.client, [], false⟩ := by
    intro t
    cases t
    · exact ho₄.trans ht₃
    · exact ht₄
  have hle := hclaim s₄ h₄ fun t => by simp [State.Inside, hidle, Act.inside]
  rw [hc₄, hc₃, hneg] at hle
  exact absurd hle (by decide)

end Overflow
end Wizard.Hazptr
