import Wizard.HazptrCounts

/-! The end of a thread. `~HazptrPrivate` hands the private list over once; what the
destructors of that flush retire goes to the private list again. -/

namespace Wizard.Hazptr

variable {Obj Rec Cell Holder Tid : Type*}

/-- `retiredBy` records which thread retired an object. `counts` has the `_hazptr_count`
that each `retire` of a destructor found when its thread was already in `~HazptrPrivate`. -/
structure Attributed (Obj Rec Cell Holder Tid : Type*) where
  base : State Obj Rec Cell Holder Tid
  retiredBy : Tid → Obj → Prop
  counts : Tid → List Int

structure Attributed.Init (a : Attributed Obj Rec Cell Holder Tid) : Prop where
  base : Hazptr.Init a.base
  retiredBy : ∀ t x, ¬ a.retiredBy t x
  counts : ∀ t, a.counts t = []

/-- How many objects of a sequence of `retire` calls follow the last one that reached
the threshold. -/
def kept (counts : List Int) : Int :=
  counts.foldl (fun n hazptrCount =>
    if scanThreshold ≤ n + 1 ∧ scanMult * hazptrCount ≤ n + 1 then 0 else n + 1) 0

theorem kept_concat (counts : List Int) (hazptrCount : Int) :
    kept (counts ++ [hazptrCount]) =
      if scanThreshold ≤ kept counts + 1 ∧ scanMult * hazptrCount ≤ kept counts + 1 then 0
      else kept counts + 1 := by
  unfold kept
  rw [List.foldl_append]
  rfl

/-- Without many records every fifth object is the last of a full list. -/
theorem kept_eq_mod {counts : List Int} (h : ∀ c ∈ counts, 2 * c ≤ 5) : kept counts = counts.length % 5 := by
  induction counts using List.reverseRecOn with
  | nil => rfl
  | append_singleton counts c ih =>
    have hc : 2 * c ≤ 5 := h c (by simp)
    have hk := ih (fun d hd => h d (by simp [hd]))
    rw [kept_concat, hk, List.length_append, List.length_singleton, scanThreshold, scanMult]
    split <;> omega

def State.OnRetiredList (s : State Obj Rec Cell Holder Tid) (x : Obj) : Prop :=
  ∃ l, Segment s.next s.retiredList l none ∧ x ∈ l

/-- A `bulkReclaim` of the thread has taken the object and not deleted it or put it back. -/
def State.InBatch (s : State Obj Rec Cell Holder Tid) (t : Tid) (x : Obj) : Prop :=
  ∃ d, Linked s x (some (.rest t d)) ∨ Linked s x (some (.left t d)) ∧ ¬ HandedOver s (some (.left t d))

variable {s s' : State Obj Rec Cell Holder Tid} {own own' : Spot Tid → List Obj} {t u : Tid}

theorem Items.unique {next : Obj → Option Obj} {l : DoubleLinkedList Obj} {xs ys : List Obj}
    (h : Items next l xs) (h' : Items next l ys) : xs = ys := by
  rw [← h.walk_eq, h'.walk_eq]

/-- The private list is what `priv_list` links, or has been handed over. -/
theorem Lists.priv_subset (h : Lists s own) {xs : List Obj} (hi : Items s.next (s.privList u) xs) :
    ∀ x ∈ own (.priv u), x ∈ xs := by
  intro x hx
  obtain ⟨hnil, hitems⟩ := (h.threads u).priv
  by_cases ha : (s.thread u).act = .countRetired .priv
  · rw [hnil ha] at hx
    cases hx
  · rw [hi.unique (hitems ha)]
    exact hx

theorem Lists.inBatch_iff (h : Lists s own) (x : Obj) :
    s.InBatch t x ↔ ∃ d, x ∈ own (.rest t d) ∨ x ∈ own (.left t d) := by
  have hrest : ∀ d, Linked s x (some (.rest t d)) ↔ x ∈ own (.rest t d) := by
    intro d
    exact (and_iff_left (fun hh => hh)).symm.trans (h.linked_iff x (some (.rest t d)))
  have hleft : ∀ d, Linked s x (some (.left t d)) ∧ ¬ HandedOver s (some (.left t d)) ↔ x ∈ own (.left t d) :=
    fun d => h.linked_iff x (some (.left t d))
  unfold State.InBatch
  simp only [hrest, hleft]

theorem Lists.onRetiredList_iff (h : Lists s own) (x : Obj) : s.OnRetiredList x ↔ x ∈ own .retiredList := by
  constructor
  · rintro ⟨l, hl, hx⟩
    rw [← hl.unique h.retiredList]
    exact hx
  · intro hx
    exact ⟨_, h.retiredList, hx⟩

/-- A thread that is handing over its private list. -/
def Act.flushing : Act Obj Rec Cell Holder → Bool
  | .link .priv | .append .priv | .countRetired .priv => true
  | _ => false

/-- A thread that is leaving has no call of `bulkReclaim` in progress. -/
def Act.leaving : Act Obj Rec Cell Holder → Bool
  | .dropCached _ | .exited => true
  | _ => false

def State.Unwound (s : State Obj Rec Cell Holder Tid) : Prop :=
  ∀ t, (s.thread t).act.leaving = true → (s.thread t).stack = [] ∧ (s.thread t).exiting = true

section Steps

variable [DecidableEq Tid]

theorem finish_unwound (s : State Obj Rec Cell Holder Tid) (t : Tid)
    (h : ((s.finish t).thread t).act.leaving = true) :
    ((s.finish t).thread t).stack = [] ∧ ((s.finish t).thread t).exiting = true := by
  unfold State.finish at h ⊢
  split at h
  · rename_i he
    rw [if_pos he]
    simpa using he.symm
  · simp [Act.leaving] at h

variable [DecidableEq Obj] [DecidableEq Rec] [DecidableEq Cell] [DecidableEq Holder]

theorem unwound_self {useCache : Bool} (hstep : Step useCache t s s') (h : s.Unwound)
    (hl : (s'.thread t).act.leaving = true) : (s'.thread t).stack = [] ∧ (s'.thread t).exiting = true := by
  have hact : ∀ {σ : State Obj Rec Cell Holder Tid} {a : Act Obj Rec Cell Holder},
      ((σ.setAct t a).thread t).act.leaving = true → a.leaving = true := by
    intro σ a ha
    simpa using ha
  have hsearch : ∀ {x : Holder} {rec : Option Rec}, ((s.searchAt t x rec).thread t).act.leaving ≠ true := by
    intro x rec
    cases rec <;> simp [State.searchAt, Act.leaving]
  have hno : ∀ {σ : State Obj Rec Cell Holder Tid} {a : Act Obj Rec Cell Holder}, (σ.thread t).act = a →
      a.leaving = false → (σ.thread t).act.leaving ≠ true := by
    intro σ a ha hf
    rw [ha, hf]
    simp
  cases hstep with
  | retire x ha hx hcell =>
    revert hl
    unfold State.retire
    split
    · intro hl
      cases hact hl
    · intro hl
      exact absurd hl (hno ha rfl)
  | acquire x ha hu hh hf => exact absurd hl hsearch
  | loadActive x rec ha =>
    revert hl
    split
    · intro hl
      exact absurd hl hsearch
    · intro hl
      cases hact hl
  | casActiveFail x rec ha hr => exact absurd hl hsearch
  | retract x rec latest src again ha hh => cases again <;> cases hact hl
  | destroyCached x rec ha hu hh hf =>
    revert hl
    unfold State.freeCachedRec
    split <;> exact fun hl => absurd hl (hno ha rfl)
  | countLeft b rest ha hs => exact finish_unwound _ t hl
  | loadHazptrCount cnt ha =>
    revert hl
    split
    · exact finish_unwound s t
    · intro hl
      cases hact hl
  | loadRecords ha =>
    rw [scanAt_eq] at hl
    revert hl
    cases s.hazptrList <;> exact fun hl => by cases hact hl
  | scan rec b rest ha hs =>
    rw [scanAt_eq] at hl
    revert hl
    cases s.recNext rec <;> exact fun hl => by cases hact hl
  | keep x b rest ha hs hp hset => simp [State.setBatch, State.setThread, ha, Act.leaving] at hl
  | reclaimed b rest ha hs hp hleft => exact finish_unwound _ t hl
  | exit ha hs he =>
    unfold State.exit
    split <;> simp [State.setThread]
  | dropCached rec rest ha => simpa using h t (by rw [ha]; rfl)
  | exited ha => simpa using h t (by rw [ha]; rfl)
  | store c v ha | acquireCached x rec rest ha | pushRecordFail x rec ha | reset x rec p ha
  | swap x x' rec rec' ha | appendFail source tail ha => exact absurd hl (hno ha rfl)
  | _ => cases hact hl

theorem unwound_step {useCache : Bool} (hstep : Step useCache t s s') (h : s.Unwound) : s'.Unwound := by
  intro u hl
  by_cases hu : u = t
  · subst hu
    exact unwound_self hstep h hl
  · rw [step_other hstep hu] at hl ⊢
    exact h u hl

omit [DecidableEq Tid] [DecidableEq Obj] [DecidableEq Rec] [DecidableEq Cell] [DecidableEq Holder] in
theorem Lists.priv_frame (h : Lists s own) (h' : Lists s' own') (hp : s'.privList u = s.privList u)
    (hn : ∀ y ∈ own (.priv u), s'.next y = s.next y)
    (ha : (s.thread u).act = .countRetired .priv → (s'.thread u).act = .countRetired .priv) :
    ∀ x ∈ own' (.priv u), x ∈ own (.priv u) := by
  by_cases hu : (s.thread u).act = .countRetired .priv
  · rw [(h'.threads u).priv.1 (ha hu)]
    intro x hx
    cases hx
  · apply h'.priv_subset
    rw [hp]
    exact ((h.threads u).priv.2 hu).congr hn

omit [DecidableEq Tid] [DecidableEq Obj] [DecidableEq Rec] [DecidableEq Cell] [DecidableEq Holder] in
theorem Lists.priv_cleared (h' : Lists s' own') (hp : s'.privList u = .clear) : own' (.priv u) = [] := by
  apply List.eq_nil_iff_forall_not_mem.2
  intro x hx
  have hi : Items s'.next (s'.privList u) [] := by
    rw [hp]
    exact Items.clear _
  cases h'.priv_subset hi x hx

/-- An object comes to a private list when its thread retires it. -/
theorem priv_self {useCache : Bool} (hstep : Step useCache t s s') (h : Lists s own) (h' : Lists s' own') :
    ∀ x ∈ own' (.priv t), x ∈ own (.priv t) ∨ s'.retired x ∧ ¬ s.retired x := by
  have hsame : s'.privList t = s.privList t → s'.next = s.next → (s.thread t).act ≠ .countRetired .priv →
      ∀ x ∈ own' (.priv t), x ∈ own (.priv t) ∨ s'.retired x ∧ ¬ s.retired x := by
    intro hp hn ha x hx
    exact .inl (h.priv_frame h' hp (fun y _ => congrFun hn y) (fun hh => absurd hh ha) x hx)
  have hact : ∀ {a : Act Obj Rec Cell Holder}, (s.thread t).act = a → a ≠ .countRetired .priv →
      (s.thread t).act ≠ .countRetired .priv := by
    intro a ha hne
    rw [ha]
    exact hne
  have htail : ∀ {source : Source} {tail : Obj} {r : Option Obj}, s'.privList t = s.privList t →
      s'.next = Function.update s.next tail r →
      (s.thread t).act = .link source ∨ (s.thread t).act = .append source →
      (s.source t source).tail = some tail →
      ∀ x ∈ own' (.priv t), x ∈ own (.priv t) ∨ s'.retired x ∧ ¬ s.retired x := by
    intro source tail r hp hn ha ht x hx
    have hne : (s.thread t).act ≠ .countRetired .priv := by
      rcases ha with ha | ha <;> simp [ha]
    left
    refine h'.priv_subset ?_ x hx
    rw [hp, hn]
    have hi := (h.threads t).priv.2 hne
    cases source with
    | priv => exact hi.redirect (h.nodup _) ht r
    | left =>
      obtain ⟨hs, b, rest, hstack, -⟩ := h.left_settled ha
      rw [hstack] at hs
      simp only [State.source, hstack] at ht
      obtain ⟨hmem, -⟩ := h.redirectLeft hs ht r
      exact hi.congr (fun y hy => h.next_update hmem (by simp) hy)
  cases hstep with
  | retire x ha hx hcell =>
    intro y hy
    have hs := h.settled (t := t) (by rw [ha]; rfl)
    have hpush := hs.priv.push (h.nodup _) (h.not_mem_of_fresh hx (.priv t))
    have hmem : y ∈ own (.priv t) ++ [x] := by
      refine h'.priv_subset ?_ y hy
      unfold State.retire
      split <;> simpa [State.setAct, State.setThread] using hpush
    have hret : ∀ z, (s.retire t x).retired z ↔ z = x ∨ s.retired z := by
      intro z
      unfold State.retire
      split <;> exact Iff.rfl
    rcases List.mem_append.1 hmem with hy' | hyx
    · exact .inl hy'
    · rw [List.mem_singleton.1 hyx]
      exact .inr ⟨(hret x).2 (.inl rfl), hx⟩
  | link source tail ha ht => exact htail rfl rfl (.inl ha) ht
  | appendFail source tail ha ht => exact htail rfl rfl (.inr ha) ht
  | keep x b rest ha hs hp hset =>
    intro y hy
    left
    have hsettled := h.settled (t := t) (by rw [ha]; rfl)
    rw [hs] at hsettled
    refine h.priv_frame h' rfl ?_ (fun hh => absurd hh (hact ha (by simp))) y hy
    intro z hz
    apply hsettled.batches.2.1.link_of_ne
    · intro hzx
      obtain ⟨l, hrest, -⟩ := h.rest_cons ha hs hp
      have hx : x ∈ own (.rest t rest.length) := by simp [hrest]
      rw [hzx] at hz
      cases h.spot_eq hx hz
    · intro hz'
      cases h.spot_eq hz hz'
  | countPriv ha =>
    rw [h'.priv_cleared (by simp [State.setAct, State.setThread])]
    intro x hx
    cases hx
  | acquire x ha hu hh hf =>
    have hl := searchAt_lists s t x s.hazptrList
    exact hsame (congrFun hl.2 t) hl.1 (hact ha (by simp))
  | loadActive x rec ha =>
    refine hsame ?_ ?_ (hact ha (by simp)) <;> split <;> first | rfl | simp [searchAt_lists]
  | casActiveFail x rec ha hr =>
    have hl := searchAt_lists s t x (s.recNext rec)
    exact hsame (congrFun hl.2 t) hl.1 (hact ha (by simp))
  | destroyCached x rec ha hu hh hf =>
    refine hsame ?_ ?_ (hact ha (by simp)) <;> unfold State.freeCachedRec <;> split <;> rfl
  | countLeft b rest ha hs =>
    exact hsame (congrFun (finish_lists _ t).2.2.2 t) (finish_lists _ t).1 (hact ha (by simp))
  | loadHazptrCount cnt ha =>
    refine hsame ?_ ?_ (hact ha (by simp)) <;> split <;> first | rfl | simp [finish_lists]
  | loadRecords ha => exact hsame (by rw [scanAt_eq]; rfl) (by rw [scanAt_eq]; rfl) (hact ha (by simp))
  | scan rec b rest ha hs => exact hsame (by rw [scanAt_eq]; rfl) (by rw [scanAt_eq]; rfl) (hact ha (by simp))
  | reclaimed b rest ha hs hp hl =>
    exact hsame (congrFun (finish_lists _ t).2.2.2 t) (finish_lists _ t).1 (hact ha (by simp))
  | exit ha hs he =>
    obtain ⟨pool, th, hexit⟩ := exit_eq s t
    exact hsame (by rw [hexit]; rfl) (by rw [hexit]; rfl) (hact ha (by simp))
  | store c v ha | acquireCached x rec rest ha | acquireFresh x ha | casActiveOk x rec ha | newRecord x rec ha
  | pushRecordOk x rec ha | pushRecordFail x rec ha | countRecord x rec ha | tryProtect x rec p src ha
  | getProtected x rec src ha | publish x rec p src ha | validateOk x p src again ha
  | validateFail x p src again ha | retract x rec latest src again ha | reset x rec p ha | swap x x' rec rec' ha
  | destroy x rec ha | releaseRecord rec ha | appendOk source tail ha | loadCount ha | casCountOk cnt ha
  | casCountFail cnt ha | exchange ha | delete x b rest ha | destructed b rest ha | appendLeft b rest ha
  | dropCached rec rest ha | exited ha =>
    exact hsame rfl rfl (hact ha (by simp))

theorem priv_step {useCache : Bool} (hstep : Step useCache t s s') (h : Lists s own) (h' : Lists s' own') :
    ∀ u, ∀ x ∈ own' (.priv u), x ∈ own (.priv u) ∨ u = t ∧ s'.retired x ∧ ¬ s.retired x := by
  intro u x hx
  by_cases hu : u = t
  · subst hu
    rcases priv_self hstep h h' x hx with hx' | hx'
    · exact .inl hx'
    · exact .inr ⟨rfl, hx'⟩
  · left
    refine h.priv_frame h' (privList_other hstep hu) ?_ ?_ x hx
    · apply next_frame hstep h
      intro he
      exact hu (Option.some.inj he)
    · rw [step_other hstep hu]
      exact id

/-- What a step does to the private list of its thread. -/
inductive Flow (s s' : State Obj Rec Cell Holder Tid) (t : Tid) : Prop
  | quiet (hr : s'.retired = s.retired) (hp : s'.privList t = s.privList t)
      (he : (s'.thread t).exiting = (s.thread t).exiting)
      (ha : (s'.thread t).act.flushing = (s.thread t).act.flushing)
  | retire (x) (ha : (s.thread t).act = .client) (hx : ¬ s.retired x) (hcell : ∀ c, s.cell c ≠ some x)
      (hs : s' = s.retire t x)
  | clear (hr : s'.retired = s.retired) (hp : s'.privList t = .clear)
      (he : (s'.thread t).exiting = (s.thread t).exiting) (ha : (s.thread t).act = .countRetired .priv)
      (ha' : (s'.thread t).act.flushing = false)
  | exit (hr : s'.retired = s.retired) (ha : (s.thread t).act = .client)
      (he : (s.thread t).exiting = false) (hs : s' = s.exit t)

omit [DecidableEq Obj] [DecidableEq Rec] [DecidableEq Cell] [DecidableEq Holder] in
theorem searchAt_flow (s : State Obj Rec Cell Holder Tid) (t : Tid) (x : Holder) (rec : Option Rec) :
    (s.searchAt t x rec).retired = s.retired ∧ (s.searchAt t x rec).privList = s.privList ∧
      ((s.searchAt t x rec).thread t).exiting = (s.thread t).exiting ∧
      ((s.searchAt t x rec).thread t).act.flushing = false := by
  cases rec <;> exact ⟨rfl, rfl, by simp [State.searchAt], by simp [State.searchAt, Act.flushing]⟩

omit [DecidableEq Obj] [DecidableEq Rec] [DecidableEq Cell] [DecidableEq Holder] in
theorem finish_flow (s : State Obj Rec Cell Holder Tid) (t : Tid) :
    (s.finish t).retired = s.retired ∧ (s.finish t).privList = s.privList ∧
      ((s.finish t).thread t).exiting = (s.thread t).exiting ∧
      ((s.finish t).thread t).act.flushing = false := by
  unfold State.finish
  split <;> exact ⟨rfl, rfl, by simp, by simp [Act.flushing]⟩

theorem flow_of_step {useCache : Bool} (hstep : Step useCache t s s') : Flow s s' t := by
  have hact : ∀ {a : Act Obj Rec Cell Holder}, (s.thread t).act = a → a.flushing = false →
      (s.thread t).act.flushing = false := by
    intro a ha hf
    rw [ha]
    exact hf
  have hsearch : ∀ (x : Holder) (rec : Option Rec), (s.thread t).act.flushing = false →
      Flow s (s.searchAt t x rec) t := by
    intro x rec ha
    obtain ⟨hr, hp, he, hf⟩ := searchAt_flow s t x rec
    exact .quiet hr (congrFun hp t) he (hf.trans ha.symm)
  have hfinish : ∀ σ : State Obj Rec Cell Holder Tid, σ.retired = s.retired → σ.privList = s.privList →
      (σ.thread t).exiting = (s.thread t).exiting → (s.thread t).act.flushing = false → Flow s (σ.finish t) t := by
    intro σ hr hp he ha
    obtain ⟨hr', hp', he', hf⟩ := finish_flow σ t
    exact .quiet (hr'.trans hr) (congrFun (hp'.trans hp) t) (he'.trans he) (hf.trans ha.symm)
  cases hstep with
  | retire x ha hx hcell => exact .retire x ha hx hcell rfl
  | exit ha hs he =>
    obtain ⟨pool, th, hexit⟩ := exit_eq s t
    exact .exit (by rw [hexit]; rfl) ha he rfl
  | countPriv ha =>
    exact .clear rfl (by simp [State.setAct, State.setThread]) (by simp) ha (by simp [Act.flushing])
  | acquire x ha hu hh hf => exact hsearch x _ (hact ha rfl)
  | casActiveFail x rec ha hr => exact hsearch x _ (hact ha rfl)
  | loadActive x rec ha =>
    split
    · exact hsearch x _ (hact ha rfl)
    · exact .quiet rfl rfl (by simp) (by simp [ha, Act.flushing])
  | countLeft b rest ha hs => exact hfinish _ rfl rfl (by simp [State.setThread]) (hact ha rfl)
  | reclaimed b rest ha hs hp hl => exact hfinish _ rfl rfl (by simp [State.setThread]) (hact ha rfl)
  | loadHazptrCount cnt ha =>
    split
    · exact hfinish s rfl rfl rfl (hact ha rfl)
    · exact .quiet rfl rfl (by simp) (by simp [ha, Act.flushing])
  | destroyCached x rec ha hu hh hf =>
    unfold State.freeCachedRec
    split <;> exact .quiet rfl rfl rfl rfl
  | loadRecords ha =>
    rw [scanAt_eq]
    refine .quiet rfl rfl (by simp) ?_
    cases s.hazptrList <;> simp [ha, scanFrom, Act.flushing]
  | scan rec b rest ha hs =>
    rw [scanAt_eq]
    refine .quiet rfl rfl (by simp [State.setBatch, State.setThread]) ?_
    cases s.recNext rec <;> simp [ha, scanFrom, Act.flushing]
  | retract x rec latest src again ha hh =>
    refine .quiet rfl rfl (by simp [State.storeReal]) ?_
    cases again <;> simp [ha, Act.flushing]
  | link source tail ha hl =>
    exact .quiet rfl rfl (by simp) (by cases source <;> simp [ha, Act.flushing])
  | appendOk source tail ha hl he =>
    exact .quiet rfl rfl (by simp) (by cases source <;> simp [ha, Act.flushing])
  | keep x b rest ha hs hp hset =>
    exact .quiet rfl rfl (by simp [State.setBatch, State.setThread]) (by simp [State.setBatch, State.setThread])
  | exchange ha =>
    exact .quiet rfl rfl (by simp [State.setBatch, State.setThread]) (by simp [ha, Act.flushing])
  | delete x b rest ha hs hp hset =>
    exact .quiet rfl rfl (by simp [State.setBatch, State.setThread]) (by simp [ha, Act.flushing])
  | store | acquireCached | pushRecordFail | reset | swap | appendFail => exact .quiet rfl rfl rfl rfl
  | acquireFresh x ha | casActiveOk x rec ha | newRecord x rec ha | pushRecordOk x rec ha | countRecord x rec ha
  | tryProtect x rec p src ha | getProtected x rec src ha | publish x rec p src ha
  | validateOk x p src again ha | validateFail x p src again ha | destroy x rec ha | releaseRecord rec ha
  | loadCount ha | casCountOk cnt ha | casCountFail cnt ha | destructed b rest ha | appendLeft b rest ha
  | dropCached rec rest ha | exited ha =>
    exact .quiet rfl rfl (by simp [State.setHolder, State.storeReal]) (by simp [ha, Act.flushing])

def Attributed.retire (a : Attributed Obj Rec Cell Holder Tid) (t : Tid) (x : Obj) :
    Attributed Obj Rec Cell Holder Tid where
  base := a.base.retire t x
  retiredBy u y := a.retiredBy u y ∨ u = t ∧ y = x
  counts :=
    if (a.base.thread t).exiting then Function.update a.counts t (a.counts t ++ [a.base.hazptrCount])
    else a.counts

inductive Attributed.Next (useCache : Bool) :
    Attributed Obj Rec Cell Holder Tid → Attributed Obj Rec Cell Holder Tid → Prop
  | retire (a t x) (ha : (a.base.thread t).act = .client) (hx : ¬ a.base.retired x)
      (hcell : ∀ c, a.base.cell c ≠ some x) : Next useCache a (a.retire t x)
  | quiet (a t s') (hstep : Step useCache t a.base s') (hr : s'.retired = a.base.retired) :
      Next useCache a { a with base := s' }

/-- The last step of `~HazptrPrivate`. -/
def Finishes (t : Tid) (a b : Attributed Obj Rec Cell Holder Tid) : Prop :=
  (a.base.thread t).act = .dropCached [] ∧ b = { a with base := a.base.setAct t .exited }

/-- What the thread has retired is deleted or on `_retired_list`. -/
def Flushed (t : Tid) (a : Attributed Obj Rec Cell Holder Tid) : Prop :=
  ∀ x, a.retiredBy t x → a.base.deletions x ≠ 0 ∨ a.base.OnRetiredList x

/-- Each retired object has one thread that retired it, and only that thread has it on
its private list. -/
structure Attribution (a : Attributed Obj Rec Cell Holder Tid) (own : Spot Tid → List Obj) : Prop where
  retired : ∀ u x, a.retiredBy u x → a.base.retired x
  unique : ∀ u v x, a.retiredBy u x → a.retiredBy v x → u = v
  priv : ∀ u, ∀ x ∈ own (.priv u), a.retiredBy u x

variable {a b : Attributed Obj Rec Cell Holder Tid}

theorem retired_mono {useCache : Bool} (hstep : Step useCache t s s') {x : Obj} (hx : s.retired x) :
    s'.retired x := by
  cases effect_of_step hstep with
  | retire y hc h1 h2 h3 h4 =>
    rw [h4]
    exact .inr hx
  | quiet h1 h2 h3 h4 | store c v hv h1 h2 h3 h4 | relink rec v hr h1 h2 h3 h4
  | delete y b rest ha hs hp hset h1 h2 h3 h4 =>
    rw [h4]
    exact hx

omit [DecidableEq Rec] [DecidableEq Cell] [DecidableEq Holder] in
theorem retire_retired (s : State Obj Rec Cell Holder Tid) (t : Tid) (x y : Obj) :
    (s.retire t x).retired y ↔ y = x ∨ s.retired y := by
  unfold State.retire
  split <;> exact Iff.rfl

theorem Attributed.Next.step {useCache : Bool} (h : Attributed.Next useCache a b) :
    ∃ t, Step useCache t a.base b.base ∧
      ∀ u x, b.retiredBy u x ↔ a.retiredBy u x ∨ u = t ∧ b.base.retired x ∧ ¬ a.base.retired x := by
  cases h with
  | retire t x ha hx hcell =>
    refine ⟨t, .retire a.base x ha hx hcell, ?_⟩
    intro u y
    refine or_congr Iff.rfl (and_congr_right fun _ => ?_)
    constructor
    · rintro rfl
      exact ⟨(retire_retired a.base t y y).2 (.inl rfl), hx⟩
    · rintro ⟨hy, hn⟩
      exact ((retire_retired a.base t x y).1 hy).resolve_right hn
  | quiet t s' hstep hr =>
    refine ⟨t, hstep, ?_⟩
    intro u y
    simp [hr]

theorem Attribution.step {useCache : Bool} (h : Attribution a own) (hl : Lists a.base own)
    (hl' : Lists b.base own') (hstep : Step useCache t a.base b.base)
    (hby : ∀ u x, b.retiredBy u x ↔ a.retiredBy u x ∨ u = t ∧ b.base.retired x ∧ ¬ a.base.retired x) :
    Attribution b own' := by
  constructor
  · intro u x hx
    rcases (hby u x).1 hx with hx | ⟨-, hx, -⟩
    · exact retired_mono hstep (h.retired u x hx)
    · exact hx
  · intro u v x hu hv
    rcases (hby u x).1 hu with hu | ⟨rfl, -, hn⟩
    · rcases (hby v x).1 hv with hv | ⟨-, -, hn⟩
      · exact h.unique u v x hu hv
      · exact absurd (h.retired u x hu) hn
    · rcases (hby v x).1 hv with hv | ⟨rfl, -, -⟩
      · exact absurd (h.retired v x hv) hn
      · rfl
  · intro u x hx
    rcases priv_step hstep hl hl' u x hx with hx | hx
    · exact (hby u x).2 (.inl (h.priv u x hx))
    · exact (hby u x).2 (.inr hx)

/-- The flush empties the private list once; what it has later comes from destructors. -/
structure Attributed.Kept (a : Attributed Obj Rec Cell Holder Tid) (t : Tid) : Prop where
  running : (a.base.thread t).exiting = false → a.counts t = []
  flushing : (a.base.thread t).exiting = true → (a.base.thread t).act.flushing = true →
    kept (a.counts t) = 0
  held : (a.base.thread t).exiting = true → (a.base.thread t).act.flushing = false →
    (a.base.privList t).count = kept (a.counts t)

omit [DecidableEq Tid] [DecidableEq Obj] [DecidableEq Rec] [DecidableEq Cell] [DecidableEq Holder] in
theorem Attributed.Kept.congr (h : a.Kept t) (hp : b.base.privList t = a.base.privList t)
    (he : (b.base.thread t).exiting = (a.base.thread t).exiting)
    (ha : (b.base.thread t).act.flushing = (a.base.thread t).act.flushing) (hc : b.counts t = a.counts t) :
    b.Kept t := by
  constructor
  · rw [he, hc]
    exact h.running
  · rw [he, ha, hc]
    exact h.flushing
  · rw [he, ha, hc, hp]
    exact h.held

omit [DecidableEq Rec] [DecidableEq Cell] [DecidableEq Holder] in
theorem Attributed.Kept.retire_self (h : a.Kept t) {x : Obj} (ha : (a.base.thread t).act = .client) :
    (a.retire t x).Kept t := by
  have hcounts : (a.retire t x).counts t =
      if (a.base.thread t).exiting then a.counts t ++ [a.base.hazptrCount] else a.counts t := by
    simp only [Attributed.retire]
    split <;> simp
  have hheld : (a.base.thread t).exiting = true → (a.base.privList t).count = kept (a.counts t) :=
    fun he => h.held he (by rw [ha]; rfl)
  by_cases hr : scanThreshold ≤ (a.base.privList t).count + 1 ∧
      scanMult * a.base.hazptrCount ≤ (a.base.privList t).count + 1
  · have hbase : (a.retire t x).base = (a.base.pushed t x).setAct t (.link .priv) := retire_reached hr
    constructor <;> rw [hcounts, hbase, setAct_thread_self]
    · intro he
      rw [show (a.base.thread t).exiting = false from he]
      exact h.running he
    · intro (he : (a.base.thread t).exiting = true) _
      rw [if_pos he, kept_concat, ← hheld he, if_pos hr]
    · intro _ hf
      cases hf
  · have hbase : (a.retire t x).base = a.base.pushed t x := retire_below hr
    constructor <;> rw [hcounts, hbase]
    · intro he
      rw [show (a.base.thread t).exiting = false from he]
      exact h.running he
    · intro _ hf
      rw [show ((a.base.pushed t x).thread t).act = .client from ha] at hf
      cases hf
    · intro (he : (a.base.thread t).exiting = true) _
      rw [if_pos he, kept_concat, ← hheld he, if_neg hr, pushed_self, push_count]

omit [DecidableEq Obj] [DecidableEq Rec] [DecidableEq Cell] [DecidableEq Holder] in
theorem Attributed.Kept.exit_self (h : a.Kept t) (he : (a.base.thread t).exiting = false)
    (hc : 0 ≤ (a.base.privList t).count) : ({ a with base := a.base.exit t } : Attributed _ _ _ _ _).Kept t := by
  have hnil := h.running he
  by_cases hp : 0 < (a.base.privList t).count
  · constructor
    · intro he'
      simp [State.exit, hp, State.setThread] at he'
    · intro _ _
      rw [hnil]
      rfl
    · intro _ hf
      simp [State.exit, hp, State.setThread, Act.flushing] at hf
  · constructor
    · intro he'
      simp [State.exit, hp, State.setThread] at he'
    · intro _ _
      rw [hnil]
      rfl
    · intro _ _
      show ((a.base.exit t).privList t).count = kept (a.counts t)
      rw [hnil]
      simp only [State.exit, hp, if_false, State.setThread]
      exact le_antisymm (not_lt.1 hp) hc

theorem Attributed.Kept.step {useCache : Bool} (h : ∀ u, a.Kept u) (hl : Lists a.base own)
    (hnext : Attributed.Next useCache a b) : ∀ u, b.Kept u := by
  intro u
  cases hnext with
  | retire t x ha hx hcell =>
    by_cases hu : u = t
    · rw [hu]
      exact (h t).retire_self ha
    · have hstep : Step useCache t a.base _ := .retire a.base x ha hx hcell
      have hth := step_other hstep hu
      refine (h u).congr (privList_other hstep hu) (by rw [← hth]; rfl) (by rw [← hth]; rfl) ?_
      simp only [Attributed.retire]
      split
      · exact Function.update_of_ne hu _ _
      · rfl
  | quiet t s' hstep hr =>
    by_cases hu : u = t
    · subst hu
      cases flow_of_step hstep with
      | quiet _ hp he ha => exact (h u).congr hp he ha rfl
      | retire x ha hx _ hs =>
        have hret := (retire_retired a.base u x x).2 (.inl rfl)
        rw [← hs, hr] at hret
        exact absurd hret hx
      | clear _ hp he ha ha' =>
        have hk : (a.base.thread u).exiting = true → kept (a.counts u) = 0 :=
          fun hex => (h u).flushing hex (by rw [ha]; rfl)
        constructor
        · intro hex
          exact (h u).running (he.symm.trans hex)
        · intro hex _
          exact hk (he.symm.trans hex)
        · intro hex _
          show (s'.privList u).count = _
          rw [hp, hk (he.symm.trans hex)]
          rfl
      | exit _ ha he hs =>
        subst hs
        have hsettled := hl.settled (t := u) (by rw [ha]; rfl)
        exact (h u).exit_self he (by rw [hsettled.priv.count]; omega)
    · have hth := step_other hstep hu
      exact (h u).congr (privList_other hstep hu) (by rw [← hth]) (by rw [← hth]) rfl

theorem reachable_attribution {useCache : Bool} (ha : Reachable Attributed.Init (Attributed.Next useCache) a) :
    a.base.Unwound ∧ (∀ t, a.Kept t) ∧ ∃ own, Lists a.base own ∧ Attribution a own := by
  apply ha.invariant
  · intro a₀ h₀
    refine ⟨?_, ?_, _, lists_init h₀.base, ?_, ?_, ?_⟩
    · intro u hu
      rw [h₀.base.thread] at hu
      cases hu
    · intro u
      constructor
      · exact fun _ => h₀.counts u
      · intro he
        rw [h₀.base.thread] at he
        cases he
      · intro he
        rw [h₀.base.thread] at he
        cases he
    · intro u x hx
      exact absurd hx (h₀.retiredBy u x)
    · intro u v x hx
      exact absurd hx (h₀.retiredBy u x)
    · intro u x hx
      cases hx
  · rintro a₁ a₂ - ⟨hun, hk, own, hl, hat⟩ hnext
    obtain ⟨t, hstep, hby⟩ := hnext.step
    obtain ⟨own', hl', -⟩ := lists_step hstep hl
    exact ⟨unwound_step hstep hun, Attributed.Kept.step hk hl hnext, own', hl', hat.step hl hl' hstep hby⟩

omit [DecidableEq Tid] [DecidableEq Rec] [DecidableEq Cell] [DecidableEq Holder] [DecidableEq Obj] in
/-- An object on a list of some thread is neither deleted nor on `_retired_list`. -/
theorem Attribution.elsewhere (hl : Lists s own) {p : Spot Tid} {x : Obj} (hx : x ∈ own p)
    (hp : p ≠ .retiredList) : ¬ (s.deletions x ≠ 0 ∨ s.OnRetiredList x) := by
  rintro (hd | hr)
  · cases hl.place.unique x (some p) none hx hd
  · exact hp (hl.spot_eq hx ((hl.onRetiredList_iff x).1 hr))

omit [DecidableEq Obj] [DecidableEq Rec] [DecidableEq Cell] [DecidableEq Holder] in
theorem Attribution.flushed_iff (h : Attribution a own) (hl : Lists a.base own) (hun : a.base.Unwound)
    (hk : a.Kept t) (hact : (a.base.thread t).act = .dropCached []) :
    Flushed t a ↔ kept (a.counts t) = 0 ∧ ∀ u x, u ≠ t → a.retiredBy t x → ¬ a.base.InBatch u x := by
  have hs := hl.settled (t := t) (by rw [hact]; rfl)
  obtain ⟨hstack, he⟩ := hun t (by rw [hact]; rfl)
  rw [hstack] at hs
  have hcount := hk.held he (by rw [hact]; rfl)
  rw [hs.priv.count] at hcount
  constructor
  · intro hf
    constructor
    · have hnil : own (.priv t) = [] := by
        apply List.eq_nil_iff_forall_not_mem.2
        intro x hx
        exact Attribution.elsewhere hl hx (by simp) (hf x (h.priv t x hx))
      rw [← hcount, hnil]
      rfl
    · intro u x hu hx hbatch
      obtain ⟨d, hd | hd⟩ := (hl.inBatch_iff x).1 hbatch
      · exact Attribution.elsewhere hl hd (by simp) (hf x hx)
      · exact Attribution.elsewhere hl hd (by simp) (hf x hx)
  · rintro ⟨hc, hno⟩ x hx
    obtain ⟨p, hp⟩ := hl.place.exists_place x (h.retired t x hx)
    have hbatch : ∀ u d, x ∈ own (.rest u d) ∨ x ∈ own (.left u d) → False := by
      intro u d hxd
      by_cases hu : u = t
      · rw [hu] at hxd
        obtain ⟨h1, h2⟩ := hs.beyond d (Nat.zero_le d)
        rw [h1, h2] at hxd
        rcases hxd with hxd | hxd <;> cases hxd
      · exact hno u x hu hx ((hl.inBatch_iff x).2 ⟨d, hxd⟩)
    cases p with
    | none => exact .inl hp
    | some p =>
      cases p with
      | retiredList => exact .inr ((hl.onRetiredList_iff x).2 hp)
      | rest u d => exact (hbatch u d (.inl hp)).elim
      | left u d => exact (hbatch u d (.inr hp)).elim
      | priv u =>
        have hut := h.unique t u x hx (h.priv u x hp)
        have hpx : x ∈ own (.priv u) := hp
        have hnil : own (.priv t) = [] := List.length_eq_zero_iff.1 (by omega)
        rw [← hut, hnil] at hpx
        cases hpx

/-- A thread leaves nothing behind exactly when the `retire` calls of its last flush come
in full lists and no other `bulkReclaim` is at work on its objects. -/
theorem exit_flushes_iff {useCache : Bool} (ha : Reachable Attributed.Init (Attributed.Next useCache) a)
    (hfin : Finishes t a b) :
    Flushed t b ↔ kept (a.counts t) = 0 ∧ ∀ u x, u ≠ t → a.retiredBy t x → ¬ a.base.InBatch u x := by
  obtain ⟨hun, hk, own, hl, hat⟩ := reachable_attribution ha
  obtain ⟨hact, rfl⟩ := hfin
  exact hat.flushed_iff hl hun (hk t) hact

/-- Every run has such records. -/
theorem exists_attributed {useCache : Bool} (hs : Reachable Init (Next useCache) s) :
    ∃ a, Reachable Attributed.Init (Attributed.Next useCache) a ∧ a.base = s := by
  obtain ⟨s₀, h₀, hrun⟩ := hs
  induction hrun with
  | refl => exact ⟨⟨s₀, fun _ _ => False, fun _ => []⟩, .of_init ⟨h₀, fun _ _ h => h, fun _ => rfl⟩, rfl⟩
  | @tail s₁ s₂ _ hnext ih =>
    obtain ⟨a, ha, rfl⟩ := ih
    obtain ⟨t, hstep⟩ := hnext
    cases flow_of_step hstep with
    | retire x hc hx hcell hs => exact ⟨_, ha.tail (.retire a t x hc hx hcell), hs.symm⟩
    | quiet hr _ _ _ => exact ⟨_, ha.tail (.quiet a t s₂ hstep hr), rfl⟩
    | clear hr _ _ _ _ => exact ⟨_, ha.tail (.quiet a t s₂ hstep hr), rfl⟩
    | exit hr _ _ _ => exact ⟨_, ha.tail (.quiet a t s₂ hstep hr), rfl⟩

end Steps

section Runs

variable [DecidableEq Tid] [DecidableEq Obj] [DecidableEq Rec] [DecidableEq Cell] [DecidableEq Holder]
  {a : Attributed Obj Rec Cell Holder Tid} {useCache : Bool} {rest : List (Batch Obj)}

theorem Attributed.acts (ha : Reachable Attributed.Init (Attributed.Next useCache) a)
    (hc : (a.base.thread t).act ≠ .client) (hstep : Step useCache t a.base s') :
    Reachable Attributed.Init (Attributed.Next useCache) { a with base := s' } := by
  cases flow_of_step hstep with
  | retire x h => exact absurd h hc
  | quiet hr | clear hr | exit hr => exact ha.tail (.quiet a t s' hstep hr)

theorem Attributed.returns (ha : Reachable Attributed.Init (Attributed.Next useCache) a) {b : Batch Obj}
    (hc : (a.base.thread t).act = .client) (hs : (a.base.thread t).stack = b :: rest) :
    Reachable Attributed.Init (Attributed.Next useCache) { a with base := a.base.setAct t .reclaim } :=
  ha.tail (.quiet a t _ (.destructed a.base b rest hc hs) rfl)

/-- `bulkReclaim` deletes a whole batch when it has found no protected object. -/
theorem Attributed.deletes {p : Option Obj} {exiting : Bool}
    (ha : Reachable Attributed.Init (Attributed.Next useCache) a) (xs : List Obj)
    (ht : a.base.thread t = ⟨.reclaim, ⟨p, [], .clear⟩ :: rest, exiting⟩)
    (hp : Segment a.base.next p xs none) :
    ∃ deletions, Reachable Attributed.Init (Attributed.Next useCache)
      { a with
        base := State.setThread { a.base with deletions := deletions } t
          ⟨.reclaim, ⟨none, [], .clear⟩ :: rest, exiting⟩ } := by
  induction xs generalizing a p with
  | nil =>
    cases show p = none from hp
    refine ⟨a.base.deletions, ?_⟩
    rw [State.setThread, ← ht, Function.update_eq_self]
    exact ha
  | cons x xs ih =>
    obtain ⟨rfl, hp⟩ := hp
    have h₁ := ha.tail (.quiet a t _
      (.delete _ x ⟨some x, [], .clear⟩ rest (by rw [ht]) (by rw [ht]) rfl (by simp)) rfl)
    have h₂ := h₁.tail (.quiet _ t _ (.destructed _ ⟨a.base.next x, [], .clear⟩ rest (by simp)
      (by simp [State.setBatch, State.setThread])) rfl)
    obtain ⟨deletions, h⟩ := ih h₂ (by simp [State.setBatch, State.setThread, ht]) hp
    refine ⟨deletions, ?_⟩
    simpa [State.setAct, State.setBatch, State.setThread] using h

end Runs

section Left

/-- Two threads that have retired nothing. -/
def Attributed.unused : Attributed Nat Unit Unit Unit Bool :=
  ⟨.unused, fun _ _ => False, fun _ => []⟩

/-- One thread hands four objects over, another ends with a fifth. The destructor of the
fifth retires one object, or it retires five. -/
theorem exists_last_flushes :
    (∃ a : Attributed Nat Unit Unit Unit Bool, Reachable Attributed.Init (Attributed.Next false) a ∧
      (a.base.thread true).act = .dropCached [] ∧ a.counts true = [0]) ∧
    ∃ a : Attributed Nat Unit Unit Unit Bool, Reachable Attributed.Init (Attributed.Next false) a ∧
      (a.base.thread true).act = .dropCached [] ∧ a.counts true = [0, 0, 0, 0, 0] ∧
      (a.base.thread false).stack = [] := by
  have h₀ : Reachable Attributed.Init (Attributed.Next false) Attributed.unused :=
    .of_init ⟨unused_init, fun _ _ h => h, fun _ => rfl⟩
  have h₁ := h₀.tail (.retire _ false 0 rfl nofun nofun)
  have h₂ := h₁.tail (.retire _ false 1 rfl nofun nofun)
  have h₃ := h₂.tail (.retire _ false 2 rfl nofun nofun)
  have h₄ := h₃.tail (.retire _ false 3 rfl nofun nofun)
  have h₅ := h₄.tail (.quiet _ false _ (.exit _ rfl rfl rfl) rfl)
  have h₆ := Attributed.acts (t := false) h₅ nofun (.link _ .priv 3 rfl rfl)
  have h₇ := Attributed.acts (t := false) h₆ nofun (.appendOk _ .priv 3 rfl rfl rfl)
  have h₈ := Attributed.acts (t := false) h₇ nofun (.countPriv _ rfl)
  have h₉ := h₈.tail (.retire _ true 4 rfl nofun nofun)
  have h₁₀ := h₉.tail (.quiet _ true _ (.exit _ rfl rfl rfl) rfl)
  have h₁₁ := Attributed.acts (t := true) h₁₀ nofun (.link _ .priv 4 rfl rfl)
  have h₁₂ := Attributed.acts (t := true) h₁₁ nofun (.appendOk _ .priv 4 rfl rfl rfl)
  have h₁₃ := Attributed.acts (t := true) h₁₂ nofun (.countPriv _ rfl)
  have h₁₄ := Attributed.acts (t := true) h₁₃ nofun (.loadCount _ rfl)
  have h₁₅ := Attributed.acts (t := true) h₁₄ nofun (.loadHazptrCount _ 5 rfl)
  have h₁₆ := Attributed.acts (t := true) h₁₅ nofun (.casCountOk _ 5 rfl rfl)
  have h₁₇ := Attributed.acts (t := true) h₁₆ nofun (.exchange _ rfl)
  have h₁₈ := Attributed.acts (t := true) h₁₇ nofun (.loadRecords _ rfl)
  have h₁₉ := Attributed.acts (t := true) h₁₈ nofun
    (.delete _ 4 ⟨some 4, [], .clear⟩ [] rfl rfl rfl (by simp))
  have h₂₀ := h₁₉.tail (.retire _ true 5 rfl nofun nofun)
  have k₁ := Attributed.returns (t := true) h₂₀ rfl rfl
  obtain ⟨d₁, k₂⟩ := Attributed.deletes (t := true) k₁ [0, 1, 2, 3] rfl ⟨rfl, rfl, rfl, rfl, rfl⟩
  have k₃ := Attributed.acts (t := true) k₂ nofun
    (.reclaimed _ ⟨none, [], .clear⟩ [] rfl rfl rfl (lt_irrefl 0))
  have m₁ := h₂₀.tail (.retire _ true 6 rfl nofun nofun)
  have m₂ := m₁.tail (.retire _ true 7 rfl nofun nofun)
  have m₃ := m₂.tail (.retire _ true 8 rfl nofun nofun)
  have m₄ := m₃.tail (.retire _ true 9 rfl nofun nofun)
  have m₅ := Attributed.acts (t := true) m₄ nofun (.link _ .priv 9 rfl rfl)
  have m₆ := Attributed.acts (t := true) m₅ nofun (.appendOk _ .priv 9 rfl rfl rfl)
  have m₇ := Attributed.acts (t := true) m₆ nofun (.countPriv _ rfl)
  have m₈ := Attributed.acts (t := true) m₇ nofun (.loadCount _ rfl)
  have m₉ := Attributed.acts (t := true) m₈ nofun (.loadHazptrCount _ 5 rfl)
  have m₁₀ := Attributed.acts (t := true) m₉ nofun (.casCountOk _ 5 rfl rfl)
  have m₁₁ := Attributed.acts (t := true) m₁₀ nofun (.exchange _ rfl)
  have m₁₂ := Attributed.acts (t := true) m₁₁ nofun (.loadRecords _ rfl)
  obtain ⟨d₂, m₁₃⟩ := Attributed.deletes (t := true) m₁₂ [5, 6, 7, 8, 9] rfl ⟨rfl, rfl, rfl, rfl, rfl, rfl⟩
  have m₁₄ := Attributed.acts (t := true) m₁₃ nofun
    (.reclaimed _ ⟨none, [], .clear⟩ [⟨some 0, [], .clear⟩] rfl rfl rfl (lt_irrefl 0))
  have m₁₅ := Attributed.returns (t := true) m₁₄ rfl rfl
  obtain ⟨d₃, m₁₆⟩ := Attributed.deletes (t := true) m₁₅ [0, 1, 2, 3] rfl ⟨rfl, rfl, rfl, rfl, rfl⟩
  have m₁₇ := Attributed.acts (t := true) m₁₆ nofun
    (.reclaimed _ ⟨none, [], .clear⟩ [] rfl rfl rfl (lt_irrefl 0))
  exact ⟨⟨_, k₃, rfl, rfl⟩, _, m₁₇, rfl, rfl, rfl⟩

/-- What a destructor of the last flush retires can stay on the private list. -/
theorem exit_leaves_object : ¬ ∀ a b : Attributed Nat Unit Unit Unit Bool,
    Reachable Attributed.Init (Attributed.Next false) a → Finishes true a b → Flushed true b := by
  intro h
  obtain ⟨⟨a, ha, hact, hcounts⟩, -⟩ := exists_last_flushes
  obtain ⟨hun, hk, own, hl, hat⟩ := reachable_attribution ha
  have hf : Flushed true { a with base := a.base.setAct true .exited } := h a _ ha ⟨hact, rfl⟩
  have hzero := ((hat.flushed_iff hl hun (hk true) hact).1 hf).1
  rw [hcounts] at hzero
  exact absurd hzero (by decide)

theorem exit_flushes_iff_five : ∃ a b : Attributed Nat Unit Unit Unit Bool,
    Reachable Attributed.Init (Attributed.Next false) a ∧ Finishes true a b ∧
    a.counts true = [0, 0, 0, 0, 0] ∧ Flushed true b := by
  obtain ⟨-, a, ha, hact, hcounts, hstack⟩ := exists_last_flushes
  refine ⟨a, { a with base := a.base.setAct true .exited }, ha, ⟨hact, rfl⟩, hcounts, ?_⟩
  refine (exit_flushes_iff ha ⟨hact, rfl⟩).2 ⟨?_, ?_⟩
  · rw [hcounts]
    exact kept_eq_mod (by decide)
  · rintro u x hu - ⟨d, ⟨b, l, hb, -⟩ | ⟨⟨b, hb, -⟩, -⟩⟩
    · rw [Bool.eq_false_of_not_eq_true hu, hstack] at hb
      cases hb
    · rw [Bool.eq_false_of_not_eq_true hu, hstack] at hb
      cases hb

end Left

end Wizard.Hazptr
