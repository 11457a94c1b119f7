import Wizard.HazptrOnce
import Wizard.HazptrRecords

/-! A protected object is not deleted. Once a record holds a validated pointer, every
batch that comes to contain the object is taken before its scan, and the scan meets
the record while it still holds the pointer. -/

namespace Wizard.Hazptr

variable {Obj Rec Cell Holder Tid : Type*}
variable {s s' : State Obj Rec Cell Holder Tid} {own own' : Spot Tid → List Obj} {list : List Rec} {t : Tid}

/-- The scan of the innermost batch has still to read the record. -/
def Ahead (s : State Obj Rec Cell Holder Tid) (r : Rec) : Act Obj Rec Cell Holder → Prop
  | .loadRecords => True
  | .scan rec => ∃ rest, Segment s.recNext (some rec) rest none ∧ r ∈ rest
  | _ => False

def Act.scanning : Act Obj Rec Cell Holder → Bool
  | .loadRecords | .scan _ => true
  | _ => false

theorem not_ahead {r : Rec} {a : Act Obj Rec Cell Holder} (h : a.scanning = false) : ¬ Ahead s r a := by
  cases a <;> simp_all [Ahead, Act.scanning]

/-- Each batch with the object has the pointer in its set, or will find it. -/
structure Guard (s : State Obj Rec Cell Holder Tid) (own : Spot Tid → List Obj) (r : Rec) (p : Obj) :
    Prop where
  alive : s.deletions p = 0
  batch : ∀ u d b, batchAt (s.thread u).stack d = some b → p ∈ own (.rest u d) →
    some p ∈ b.set ∨ d + 1 = (s.thread u).stack.length ∧ Ahead s r (s.thread u).act

theorem Records.ahead_frame (h : Records s list) {r : Rec} {u : Tid}
    (hn : ∀ q ∈ list, s'.recNext q = s.recNext q) (ha : Ahead s r (s.thread u).act) :
    Ahead s' r (s.thread u).act := by
  have hok := h.act u
  cases hact : (s.thread u).act with
  | scan rec =>
    rw [hact] at ha hok
    obtain ⟨rest, hrest, hr⟩ := ha
    obtain ⟨post, hpost, hsub⟩ := h.suffix hok
    have hfull : Segment s.recNext (some rec) (rec :: post) none := ⟨rfl, hpost⟩
    refine ⟨rest, hrest.congr ?_, hr⟩
    intro q hq
    rw [hrest.unique hfull] at hq
    rcases List.mem_cons.1 hq with rfl | hq
    · exact hn q hok
    · exact hn q (hsub q hq)
  | loadRecords => trivial
  | _ =>
    rw [hact] at ha
    exact ha

section Fields

variable [DecidableEq Tid]

theorem finish_fields (s : State Obj Rec Cell Holder Tid) (t : Tid) :
    (s.finish t).recNext = s.recNext ∧ (s.finish t).deletions = s.deletions ∧
      (s.finish t).cell = s.cell ∧ (s.finish t).retired = s.retired ∧
      ((s.finish t).thread t).stack = (s.thread t).stack ∧
      ∀ u, u ≠ t → (s.finish t).thread u = s.thread u := by
  obtain ⟨a, pool, -, -, he⟩ := finish_eq s t
  rw [he]
  refine ⟨rfl, rfl, rfl, rfl, ?_, ?_⟩
  · simp [State.setAct, State.setThread]
  · intro u hu
    simp [State.setAct, State.setThread, hu]

theorem searchAt_eq (s : State Obj Rec Cell Holder Tid) (t : Tid) (x : Holder) (rec : Option Rec) :
    ∃ a, a.scanning = false ∧ s.searchAt t x rec = s.setAct t a := by
  cases rec with
  | none => exact ⟨.newRecord x, rfl, rfl⟩
  | some rec => exact ⟨.loadActive x rec, rfl, rfl⟩

end Fields

/-- Where the scan of `bulkReclaim` goes on. -/
def scanFrom : Option Rec → Act Obj Rec Cell Holder
  | some rec => .scan rec
  | none => .reclaim

/-- How a step changes the calls of `bulkReclaim` in progress. -/
inductive StackStep (s s' : State Obj Rec Cell Holder Tid) (t : Tid) : Prop
  | same (ha : (s.thread t).act.scanning = false) (hs : (s'.thread t).stack = (s.thread t).stack)
  | load (ha : (s.thread t).act = .loadRecords) (hs : (s'.thread t).stack = (s.thread t).stack)
      (ha' : (s'.thread t).act = scanFrom s.hazptrList)
  | scan (rec b rest) (ha : (s.thread t).act = .scan rec) (hs : (s.thread t).stack = b :: rest)
      (hs' : (s'.thread t).stack = { b with set := s.realptr rec :: b.set } :: rest)
      (ha' : (s'.thread t).act = scanFrom (s.recNext rec))
  | push (b) (ha : (s.thread t).act = .exchange) (hs : (s'.thread t).stack = b :: (s.thread t).stack)
      (ha' : (s'.thread t).act = .loadRecords)
  | pop (b rest) (ha : (s.thread t).act.scanning = false) (hs : (s.thread t).stack = b :: rest)
      (hs' : (s'.thread t).stack = rest)
  | edit (b b' rest) (ha : (s.thread t).act.scanning = false) (hs : (s.thread t).stack = b :: rest)
      (hs' : (s'.thread t).stack = b' :: rest) (hset : b'.set = b.set)

variable [DecidableEq Obj] [DecidableEq Rec] [DecidableEq Cell] [DecidableEq Holder] [DecidableEq Tid]

omit [DecidableEq Obj] [DecidableEq Rec] [DecidableEq Cell] [DecidableEq Holder] in
theorem scanAt_eq (s : State Obj Rec Cell Holder Tid) (t : Tid) (rec : Option Rec) :
    s.scanAt t rec = s.setAct t (scanFrom rec) := by
  cases rec <;> rfl

theorem stack_step {useCache : Bool} (hstep : Step useCache t s s') : StackStep s s' t := by
  have hact : ∀ {σ : State Obj Rec Cell Holder Tid} {a : Act Obj Rec Cell Holder},
      ((σ.setAct t a).thread t).stack = (σ.thread t).stack := by
    intro σ a
    simp [State.setAct, State.setThread]
  cases hstep with
  | store c v ha hv => exact .same (by rw [ha]; rfl) rfl
  | retire x ha hx hcell =>
    refine .same (by rw [ha]; rfl) ?_
    unfold State.retire
    split
    · exact hact
    · rfl
  | acquire x ha hu hh hf =>
    obtain ⟨a, -, he⟩ := searchAt_eq s t x s.hazptrList
    rw [he]
    exact .same (by rw [ha]; rfl) hact
  | acquireCached x rec rest ha hu hh hf hp => exact .same (by rw [ha]; rfl) rfl
  | acquireFresh x ha hu hh hf hp => exact .same (by rw [ha]; rfl) hact
  | loadActive x rec ha =>
    refine .same (by rw [ha]; rfl) ?_
    split
    · obtain ⟨a, -, he⟩ := searchAt_eq s t x (s.recNext rec)
      rw [he]
      exact hact
    · exact hact
  | casActiveFail x rec ha hr =>
    obtain ⟨a, -, he⟩ := searchAt_eq s t x (s.recNext rec)
    rw [he]
    exact .same (by rw [ha]; rfl) hact
  | pushRecordFail x rec ha => exact .same (by rw [ha]; rfl) rfl
  | reset x rec p ha hh hf => exact .same (by rw [ha]; rfl) rfl
  | swap x x' rec rec' ha hh hh' hf hf' => exact .same (by rw [ha]; rfl) rfl
  | destroyCached x rec ha hu hh hf =>
    refine .same (by rw [ha]; rfl) ?_
    unfold State.freeCachedRec
    split <;> rfl
  | appendFail source tail ha hl => exact .same (by rw [ha]; rfl) rfl
  | countLeft b rest ha hs =>
    refine .pop b rest (by rw [ha]; rfl) hs ?_
    rw [(finish_fields _ t).2.2.2.2.1]
    simp [State.setThread]
  | loadHazptrCount cnt ha =>
    refine .same (by rw [ha]; rfl) ?_
    split
    · exact (finish_fields _ t).2.2.2.2.1
    · exact hact
  | exchange ha =>
    refine .push ⟨s.retiredList, [], .clear⟩ ha ?_ ?_
    · simp [State.setAct, State.setBatch, State.setThread]
    · simp [State.setAct, State.setThread]
  | loadRecords ha =>
    rw [scanAt_eq]
    exact .load ha hact (by simp)
  | scan rec b rest ha hs =>
    rw [scanAt_eq]
    exact .scan rec b rest ha hs (by simp [State.setBatch, State.setThread]) (by simp)
  | keep x b rest ha hs hp hset =>
    refine .edit b ⟨s.next x, b.set, b.leftList.push x⟩ rest (by rw [ha]; rfl) hs ?_ rfl
    simp [State.setBatch, State.setThread]
  | delete x b rest ha hs hp hset =>
    refine .edit b { b with p := s.next x } rest (by rw [ha]; rfl) hs ?_ rfl
    simp [State.setAct, State.setBatch, State.setThread]
  | reclaimed b rest ha hs hp hl =>
    refine .pop b rest (by rw [ha]; rfl) hs ?_
    rw [(finish_fields _ t).2.2.2.2.1]
    simp [State.setThread]
  | exit ha hs he =>
    refine .same (by rw [ha]; rfl) ?_
    unfold State.exit
    split <;> simp [State.setThread, hs]
  | casActiveOk x rec ha hr => exact .same (by rw [ha]; rfl) hact
  | newRecord x rec ha hr => exact .same (by rw [ha]; rfl) hact
  | pushRecordOk x rec ha he => exact .same (by rw [ha]; rfl) hact
  | countRecord x rec ha => exact .same (by rw [ha]; rfl) hact
  | tryProtect x rec p src ha hh hf => exact .same (by rw [ha]; rfl) hact
  | getProtected x rec src ha hh hf => exact .same (by rw [ha]; rfl) hact
  | publish x rec p src ha hh => exact .same (by rw [ha]; rfl) hact
  | validateOk x p src again ha he => exact .same (by rw [ha]; rfl) hact
  | validateFail x p src again ha he => exact .same (by rw [ha]; rfl) hact
  | retract x rec latest src again ha hh => exact .same (by rw [ha]; rfl) hact
  | destroy x rec ha hu hh hf => exact .same (by rw [ha]; rfl) hact
  | releaseRecord rec ha => exact .same (by rw [ha]; rfl) hact
  | link source tail ha hl => exact .same (by rw [ha]; rfl) hact
  | appendOk source tail ha hl he => exact .same (by rw [ha]; rfl) hact
  | countPriv ha => exact .same (by rw [ha]; rfl) hact
  | loadCount ha => exact .same (by rw [ha]; rfl) hact
  | casCountOk cnt ha he => exact .same (by rw [ha]; rfl) hact
  | casCountFail cnt ha => exact .same (by rw [ha]; rfl) hact
  | destructed b rest ha hs => exact .same (by rw [ha]; rfl) hact
  | appendLeft b rest ha hs hp hl => exact .same (by rw [ha]; rfl) hact
  | dropCached rec rest ha => exact .same (by rw [ha]; rfl) hact
  | exited ha => exact .same (by rw [ha]; rfl) hact

omit [DecidableEq Obj] [DecidableEq Rec] [DecidableEq Cell] [DecidableEq Holder] in
theorem exit_eq (s : State Obj Rec Cell Holder Tid) (t : Tid) :
    ∃ pool th, s.exit t = { s with pool := pool }.setThread t th := by
  unfold State.exit
  split
  · exact ⟨s.pool, _, rfl⟩
  · exact ⟨_, _, rfl⟩

theorem step_other {useCache : Bool} (hstep : Step useCache t s s') {u : Tid} (hu : u ≠ t) :
    s'.thread u = s.thread u := by
  have hset : ∀ {σ : State Obj Rec Cell Holder Tid} {th : Thread Obj Rec Cell Holder},
      (σ.setThread t th).thread u = σ.thread u := by
    intro σ th
    simp [State.setThread, hu]
  cases hstep with
  | retire x ha hx hcell =>
    unfold State.retire
    split
    · exact hset
    · rfl
  | acquire x ha hu' hh hf =>
    obtain ⟨a, -, he⟩ := searchAt_eq s t x s.hazptrList
    rw [he]
    exact hset
  | loadActive x rec ha =>
    split
    · obtain ⟨a, -, he⟩ := searchAt_eq s t x (s.recNext rec)
      rw [he]
      exact hset
    · exact hset
  | casActiveFail x rec ha hr =>
    obtain ⟨a, -, he⟩ := searchAt_eq s t x (s.recNext rec)
    rw [he]
    exact hset
  | destroyCached x rec ha hu' hh hf =>
    unfold State.freeCachedRec
    split <;> rfl
  | countLeft b rest ha hs => exact ((finish_fields _ t).2.2.2.2.2 u hu).trans hset
  | loadHazptrCount cnt ha =>
    split
    · exact (finish_fields _ t).2.2.2.2.2 u hu
    · exact hset
  | exchange ha => exact hset.trans hset
  | loadRecords ha =>
    rw [scanAt_eq]
    exact hset
  | scan rec b rest ha hs =>
    rw [scanAt_eq]
    exact hset.trans hset
  | delete x b rest ha hs hp hset' => exact hset.trans hset
  | reclaimed b rest ha hs hp hl => exact ((finish_fields _ t).2.2.2.2.2 u hu).trans hset
  | exit ha hs he =>
    obtain ⟨pool, th, hexit⟩ := exit_eq s t
    rw [hexit]
    exact hset
  | store | acquireCached | pushRecordFail | reset | swap | appendFail => rfl
  | _ => exact hset

/-- How a step changes the record links, the deletions and what client code did. -/
inductive Effect (s s' : State Obj Rec Cell Holder Tid) (t : Tid) : Prop
  | quiet (h1 : s'.recNext = s.recNext) (h2 : s'.deletions = s.deletions) (h3 : s'.cell = s.cell)
      (h4 : s'.retired = s.retired)
  | store (c v) (hv : ∀ x, v = some x → ¬ s.retired x) (h1 : s'.recNext = s.recNext)
      (h2 : s'.deletions = s.deletions) (h3 : s'.cell = Function.update s.cell c v)
      (h4 : s'.retired = s.retired)
  | retire (x) (hc : ∀ c, s.cell c ≠ some x) (h1 : s'.recNext = s.recNext) (h2 : s'.deletions = s.deletions)
      (h3 : s'.cell = s.cell) (h4 : s'.retired = fun y => y = x ∨ s.retired y)
  | relink (rec v) (hr : ¬ s.allocated rec ∨ ∃ x, (s.thread t).act = .pushRecord x rec)
      (h1 : s'.recNext = Function.update s.recNext rec v) (h2 : s'.deletions = s.deletions)
      (h3 : s'.cell = s.cell) (h4 : s'.retired = s.retired)
  | delete (x b rest) (ha : (s.thread t).act = .reclaim) (hs : (s.thread t).stack = b :: rest)
      (hp : b.p = some x) (hset : some x ∉ b.set) (h1 : s'.recNext = s.recNext)
      (h2 : s'.deletions = Function.update s.deletions x (s.deletions x + 1)) (h3 : s'.cell = s.cell)
      (h4 : s'.retired = s.retired)

theorem effect_of_step {useCache : Bool} (hstep : Step useCache t s s') : Effect s s' t := by
  cases hstep with
  | store c v ha hv => exact .store c v hv rfl rfl rfl rfl
  | retire x ha hx hcell =>
    unfold State.retire
    split <;> exact .retire x hcell rfl rfl rfl rfl
  | newRecord x rec ha hr => exact .relink rec s.hazptrList (.inl hr) rfl rfl rfl rfl
  | pushRecordFail x rec ha => exact .relink rec s.hazptrList (.inr ⟨x, ha⟩) rfl rfl rfl rfl
  | delete x b rest ha hs hp hset => exact .delete x b rest ha hs hp hset rfl rfl rfl rfl
  | acquire x ha hu' hh hf =>
    obtain ⟨a, -, he⟩ := searchAt_eq s t x s.hazptrList
    rw [he]
    exact .quiet rfl rfl rfl rfl
  | loadActive x rec ha =>
    split
    · obtain ⟨a, -, he⟩ := searchAt_eq s t x (s.recNext rec)
      rw [he]
      exact .quiet rfl rfl rfl rfl
    · exact .quiet rfl rfl rfl rfl
  | casActiveFail x rec ha hr =>
    obtain ⟨a, -, he⟩ := searchAt_eq s t x (s.recNext rec)
    rw [he]
    exact .quiet rfl rfl rfl rfl
  | destroyCached x rec ha hu' hh hf =>
    unfold State.freeCachedRec
    split <;> exact .quiet rfl rfl rfl rfl
  | countLeft b rest ha hs =>
    obtain ⟨a, pool, -, -, he⟩ := finish_eq ({ s with
      retiredCount := wrap (s.retiredCount + b.leftList.count) }.setThread t { s.thread t with stack := rest }) t
    rw [he]
    exact .quiet rfl rfl rfl rfl
  | loadHazptrCount cnt ha =>
    split
    · obtain ⟨a, pool, -, -, he⟩ := finish_eq s t
      rw [he]
      exact .quiet rfl rfl rfl rfl
    · exact .quiet rfl rfl rfl rfl
  | loadRecords ha =>
    rw [scanAt_eq]
    exact .quiet rfl rfl rfl rfl
  | scan rec b rest ha hs =>
    rw [scanAt_eq]
    exact .quiet rfl rfl rfl rfl
  | reclaimed b rest ha hs hp hl =>
    obtain ⟨a, pool, -, -, he⟩ := finish_eq (s.setThread t { s.thread t with stack := rest }) t
    rw [he]
    exact .quiet rfl rfl rfl rfl
  | exit ha hs he =>
    obtain ⟨pool, th, hexit⟩ := exit_eq s t
    rw [hexit]
    exact .quiet rfl rfl rfl rfl
  | _ => exact .quiet rfl rfl rfl rfl

omit [DecidableEq Holder] [DecidableEq Tid] in
/-- Records on the list keep their links. -/
theorem Effect.recNext (he : Effect s s' t) (h : Records s list) {q : Rec} (hq : q ∈ list) :
    s'.recNext q = s.recNext q := by
  cases he with
  | relink rec v hr h1 h2 h3 h4 =>
    rw [h1]
    refine Function.update_of_ne ?_ _ _
    intro hqr
    rw [hqr] at hq
    rcases hr with hr | ⟨x, ha⟩
    · exact hr (h.allocated rec hq)
    · exact h.fresh ha hq
  | quiet h1 | store _ _ _ h1 | retire _ _ h1 | delete _ _ _ _ _ _ _ h1 => rw [h1]

/-- No cell holds a retired object. -/
def Live (s : State Obj Rec Cell Holder Tid) : Prop :=
  ∀ c x, s.cell c = some x → ¬ s.retired x

omit [DecidableEq Holder] [DecidableEq Tid] in
theorem Effect.live (he : Effect s s' t) (h : Live s) : Live s' := by
  intro c x hx
  cases he with
  | store c' v hv h1 h2 h3 h4 =>
    rw [h3] at hx
    rw [h4]
    by_cases hc : c = c'
    · rw [hc, Function.update_self] at hx
      exact hv x hx
    · rw [Function.update_of_ne hc] at hx
      exact h c x hx
  | retire y hc h1 h2 h3 h4 =>
    rw [h3] at hx
    rw [h4]
    rintro (rfl | hr)
    · exact hc c hx
    · exact h c x hx hr
  | quiet h1 h2 h3 h4 =>
    rw [h3] at hx
    rw [h4]
    exact h c x hx
  | relink rec v hr h1 h2 h3 h4 =>
    rw [h3] at hx
    rw [h4]
    exact h c x hx
  | delete y b rest ha hs hp hset h1 h2 h3 h4 =>
    rw [h3] at hx
    rw [h4]
    exact h c x hx

theorem reachable_live {useCache : Bool} (hs : Reachable Init (Next useCache) s) : Live s := by
  apply hs.invariant
  · intro s₀ h₀ c x _
    exact h₀.retired x
  · rintro s₁ s₂ - h₁ ⟨t, hstep⟩
    exact (effect_of_step hstep).live h₁

section Guard

omit [DecidableEq Obj] [DecidableEq Rec] [DecidableEq Cell] [DecidableEq Holder] [DecidableEq Tid]

theorem batchAt_cons_of_lt {b : Batch Obj} {rest : List (Batch Obj)} {d : Nat} (hd : d < rest.length) :
    batchAt (b :: rest) d = batchAt rest d :=
  if_neg (by omega)

theorem batchAt_cons_self (b : Batch Obj) (rest : List (Batch Obj)) : batchAt (b :: rest) rest.length = some b :=
  if_pos rfl

theorem Guard.mem_set {r : Rec} {p : Obj} (h : Guard s own r p) (ha : (s.thread t).act.scanning = false)
    {d : Nat} {b : Batch Obj} (hb : batchAt (s.thread t).stack d = some b) (hp : p ∈ own (.rest t d)) :
    some p ∈ b.set := by
  rcases h.batch t d b hb hp with hset | ⟨-, hahead⟩
  · exact hset
  · exact absurd hahead (not_ahead ha)

theorem scanFrom_ahead {r : Rec} (hn : ∀ q ∈ list, s'.recNext q = s.recNext q)
    {p : Option Rec} {rest : List Rec} (hrest : Segment s.recNext p rest none) (hr : r ∈ rest)
    (hsub : ∀ q ∈ rest, q ∈ list) : Ahead s' r (scanFrom p) := by
  cases p with
  | none =>
    cases rest with
    | nil => cases hr
    | cons q rest => cases hrest.1
  | some q => exact ⟨rest, hrest.congr (fun q hq => hn q (hsub q hq)), hr⟩

theorem Guard.batch_step {r : Rec} {p : Obj} (h : Guard s own r p) (hrec : Records s list) (hr : r ∈ list)
    (hreal : s.realptr r = some p) (hn : ∀ q ∈ list, s'.recNext q = s.recNext q)
    (hstack : StackStep s s' t) {d : Nat} {b' : Batch Obj} (hb' : batchAt (s'.thread t).stack d = some b')
    (hp : p ∈ own (.rest t d)) :
    some p ∈ b'.set ∨ d + 1 = (s'.thread t).stack.length ∧ Ahead s' r (s'.thread t).act := by
  cases hstack with
  | same ha hs =>
    rw [hs] at hb'
    exact .inl (h.mem_set ha hb' hp)
  | load ha hs ha' =>
    rw [hs] at hb' ⊢
    rcases h.batch t d b' hb' hp with hset | ⟨hd, -⟩
    · exact .inl hset
    · rw [ha']
      exact .inr ⟨hd, scanFrom_ahead hn hrec.linked hr (fun _ hq => hq)⟩
  | scan rec b rest ha hs hs' ha' =>
    rw [hs'] at hb' ⊢
    by_cases hd : d = rest.length
    · subst hd
      rw [batchAt_cons_self] at hb'
      have hbb : b' = { b with set := s.realptr rec :: b.set } := (Option.some.inj hb').symm
      subst hbb
      rcases h.batch t rest.length b (by rw [hs, batchAt_cons_self]) hp with hset | ⟨-, hahead⟩
      · exact .inl (List.mem_cons_of_mem _ hset)
      · rw [ha] at hahead
        obtain ⟨rs, hseg, hmem⟩ := hahead
        have hok := hrec.act t
        rw [ha] at hok
        obtain ⟨post, hpost, hsub⟩ := hrec.suffix hok
        have hfull : Segment s.recNext (some rec) (rec :: post) none := ⟨rfl, hpost⟩
        rw [hseg.unique hfull] at hmem
        rcases List.mem_cons.1 hmem with hrr | hmem
        · rw [hrr] at hreal
          exact .inl (by rw [hreal]; exact List.mem_cons_self)
        · rw [ha']
          exact .inr ⟨by simp, scanFrom_ahead hn hpost hmem hsub⟩
    · have hlt := batchAt_lt hb'
      simp only [List.length_cons] at hlt
      rw [batchAt_cons_of_lt (by omega)] at hb'
      rcases h.batch t d b' (by rw [hs, batchAt_cons_of_lt (by omega)]; exact hb') hp with hset | ⟨hlen, -⟩
      · exact .inl hset
      · rw [hs] at hlen
        simp only [List.length_cons] at hlen
        omega
  | push b ha hs ha' =>
    rw [hs] at hb' ⊢
    by_cases hd : d = (s.thread t).stack.length
    · rw [ha', hd]
      exact .inr ⟨by simp, trivial⟩
    · have hlt := batchAt_lt hb'
      simp only [List.length_cons] at hlt
      rw [batchAt_cons_of_lt (by omega)] at hb'
      exact .inl (h.mem_set (by rw [ha]; rfl) hb' hp)
  | pop b rest ha hs hs' =>
    rw [hs'] at hb'
    have hold : batchAt (s.thread t).stack d = some b' := by
      rw [hs, batchAt_cons_of_lt (batchAt_lt hb')]
      exact hb'
    exact .inl (h.mem_set ha hold hp)
  | edit b c rest ha hs hs' hset =>
    rw [hs'] at hb'
    by_cases hd : d = rest.length
    · subst hd
      rw [batchAt_cons_self] at hb'
      rw [← Option.some.inj hb', hset]
      exact .inl (h.mem_set ha (by rw [hs, batchAt_cons_self]) hp)
    · have hlt := batchAt_lt hb'
      simp only [List.length_cons] at hlt
      rw [batchAt_cons_of_lt (by omega)] at hb'
      exact .inl (h.mem_set ha (by rw [hs, batchAt_cons_of_lt (by omega)]; exact hb') hp)

end Guard

theorem Guard.step {r : Rec} {p : Obj} {useCache : Bool} (h : Guard s own r p) (hl : Lists s own)
    (hrec : Records s list) (hr : r ∈ list) (hreal : s.realptr r = some p)
    (hstep : Step useCache t s s') (hshrink : Shrinks s own own') : Guard s' own' r p := by
  have heffect := effect_of_step hstep
  have hstack := stack_step hstep
  have hn : ∀ q ∈ list, s'.recNext q = s.recNext q := fun q hq => heffect.recNext hrec hq
  constructor
  · cases heffect with
    | delete x b rest ha hs hp hset h1 h2 h3 h4 =>
      have hpx : p ≠ x := by
        intro hpx
        obtain ⟨l, hown, -⟩ := hl.rest_cons ha hs hp
        have hmem := h.mem_set (t := t) (d := rest.length) (b := b) (by rw [ha]; rfl)
          (by rw [hs, batchAt_cons_self]) (by simp [hown, hpx])
        rw [hpx] at hmem
        exact hset hmem
      rw [h2, Function.update_of_ne hpx]
      exact h.alive
    | quiet h1 h2 | store _ _ _ h1 h2 | retire _ _ h1 h2 | relink _ _ _ h1 h2 =>
      rw [h2]
      exact h.alive
  · intro u d b' hb' hp'
    by_cases hu : u = t
    · subst hu
      rcases hshrink u d p hp' with hp | ⟨ha, hd⟩
      · exact h.batch_step hrec hr hreal hn hstack hb' hp
      · cases hstack with
        | push b ha' hs hact =>
          rw [hact, hs, hd]
          exact .inr ⟨by simp, trivial⟩
        | same ha' hs =>
          rw [hs] at hb'
          have hlt := batchAt_lt hb'
          omega
        | load ha' => rw [ha] at ha'; cases ha'
        | scan rec b rest ha' => rw [ha] at ha'; cases ha'
        | pop b rest ha' hs hs' =>
          rw [hs'] at hb'
          have hlt := batchAt_lt hb'
          rw [hs] at hd
          simp only [List.length_cons] at hd
          omega
        | edit b c rest ha' hs hs' =>
          rw [hs'] at hb'
          have hlt := batchAt_lt hb'
          rw [hs] at hd
          simp only [List.length_cons] at hd hlt
          omega
    · rw [step_other hstep hu] at hb' ⊢
      rcases hshrink u d p hp' with hp | ⟨-, hd⟩
      · rcases h.batch u d b' hb' hp with hset | ⟨hlen, hahead⟩
        · exact .inl hset
        · exact .inr ⟨hlen, hrec.ahead_frame hn hahead⟩
      · have hlt := batchAt_lt hb'
        omega

/-- `try_protect` returns true, or `get_protected` returns the pointer. -/
def Protects (t : Tid) (h : Holder) (r : Rec) (p : Obj) (s s' : State Obj Rec Cell Holder Tid) : Prop :=
  ∃ src again, (s.thread t).act = .validate h (some p) src again ∧ s.cell src = some p ∧
    s.holder h = some r ∧ s' = s.setAct t .client

/-- From then on no `bulkReclaim` deletes the object while the record holds it. -/
theorem protected_not_deleted {useCache : Bool} {s₁ s₂ : State Obj Rec Cell Holder Tid} {h : Holder} {r : Rec}
    {p : Obj} (hs : Reachable Init (Next useCache) s) (hprot : Protects t h r p s s₁)
    (hrun : Relation.ReflTransGen (Within (Next useCache) fun s => s.realptr r = some p) s₁ s₂) :
    s₁.realptr r = some p ∧ s₂.deletions p = 0 := by
  obtain ⟨src, again, ha, hcell, hh, rfl⟩ := hprot
  obtain ⟨own, hl⟩ := reachable_lists hs
  obtain ⟨list, hrec⟩ := reachable_records hs
  have hfresh := reachable_live hs src p hcell
  have hreal : s.realptr r = some p := by
    have hok := hrec.act t
    rw [ha] at hok
    obtain ⟨q, hq, hqp⟩ := hok
    rw [hh] at hq
    rw [Option.some.inj hq]
    exact hqp
  have hguard : Guard (s.setAct t .client) own r p := by
    constructor
    · by_contra hd
      exact hfresh (hl.place.mem p none hd)
    · intro u d b _ hp
      exact absurd hp (hl.not_mem_of_fresh hfresh _)
  have hstart : Step useCache t s (s.setAct t .client) := .validateOk s h (some p) src again ha hcell
  have hl₁ : Lists (s.setAct t .client) own := hl.setAct (by rw [ha]; rfl) rfl
  obtain ⟨list₁, hrec₁, hsub⟩ := records_step hstart hrec
  have hr₁ := hsub r (hrec.holder h r hh)
  refine ⟨hreal, ?_⟩
  have hinv : ∃ own list, Lists s₂ own ∧ Records s₂ list ∧ r ∈ list ∧ s₂.realptr r = some p ∧
      Guard s₂ own r p := by
    clear hstart
    induction hrun with
    | refl => exact ⟨own, list₁, hl₁, hrec₁, hr₁, hreal, hguard⟩
    | tail _ hstep ih =>
      obtain ⟨own₁, list₂, hl₂, hrec₂, hr₂, hreal₂, hguard₂⟩ := ih
      obtain ⟨⟨u, hstep⟩, hreal₃⟩ := hstep
      obtain ⟨own₂, hl₃, hshrink⟩ := lists_step hstep hl₂
      obtain ⟨list₃, hrec₃, hsub₃⟩ := records_step hstep hrec₂
      exact ⟨own₂, list₃, hl₃, hrec₃, hsub₃ r hr₂, hreal₃,
        hguard₂.step hl₂ hrec₂ hr₂ hreal₂ hstep hshrink⟩
  obtain ⟨_, _, _, _, _, _, hguard₂⟩ := hinv
  exact hguard₂.alive

theorem exists_retired_run (s : State Nat Unit Unit Unit Unit)
    (hreal : s.realptr () = some 0) (hr : ¬ s.retired 0) :
    ∃ s₂, Relation.ReflTransGen (Within (Next false) fun s => s.realptr () = some 0) (s.setAct () .client) s₂ ∧
      s₂.retired 0 := by
  have hstore : Next false (s.setAct () .client) { s.setAct () .client with
      cell := Function.update (s.setAct () .client).cell () none } :=
    ⟨(), .store _ () none (by simp) (by rintro _ ⟨⟩)⟩
  have hretire : Next false { s.setAct () .client with
      cell := Function.update (s.setAct () .client).cell () none } (State.retire _ () 0) :=
    ⟨(), .retire _ 0 (by simp) hr (by simp)⟩
  refine ⟨_, (Relation.ReflTransGen.refl.tail ⟨hstore, hreal⟩).tail ⟨hretire, ?_⟩, ?_⟩
  · unfold State.retire
    split <;> exact hreal
  · unfold State.retire
    split <;> exact .inl rfl

theorem exists_protecting : ∃ s : State Nat Unit Unit Unit Unit, Reachable Init (Next false) s ∧
    Protects () () () 0 s (s.setAct () .client) ∧ s.realptr () = some 0 ∧ ¬ s.retired 0 := by
  have hfree : ∀ s : State Nat Unit Unit Unit Unit, (s.thread ()).act = .client → s.Free () := by
    intro s hs t
    simp [hs, Act.holder?]
  have h₀ : Reachable Init (Next false) (State.unused : State Nat Unit Unit Unit Unit) := .of_init unused_init
  have h₁ := h₀.tail ⟨(), .store _ () (some 0) rfl (by rintro _ - ⟨⟩)⟩
  have h₂ := h₁.tail ⟨(), .acquire _ () rfl rfl rfl (hfree _ rfl)⟩
  have h₃ := h₂.tail ⟨(), .newRecord _ () () rfl (by rintro ⟨⟩)⟩
  have h₄ := h₃.tail ⟨(), .pushRecordOk _ () () rfl rfl⟩
  have h₅ := h₄.tail ⟨(), .countRecord _ () () rfl⟩
  have h₆ := h₅.tail ⟨(), .tryProtect _ () () (some 0) () rfl rfl (hfree _ rfl)⟩
  exact ⟨_, h₆, ⟨(), false, rfl, rfl, rfl, rfl⟩, rfl, by rintro ⟨⟩⟩

/-- An object that is retired after a holder has protected it. -/
theorem protected_not_deleted_retired : ∃ s s₁ s₂ : State Nat Unit Unit Unit Unit,
    Reachable Init (Next false) s ∧ Protects () () () 0 s s₁ ∧
    Relation.ReflTransGen (Within (Next false) fun s => s.realptr () = some 0) s₁ s₂ ∧ s₂.retired 0 ∧
      s₂.deletions 0 = 0 := by
  obtain ⟨s, hs, hprot, hreal, hr⟩ := exists_protecting
  obtain ⟨s₂, hrun, hretired⟩ := exists_retired_run s hreal hr
  exact ⟨s, _, s₂, hs, hprot, hrun, hretired, (protected_not_deleted hs hprot hrun).2⟩

end Wizard.Hazptr
