import Wizard.HashMapFind
import Wizard.Places

/-! The map of `concurrent_hashmap.h` in the hands of any number of threads. A segment is made by
the first call that needs it, and such calls may race: each load, store and compare-exchange is a
step. Inside a segment each store of a mutex section is one, and each load of a `find`. -/

namespace Wizard.HashMap.Shards

open SegmentT

/-- A segment with the section that holds its mutex. `bound` is the map of the sections that have
taken effect. -/
structure Cell (Tid Key Value : Type) where
  seg : SegmentT Key Value
  lock : Option (Tid × List (Store Key Value) × (Key → Option Value))
  bound : Key → Option Value

inductive Memory (Tid Key Value : Type) where
  | free
  | raw
  | built (x : Cell Tid Key Value)

inductive Write (Key Value : Type) where
  | insert (k : Key) (v : Value)
  | erase (k : Key)

/-- The callers of `ensureSegment`: `insert`, and the iterators, which visit shard after shard. -/
inductive Caller (Key Value : Type) where
  | insert (k : Key) (v : Value)
  | visit (i : Nat)

inductive Pc (A Key Value : Type) where
  | idle
  | load (x : Caller Key Value)
  | allocate (x : Caller Key Value)
  | construct (x : Caller Key Value) (newseg : A)
  | exchange (x : Caller Key Value) (newseg : A)
  | destroy (x : Caller Key Value) (newseg seg : A)
  | deallocate (x : Caller Key Value) (newseg seg : A)
  | visiting (i : Nat) (seg : A)
  | eraseLoad (k : Key)
  | enter (w : Write Key Value) (seg : A)
  | holding (w : Write Key Value) (seg : A)
  | findLoad (k : Key)
  | find (k : Key) (seg : A) (pos : Find.Pos Value)
  | missed (k : Key)

/-- `lost` are the bucket lists of the segments that were destroyed. A segment has no destructor
of its own, so nobody frees them. -/
structure State (Tid A Key Value : Type) where
  segments : Nat → Option A
  memory : A → Memory Tid Key Value
  pc : Tid → Pc A Key Value
  lost : List BucketList

/-- What a history shows of the calls. A write has its `effect` between its call and its return. -/
inductive Event (Key Value : Type) where
  | write (w : Write Key Value)
  | effect (w : Write Key Value)
  | wrote (w : Write Key Value)
  | find (k : Key)
  | found (k : Key) (r : Option Value)

variable {Tid A Key Value : Type}

def Write.key : Write Key Value → Key
  | .insert k _ => k
  | .erase k => k

def Caller.shard (c : Config Key) : Caller Key Value → Nat
  | .insert k _ => Map.pickSegment c k
  | .visit i => i

/-- What the caller does with the segment. -/
def Caller.resume : Caller Key Value → A → Pc A Key Value
  | .insert k v, a => .enter (.insert k v) a
  | .visit i, a => .visiting i a

def Caller.events : Caller Key Value → List (Event Key Value)
  | .insert k v => [.write (.insert k v)]
  | .visit _ => []

section Machine

variable [DecidableEq Key]

def Write.apply (f : Key → Option Value) : Write Key Value → Key → Option Value
  | .insert k v => Function.update f k (some v)
  | .erase k => Function.update f k none

def Write.stores (c : Config Key) (s : SegmentT Key Value) : Write Key Value → Option (List (Store Key Value))
  | .insert k v => (insertSection c s k v).map Prod.fst
  | .erase k => some (eraseSection c s k).1

/-- The loads of `find(k)` in a segment. -/
inductive Look (c : Config Key) (k : Key) (s : SegmentT Key Value) : Find.Pos Value → Find.Pos Value → Prop
  | loadList : Look c k s .start (.list s.bucketList)
  | loadHead (l) : Look c k s (.list l) (.node (s.read (headOf c s l k)))
  | loadNext (n) (hk : s.key n ≠ k) : Look c k s (.node (some n)) (.node (s.next n))
  | found (n) (hk : s.key n = k) : Look c k s (.node (some n)) (.done (some (s.value n)))
  | missing : Look c k s (.node none) (.done none)

variable [DecidableEq Tid] [DecidableEq A]

def State.setPc (s : State Tid A Key Value) (t : Tid) (p : Pc A Key Value) : State Tid A Key Value :=
  { s with pc := Function.update s.pc t p }

def State.put (s : State Tid A Key Value) (a : A) (m : Memory Tid Key Value) : State Tid A Key Value :=
  { s with memory := Function.update s.memory a m }

def State.install (s : State Tid A Key Value) (i : Nat) (a : A) : State Tid A Key Value :=
  { s with segments := Function.update s.segments i (some a) }

omit [DecidableEq Key] [DecidableEq Tid] [DecidableEq A] in
def State.lose (s : State Tid A Key Value) (bl : BucketList) : State Tid A Key Value :=
  { s with lost := bl :: s.lost }

section Fields

variable (s : State Tid A Key Value) (t : Tid) (p : Pc A Key Value) (a : A) (m : Memory Tid Key Value) (i : Nat)

omit [DecidableEq Key] [DecidableEq A] in
@[simp] theorem setPc_segments : (s.setPc t p).segments = s.segments := rfl

omit [DecidableEq Key] [DecidableEq A] in
@[simp] theorem setPc_memory : (s.setPc t p).memory = s.memory := rfl

omit [DecidableEq Key] [DecidableEq A] in
@[simp] theorem setPc_pc : (s.setPc t p).pc = Function.update s.pc t p := rfl

omit [DecidableEq Key] [DecidableEq Tid] in
@[simp] theorem put_segments : (s.put a m).segments = s.segments := rfl

omit [DecidableEq Key] [DecidableEq Tid] in
@[simp] theorem put_memory : (s.put a m).memory = Function.update s.memory a m := rfl

omit [DecidableEq Key] [DecidableEq Tid] in
@[simp] theorem put_pc : (s.put a m).pc = s.pc := rfl

omit [DecidableEq Key] [DecidableEq Tid] [DecidableEq A] in
@[simp] theorem install_segments : (s.install i a).segments = Function.update s.segments i (some a) := rfl

omit [DecidableEq Key] [DecidableEq Tid] [DecidableEq A] in
@[simp] theorem install_memory : (s.install i a).memory = s.memory := rfl

omit [DecidableEq Key] [DecidableEq Tid] [DecidableEq A] in
@[simp] theorem install_pc : (s.install i a).pc = s.pc := rfl

end Fields

variable [Inhabited Key] [Inhabited Value] (c : Config Key) (cap : BitVec 64) (t : Tid)

/-- The steps of a thread in a map made with `cap`, with their events. -/
inductive Step : State Tid A Key Value → List (Event Key Value) → State Tid A Key Value → Prop
  | call (s) (x : Caller Key Value) (ht : s.pc t = .idle) (hi : x.shard c < Map.numShards c) :
      Step s x.events (s.setPc t (.load x))
  | loadSome (s x a) (ht : s.pc t = .load x) (hs : s.segments (x.shard c) = some a) :
      Step s [] (s.setPc t (x.resume a))
  | loadNone (s x) (ht : s.pc t = .load x) (hs : s.segments (x.shard c) = none) :
      Step s [] (s.setPc t (.allocate x))
  | allocate (s x a) (ht : s.pc t = .allocate x) (hm : s.memory a = .free) :
      Step s [] ((s.put a .raw).setPc t (.construct x a))
  | construct (s x a seg) (ht : s.pc t = .construct x a) (hm : s.memory a = .raw)
      (hs : SegmentT.make c ((Map.make cap : Map Key Value).initCapacity >>> c.shardBits.val) = some seg) :
      Step s [] ((s.put a (.built ⟨seg, none, fun _ => none⟩)).setPc t (.exchange x a))
  | exchange (s x a) (ht : s.pc t = .exchange x a) (hs : s.segments (x.shard c) = none) :
      Step s [] ((s.install (x.shard c) a).setPc t (x.resume a))
  | exchangeFail (s x a b) (ht : s.pc t = .exchange x a) (hs : s.segments (x.shard c) = some b) :
      Step s [] (s.setPc t (.destroy x a b))
  | destroy (s x a b y) (ht : s.pc t = .destroy x a b) (hm : s.memory a = .built y) :
      Step s [] (((s.put a .raw).setPc t (.deallocate x a b)).lose (y.seg.list y.seg.bucketList))
  | deallocate (s x a b) (ht : s.pc t = .deallocate x a b) (hm : s.memory a = .raw) :
      Step s [] ((s.put a .free).setPc t (x.resume b))
  | visited (s i a) (ht : s.pc t = .visiting i a) : Step s [] (s.setPc t .idle)
  | erase (s k) (ht : s.pc t = .idle) : Step s [.write (.erase k)] (s.setPc t (.eraseLoad k))
  | eraseSome (s k a) (ht : s.pc t = .eraseLoad k) (hs : s.segments (Map.pickSegment c k) = some a) :
      Step s [] (s.setPc t (.enter (.erase k) a))
  | eraseNone (s k) (ht : s.pc t = .eraseLoad k) (hs : s.segments (Map.pickSegment c k) = none) :
      Step s [.effect (.erase k), .wrote (.erase k)] (s.setPc t .idle)
  | lock (s w a x st) (ht : s.pc t = .enter w a) (hm : s.memory a = .built x) (hl : x.lock = none)
      (hs : w.stores c x.seg = some st) :
      Step s (if st = [] then [.effect w] else [])
        ((s.put a (.built { x with lock := some (t, st, w.apply x.bound) })).setPc t (.holding w a))
  | store (s w a x st rest f) (ht : s.pc t = .holding w a) (hm : s.memory a = .built x)
      (hl : x.lock = some (t, st :: rest, f)) :
      Step s (if rest = [] then [.effect w] else [])
        ((s.put a (.built ⟨x.seg.apply st, some (t, rest, f), if rest = [] then f else x.bound⟩)).setPc t
          (.holding w a))
  | unlock (s w a x f) (ht : s.pc t = .holding w a) (hm : s.memory a = .built x) (hl : x.lock = some (t, [], f)) :
      Step s [.wrote w] ((s.put a (.built { x with lock := none })).setPc t .idle)
  | find (s k) (ht : s.pc t = .idle) : Step s [.find k] (s.setPc t (.findLoad k))
  | findSome (s k a) (ht : s.pc t = .findLoad k) (hs : s.segments (Map.pickSegment c k) = some a) :
      Step s [] (s.setPc t (.find k a .start))
  | findNone (s k) (ht : s.pc t = .findLoad k) (hs : s.segments (Map.pickSegment c k) = none) :
      Step s [] (s.setPc t (.missed k))
  | look (s k a x pos pos') (ht : s.pc t = .find k a pos) (hm : s.memory a = .built x)
      (hs : Look c k x.seg pos pos') : Step s [] (s.setPc t (.find k a pos'))
  | found (s k a r) (ht : s.pc t = .find k a (.done r)) : Step s [.found k r] (s.setPc t .idle)
  | missed (s k) (ht : s.pc t = .missed k) : Step s [.found k none] (s.setPc t .idle)

end Machine

/-- A map that nobody has used. -/
structure Init (s : State Tid A Key Value) : Prop where
  segments : ∀ i, s.segments i = none
  memory : ∀ a, s.memory a = .free
  pc : ∀ t, s.pc t = .idle
  lost : s.lost = []

/-- The segment that a thread has made and not yet installed or freed. -/
def Pc.own? : Pc A Key Value → Option A
  | .construct _ a => some a
  | .exchange _ a => some a
  | .destroy _ a _ => some a
  | .deallocate _ a _ => some a
  | _ => none

/-- The segment that a thread has been given, and the shard that it is for. -/
def Pc.given? (c : Config Key) : Pc A Key Value → Option (Nat × A)
  | .destroy x _ b => some (x.shard c, b)
  | .deallocate x _ b => some (x.shard c, b)
  | .visiting i a => some (i, a)
  | .enter w a => some (Map.pickSegment c w.key, a)
  | .holding w a => some (Map.pickSegment c w.key, a)
  | .find k a _ => some (Map.pickSegment c k, a)
  | _ => none

inductive Place (Tid : Type) where
  | shard (i : Nat)
  | thread (t : Tid)

def At (s : State Tid A Key Value) (a : A) : Place Tid → Prop
  | .shard i => s.segments i = some a
  | .thread t => (s.pc t).own? = some a

/-- What a thread relies on of the segment that it has made. -/
def Pc.Made (memory : A → Memory Tid Key Value) : Pc A Key Value → Prop
  | .construct _ a => memory a = .raw
  | .exchange _ a => ∃ x, memory a = .built x
  | .destroy _ a _ => ∃ x, memory a = .built x
  | .deallocate _ a _ => memory a = .raw
  | _ => True

structure Inv (c : Config Key) (s : State Tid A Key Value) : Prop where
  place : OnePlace (fun a => s.memory a ≠ .free) (At s)
  installed : ∀ i a, s.segments i = some a → ∃ x, s.memory a = .built x
  given : ∀ t i a, (s.pc t).given? c = some (i, a) → s.segments i = some a
  made : ∀ t, (s.pc t).Made s.memory

variable {c : Config Key} {cap : BitVec 64} {s s' : State Tid A Key Value} {t : Tid} {a : A} {i : Nat}
  {m : Memory Tid Key Value} {p : Pc A Key Value} {es : List (Event Key Value)}

@[simp] theorem own?_resume (x : Caller Key Value) (a : A) : (x.resume a).own? = none := by
  cases x <;> rfl

@[simp] theorem given?_resume (x : Caller Key Value) (a : A) : (x.resume a).given? c = some (x.shard c, a) := by
  cases x <;> rfl

theorem made_resume {memory : A → Memory Tid Key Value} (x : Caller Key Value) (a : A) : (x.resume a).Made memory := by
  cases x <;> trivial

/-- It relies on no other segment. -/
theorem Pc.Made.congr {memory memory' : A → Memory Tid Key Value} (h : p.Made memory)
    (he : ∀ a, p.own? = some a → memory' a = memory a) : p.Made memory' := by
  cases p with
  | construct x a | deallocate x a b => exact (he a rfl).trans h
  | exchange x a | destroy x a b =>
    obtain ⟨y, hy⟩ := h
    exact ⟨y, (he a rfl).trans hy⟩
  | _ => trivial

theorem Init.inv (h : Init s) : Inv c s where
  place := by
    constructor
    · intro a p hp
      cases p with
      | shard i => cases (h.segments i).symm.trans hp
      | thread t =>
        rw [At, h.pc t] at hp
        cases hp
    · intro a ha
      exact absurd (h.memory a) ha
    · intro a p q hp
      cases p with
      | shard i => cases (h.segments i).symm.trans hp
      | thread t =>
        rw [At, h.pc t] at hp
        cases hp
  installed i a ha := by cases (h.segments i).symm.trans ha
  given t i a hg := by
    rw [h.pc t] at hg
    cases hg
  made t := by
    rw [h.pc t]
    trivial

theorem Inv.lose (h : Inv c s) (bl : BucketList) : Inv c (s.lose bl) :=
  ⟨h.place, h.installed, h.given, h.made⟩

section Steps

variable [DecidableEq Tid]

/-- Thread `t` goes on to `p`, and nobody else's segment changes. -/
theorem Inv.goOn {memory : A → Memory Tid Key Value} (h : Inv c s)
    (hfree : ∀ a, memory a = .free ↔ s.memory a = .free)
    (hinst : ∀ i a, s.segments i = some a → ∃ x, memory a = .built x)
    (hothers : ∀ u, u ≠ t → ∀ a, (s.pc u).own? = some a → memory a = s.memory a)
    (ho : p.own? = (s.pc t).own?) (hg : ∀ i a, p.given? c = some (i, a) → s.segments i = some a)
    (hm : p.Made memory) : Inv c { s with memory := memory, pc := Function.update s.pc t p } where
  place := by
    have hown : ∀ u, (Function.update s.pc t p u).own? = (s.pc u).own? := by
      intro u
      by_cases hu : u = t
      · rw [hu, Function.update_self, ho]
      · rw [Function.update_of_ne hu]
    have hdom : (fun a => memory a ≠ .free) = fun a => s.memory a ≠ .free := funext fun a => by rw [ne_eq, hfree]
    rw [hdom]
    refine h.place.congr fun a q => ?_
    cases q with
    | shard i => exact Iff.rfl
    | thread u => rw [At, At, hown]
  installed := hinst
  given := (Function.forall_update_iff s.pc fun _ q => ∀ i a, q.given? c = some (i, a) → s.segments i = some a).2
    ⟨hg, fun u _ => h.given u⟩
  made := (Function.forall_update_iff s.pc fun _ q => q.Made memory).2
    ⟨hm, fun u hu => (h.made u).congr (hothers u hu)⟩

theorem Inv.setPc (h : Inv c s) (ho : p.own? = (s.pc t).own?)
    (hg : ∀ i a, p.given? c = some (i, a) → s.segments i = some a) (hm : p.Made s.memory) : Inv c (s.setPc t p) :=
  h.goOn (fun _ => Iff.rfl) h.installed (fun _ _ _ _ => rfl) ho hg hm

variable [DecidableEq A]

/-- The segment that changes is installed, or it is in the hands of `t`. -/
theorem Inv.put {q : Place Tid} (h : Inv c s) (hq : At s a q) (hqt : ∀ u, q = .thread u → u = t) (hmf : m ≠ .free)
    (hinst : ∀ i, q = .shard i → ∃ x, m = .built x) (ho : p.own? = (s.pc t).own?)
    (hg : ∀ i a, p.given? c = some (i, a) → s.segments i = some a) (hm : p.Made (Function.update s.memory a m)) :
    Inv c ((s.put a m).setPc t p) := by
  refine h.goOn (fun b => ?_) (fun i b hb => ?_) (fun u hu b hb => ?_) ho hg hm
  · by_cases hb : b = a
    · rw [hb, put_memory, Function.update_self]
      exact iff_of_false hmf (h.place.mem a q hq)
    · rw [put_memory, Function.update_of_ne hb]
  · by_cases hba : b = a
    · rw [hba] at hb ⊢
      rw [put_memory, Function.update_self]
      exact hinst i (h.place.unique a q (.shard i) hq hb)
    · rw [put_memory, Function.update_of_ne hba]
      exact h.installed i b hb
  · refine Function.update_of_ne ?_ _ _
    rintro rfl
    exact hu (hqt u (h.place.unique b q (.thread u) hq hb))

theorem Inv.allocate {x : Caller Key Value} (h : Inv c s) (ht : s.pc t = .allocate x) (hm : s.memory a = .free) :
    Inv c ((s.put a .raw).setPc t (.construct x a)) where
  place := by
    have hnew : ∀ u b, (Function.update s.pc t (.construct x a) u).own? = some b ↔
        (u = t ∧ b = a) ∨ (u ≠ t ∧ (s.pc u).own? = some b) := by
      intro u b
      by_cases hu : u = t
      · rw [hu, Function.update_self]
        simp [Pc.own?, eq_comm]
      · rw [Function.update_of_ne hu]
        simp [hu]
    have hnot : ∀ q, ¬ At s a q := fun q hq => h.place.mem a q hq hm
    refine h.place.insert a (.thread t) (fun b => ?_) (fun q => ?_) fun b q hb => ?_
    · by_cases hb : b = a
      · simp [State.put, State.setPc, hb]
      · simp [State.put, State.setPc, hb]
    · cases q with
      | shard i => exact iff_of_false (fun hi => hnot (.shard i) hi) (by simp)
      | thread u =>
        refine (hnew u a).trans ⟨?_, ?_⟩
        · rintro (⟨rfl, -⟩ | ⟨-, hu⟩)
          · rfl
          · exact absurd hu (hnot (.thread u))
        · rintro ⟨⟩
          exact .inl ⟨rfl, rfl⟩
    · cases q with
      | shard i => exact Iff.rfl
      | thread u =>
        refine (hnew u b).trans ⟨?_, fun hu => ?_⟩
        · rintro (⟨-, rfl⟩ | ⟨-, hu⟩)
          · exact absurd rfl hb
          · exact hu
        · refine .inr ⟨?_, hu⟩
          rintro rfl
          rw [At, ht] at hu
          cases hu
  installed i b hb := by
    have hba : b ≠ a := by
      rintro rfl
      exact h.place.mem b (.shard i) hb hm
    obtain ⟨y, hy⟩ := h.installed i b hb
    exact ⟨y, (Function.update_of_ne hba _ _).trans hy⟩
  given := (Function.forall_update_iff s.pc fun _ q => ∀ i b, q.given? c = some (i, b) → s.segments i = some b).2
    ⟨fun i b hb => by simp [Pc.given?] at hb, fun u _ => h.given u⟩
  made := by
    refine (Function.forall_update_iff s.pc fun _ q => q.Made (Function.update s.memory a .raw)).2
      ⟨Function.update_self .., fun u _ => (h.made u).congr fun b hb => Function.update_of_ne ?_ _ _⟩
    rintro rfl
    exact h.place.mem b (.thread u) hb hm

theorem Inv.deallocate {x : Caller Key Value} {b : A} (h : Inv c s) (ht : s.pc t = .deallocate x a b) :
    Inv c ((s.put a .free).setPc t (x.resume b)) := by
  have hown : At s a (.thread t) := by
    rw [At, ht]
    rfl
  have hnew : ∀ d q, At ((s.put a .free).setPc t (x.resume b)) d q ↔ d ≠ a ∧ At s d q := by
    intro d q
    have hda : At s d q → d = a → q = .thread t := by
      rintro hd rfl
      exact h.place.unique d _ _ hd hown
    cases q with
    | shard i =>
      refine ⟨fun hd => ⟨fun ha => ?_, hd⟩, fun hd => hd.2⟩
      cases hda hd ha
    | thread u =>
      by_cases hu : u = t
      · subst hu
        have hd : At s d (.thread u) ↔ d = a := by
          rw [At, ht]
          simp [Pc.own?, eq_comm]
        have hself : ((s.put a .free).setPc u (x.resume b)).pc u = x.resume b := Function.update_self ..
        rw [At, hself, hd, own?_resume]
        simp
      · have hother : ((s.put a .free).setPc t (x.resume b)).pc u = s.pc u := Function.update_of_ne hu _ _
        rw [At, hother]
        refine ⟨fun hd => ⟨fun ha => hu ?_, hd⟩, fun hd => hd.2⟩
        cases hda hd ha
        rfl
  constructor
  · refine h.place.remove a (fun d => ?_) hnew
    by_cases hd : d = a
    · simp [State.put, State.setPc, hd]
    · simp [State.put, State.setPc, hd]
  · intro i d hd
    obtain ⟨y, hy⟩ := h.installed i d hd
    exact ⟨y, (Function.update_of_ne ((hnew d (.shard i)).1 hd).1 _ _).trans hy⟩
  · refine (Function.forall_update_iff s.pc fun _ q => ∀ i d, q.given? c = some (i, d) → s.segments i = some d).2
      ⟨fun i d hd => ?_, fun u _ => h.given u⟩
    rw [given?_resume] at hd
    cases hd
    refine h.given t _ _ ?_
    rw [ht]
    rfl
  · refine (Function.forall_update_iff s.pc fun _ q => q.Made (Function.update s.memory a .free)).2
      ⟨made_resume x b, fun u hu => (h.made u).congr fun d hd => Function.update_of_ne ?_ _ _⟩
    rintro rfl
    cases h.place.unique d (.thread u) _ hd hown
    exact hu rfl

omit [DecidableEq A] in
theorem Inv.exchange {x : Caller Key Value} (h : Inv c s) (ht : s.pc t = .exchange x a)
    (hs : s.segments (x.shard c) = none) :
    Inv c ((s.install (x.shard c) a).setPc t (x.resume a)) := by
  have hown : At s a (.thread t) := by
    rw [At, ht]
    rfl
  have hkeep : ∀ i b, s.segments i = some b → Function.update s.segments (x.shard c) (some a) i = some b := by
    intro i b hb
    rw [Function.update_of_ne _ _ _, hb]
    rintro rfl
    cases hs.symm.trans hb
  have hseg : ∀ i b, Function.update s.segments (x.shard c) (some a) i = some b ↔
      (i = x.shard c ∧ b = a) ∨ s.segments i = some b := by
    intro i b
    by_cases hi : i = x.shard c
    · rw [hi, Function.update_self, hs]
      simp [eq_comm]
    · rw [Function.update_of_ne hi]
      simp [hi]
  constructor
  · refine h.place.move (.shard (x.shard c)) hown (fun q => ?_) fun b q hb => ?_
    · cases q with
      | shard i =>
        refine (hseg i a).trans ⟨?_, ?_⟩
        · rintro (⟨rfl, -⟩ | hi)
          · rfl
          · cases h.place.unique a _ (.shard i) hown hi
        · rintro ⟨⟩
          exact .inl ⟨rfl, rfl⟩
      | thread u =>
        refine iff_of_false (fun hu => ?_) (by simp)
        by_cases hut : u = t
        · rw [At, hut, setPc_pc, Function.update_self, own?_resume] at hu
          cases hu
        · rw [At, setPc_pc, Function.update_of_ne hut] at hu
          cases h.place.unique a _ (.thread u) hown hu
          exact hut rfl
    · cases q with
      | shard i =>
        refine (hseg i b).trans ⟨?_, .inr⟩
        rintro (⟨-, rfl⟩ | hi)
        · exact absurd rfl hb
        · exact hi
      | thread u =>
        by_cases hut : u = t
        · rw [At, At, hut, setPc_pc, Function.update_self, own?_resume, ht]
          simp [Pc.own?, Ne.symm hb]
        · rw [At, setPc_pc, Function.update_of_ne hut]
          rfl
  · intro i b hb
    rcases (hseg i b).1 hb with ⟨-, rfl⟩ | hb
    · have hmade := h.made t
      rw [ht] at hmade
      exact hmade
    · exact h.installed i b hb
  · refine (Function.forall_update_iff s.pc fun _ q => ∀ i b, q.given? c = some (i, b) →
      Function.update s.segments (x.shard c) (some a) i = some b).2
        ⟨fun i b hb => ?_, fun u _ i b hb => hkeep i b (h.given u i b hb)⟩
    rw [given?_resume] at hb
    cases hb
    exact Function.update_self ..
  · exact (Function.forall_update_iff s.pc fun _ q => q.Made s.memory).2 ⟨made_resume x a, fun u _ => h.made u⟩

/-- The segment that changes is one that `t` has been given. -/
theorem Inv.write {x : Cell Tid Key Value} (h : Inv c s) (ht : (s.pc t).given? c = some (i, a))
    (ho : (s.pc t).own? = none) (hp : p.own? = none)
    (hg : ∀ j b, p.given? c = some (j, b) → some (j, b) = some (i, a))
    (hm : p.Made (Function.update s.memory a (.built x))) :
    Inv c ((s.put a (.built x)).setPc t p) := by
  have hi : At s a (.shard i) := h.given t i a ht
  refine h.put hi (by simp) (by simp) (fun _ _ => ⟨x, rfl⟩) (hp.trans ho.symm) (fun j b hb => ?_) hm
  cases hg j b hb
  exact hi

variable [DecidableEq Key] [Inhabited Key] [Inhabited Value]

theorem Inv.step (h : Inv c s) (hs : Step c cap t s es s') : Inv c s' := by
  have hown : ∀ {q}, s.pc t = q → q.own? = none → (s.pc t).own? = none := by
    rintro q rfl hq
    exact hq
  have hgiven : ∀ {q i a}, s.pc t = q → q.given? c = some (i, a) → (s.pc t).given? c = some (i, a) := by
    rintro q i a rfl hq
    exact hq
  have hkeep : ∀ {q r}, s.pc t = q → r.own? = q.own? → (∀ i a, r.given? c = some (i, a) → s.segments i = some a) →
      r.Made s.memory → Inv c (s.setPc t r) := by
    rintro q r rfl
    exact h.setPc
  have hmade := h.made t
  cases hs with
  | call x ht hi => exact hkeep ht rfl (by simp [Pc.given?]) trivial
  | loadSome x a ht hs =>
    refine hkeep ht (own?_resume x a) (fun i b hb => ?_) (made_resume x a)
    rw [given?_resume] at hb
    cases hb
    exact hs
  | loadNone x ht hs => exact hkeep ht rfl (by simp [Pc.given?]) trivial
  | allocate x a ht hm => exact h.allocate ht hm
  | construct x a seg ht hm hs =>
    have hq : At s a (.thread t) := by
      rw [At, ht]
      rfl
    refine h.put hq (by simp) (by simp) (by simp) ?_ (by simp [Pc.given?]) ⟨_, Function.update_self ..⟩
    rw [ht]
    rfl
  | exchange x a ht hs => exact h.exchange ht hs
  | exchangeFail x a b ht hs =>
    rw [ht] at hmade
    refine hkeep ht rfl (fun i d hd => ?_) hmade
    cases hd
    exact hs
  | destroy x a b y ht hm =>
    have hq : At s a (.thread t) := by
      rw [At, ht]
      rfl
    have hput : Inv c ((s.put a .raw).setPc t (.deallocate x a b)) := by
      refine h.put hq (by simp) (by simp) (by simp) ?_ (fun i d hd => ?_) (Function.update_self ..)
      · rw [ht]
        rfl
      · cases hd
        exact h.given t _ _ (hgiven ht rfl)
    exact hput.lose _
  | deallocate x a b ht hm => exact h.deallocate ht
  | visited i a ht => exact hkeep ht rfl (by simp [Pc.given?]) trivial
  | erase k ht => exact hkeep ht rfl (by simp [Pc.given?]) trivial
  | eraseSome k a ht hs =>
    refine hkeep ht rfl (fun i b hb => ?_) trivial
    cases hb
    exact hs
  | eraseNone k ht hs => exact hkeep ht rfl (by simp [Pc.given?]) trivial
  | lock w a x st ht hm hl hs => exact h.write (hgiven ht rfl) (hown ht rfl) rfl (fun _ _ hb => hb.symm) trivial
  | store w a x st rest f ht hm hl => exact h.write (hgiven ht rfl) (hown ht rfl) rfl (fun _ _ hb => hb.symm) trivial
  | unlock w a x f ht hm hl => exact h.write (hgiven ht rfl) (hown ht rfl) rfl (by simp [Pc.given?]) trivial
  | find k ht => exact hkeep ht rfl (by simp [Pc.given?]) trivial
  | findSome k a ht hs =>
    refine hkeep ht rfl (fun i b hb => ?_) trivial
    cases hb
    exact hs
  | findNone k ht hs => exact hkeep ht rfl (by simp [Pc.given?]) trivial
  | look k a x pos pos' ht hm hs =>
    refine hkeep ht rfl (fun i b hb => h.given t i b ?_) trivial
    rw [ht]
    exact hb
  | found k a r ht => exact hkeep ht rfl (by simp [Pc.given?]) trivial
  | missed k ht => exact hkeep ht rfl (by simp [Pc.given?]) trivial

/-- No step takes a segment away. -/
theorem Step.segments (hs : Step c cap t s es s') (hi : s.segments i = some a) : s'.segments i = some a := by
  cases hs with
  | exchange x b ht hn =>
    have hne : i ≠ x.shard c := by
      rintro rfl
      cases hn.symm.trans hi
    exact (Function.update_of_ne hne _ _).trans hi
  | _ => exact hi

def AnyStep (c : Config Key) (cap : BitVec 64) (s s' : State Tid A Key Value) : Prop := ∃ t es, Step c cap t s es s'

theorem segments_of_run (hr : Relation.ReflTransGen (AnyStep c cap) s s') (hi : s.segments i = some a) :
    s'.segments i = some a := by
  induction hr with
  | refl => exact hi
  | tail _ hs ih =>
    obtain ⟨t, es, hs⟩ := hs
    exact hs.segments ih

theorem inv_of_reachable (h : Reachable Init (AnyStep c cap) s) : Inv c s :=
  h.invariant (fun _ h => h.inv) fun _ _ _ hi hs => by
    obtain ⟨t, es, hs⟩ := hs
    exact hi.step hs

def unused : State Bool Bool Nat Nat := ⟨fun _ => none, fun _ => .free, fun _ => .idle, []⟩

theorem unused_init : Init unused := ⟨fun _ => rfl, fun _ => rfl, fun _ => rfl, rfl⟩

/-- Two threads make a segment for the same shard, and one of them finds that it is late. -/
theorem exists_race : ∃ s : State Bool Bool Nat Nat, Relation.ReflTransGen (AnyStep (oneShard Nat) 4) unused s ∧
    s.segments 0 = some false ∧ s.pc false = .visiting 0 false ∧ s.pc true = .destroy (.visit 0) true false ∧
      (∃ x, s.memory true = .built x) ∧ s.lost = [] := by
  have r₀ : Relation.ReflTransGen (AnyStep (oneShard Nat) 4) unused unused := .refl
  have r₁ := r₀.tail ⟨false, _, .call _ (.visit 0) rfl (by decide)⟩
  have r₂ := r₁.tail ⟨true, _, .call _ (.visit 0) rfl (by decide)⟩
  have r₃ := r₂.tail ⟨false, _, .loadNone _ _ rfl rfl⟩
  have r₄ := r₃.tail ⟨true, _, .loadNone _ _ rfl rfl⟩
  have r₅ := r₄.tail ⟨false, _, .allocate _ _ false rfl rfl⟩
  have r₆ := r₅.tail ⟨true, _, .allocate _ _ true rfl rfl⟩
  have r₇ := r₆.tail ⟨false, _, .construct _ _ _ _ rfl rfl rfl⟩
  have r₈ := r₇.tail ⟨true, _, .construct _ _ _ _ rfl rfl rfl⟩
  have r₉ := r₈.tail ⟨false, _, .exchange _ _ _ rfl rfl⟩
  have r₁₀ := r₉.tail ⟨true, _, .exchangeFail _ _ _ false rfl rfl⟩
  exact ⟨_, r₁₀, rfl, rfl, rfl, ⟨_, rfl⟩, rfl⟩

/-- A segment that is installed stays installed and is never freed, and every thread that has been
given a segment for its shard has been given this one. -/
theorem installed_stays (h : Reachable Init (AnyStep c cap) s) (hr : Relation.ReflTransGen (AnyStep c cap) s s')
    (ha : s.segments i = some a) :
    s'.segments i = some a ∧ (∃ x, s'.memory a = .built x) ∧ ∀ t b, (s'.pc t).given? c = some (i, b) → b = a := by
  have hr' : Reachable Init (AnyStep c cap) s' := by
    obtain ⟨s₀, h₀, h⟩ := h
    exact ⟨s₀, h₀, h.trans hr⟩
  have ha' := segments_of_run hr ha
  have hi := inv_of_reachable hr'
  refine ⟨ha', hi.installed i a ha', fun t b hb => ?_⟩
  exact Option.some.inj ((hi.given t i b hb).symm.trans ha')

theorem installed_stays_race : ∃ s s' : State Bool Bool Nat Nat, s.pc true = .destroy (.visit 0) true false ∧
    s'.pc true = .idle ∧ s'.segments 0 = some false ∧ (∃ x, s'.memory false = .built x) ∧
      ∀ t b, (s'.pc t).given? (oneShard Nat) = some (0, b) → b = false := by
  obtain ⟨s, hr, hs, -, ht, -, -⟩ := exists_race
  obtain ⟨x, hx⟩ : ∃ x, s.memory true = .built x := by
    have hmade := (inv_of_reachable ⟨unused, unused_init, hr⟩).made true
    rw [ht] at hmade
    exact hmade
  have r₀ : Relation.ReflTransGen (AnyStep (oneShard Nat) 4) s s := .refl
  have r₁ := r₀.tail ⟨true, _, .destroy _ _ _ _ x ht hx⟩
  have r₂ := r₁.tail ⟨true, _, .deallocate _ _ _ _ rfl rfl⟩
  have r₃ := r₂.tail ⟨true, _, .visited _ _ _ rfl⟩
  exact ⟨s, _, ht, rfl, installed_stays ⟨unused, unused_init, hr⟩ r₃ hs⟩

/-- What `ensureSegment` constructs. -/
def newSegment (c : Config Key) (cap : BitVec 64) : Option (SegmentT Key Value) :=
  SegmentT.make c ((Map.make cap : Map Key Value).initCapacity >>> c.shardBits.val)

/-- A segment is as it was made until it is installed, and so was each that has been destroyed. -/
structure AsMade (c : Config Key) (cap : BitVec 64) (s : State Tid A Key Value) : Prop where
  own : ∀ t a x, (s.pc t).own? = some a → s.memory a = .built x → newSegment c cap = some x.seg
  lost : ∀ bl ∈ s.lost, ∃ seg : SegmentT Key Value, newSegment c cap = some seg ∧ seg.list seg.bucketList = bl

omit [DecidableEq A] [DecidableEq Key] in
theorem AsMade.goOn {memory : A → Memory Tid Key Value} (h : AsMade c cap s)
    (hothers : ∀ u, u ≠ t → ∀ a x, (s.pc u).own? = some a → memory a = .built x → s.memory a = .built x)
    (hnew : ∀ a x, p.own? = some a → memory a = .built x → newSegment c cap = some x.seg) :
    AsMade c cap { s with memory := memory, pc := Function.update s.pc t p } where
  own := (Function.forall_update_iff s.pc fun _ q => ∀ a x, q.own? = some a → memory a = .built x →
    newSegment c cap = some x.seg).2 ⟨hnew, fun u hu a x ho hx => h.own u a x ho (hothers u hu a x ho hx)⟩
  lost := h.lost

omit [DecidableEq A] [DecidableEq Key] in
theorem AsMade.setPc (h : AsMade c cap s) (ho : ∀ a, p.own? = some a → (s.pc t).own? = some a) :
    AsMade c cap (s.setPc t p) :=
  h.goOn (fun _ _ _ _ _ hx => hx) fun a x ha hx => h.own t a x (ho a ha) hx

omit [DecidableEq Key] in
/-- The segment that changes is in nobody else's hands. -/
theorem AsMade.put (h : AsMade c cap s) (hno : ∀ u, u ≠ t → (s.pc u).own? ≠ some a)
    (hnew : ∀ b x, p.own? = some b → (s.put a m).memory b = .built x → newSegment c cap = some x.seg) :
    AsMade c cap ((s.put a m).setPc t p) := by
  refine h.goOn (fun u hu b x hb hx => ?_) hnew
  rw [put_memory, Function.update_of_ne] at hx
  · exact hx
  · rintro rfl
    exact hno u hu hb

theorem AsMade.step (h : AsMade c cap s) (hi : Inv c s) (hs : Step c cap t s es s') : AsMade c cap s' := by
  have hkeep : ∀ {q r}, s.pc t = q → (∀ a, r.own? = some a → q.own? = some a) → AsMade c cap (s.setPc t r) := by
    rintro q r rfl
    exact h.setPc
  have hmine : ∀ {q a}, s.pc t = q → q.own? = some a → ∀ u, u ≠ t → (s.pc u).own? ≠ some a := by
    rintro q a rfl hq u hu ho
    cases hi.place.unique a (.thread t) (.thread u) hq ho
    exact hu rfl
  have hshared : ∀ {q i a}, s.pc t = q → q.given? c = some (i, a) → ∀ u, u ≠ t → (s.pc u).own? ≠ some a := by
    rintro q i a rfl hq u - ho
    cases hi.place.unique a (.shard i) (.thread u) (hi.given t i a hq) ho
  cases hs with
  | call x ht hx => exact hkeep ht (by simp [Pc.own?])
  | loadSome x a ht hs => exact hkeep ht (by simp)
  | loadNone x ht hs => exact hkeep ht (by simp [Pc.own?])
  | allocate x a ht hm =>
    refine h.put (fun u _ ho => hi.place.mem a (.thread u) ho hm) fun b y hb hy => ?_
    cases hb
    rw [put_memory, Function.update_self] at hy
    cases hy
  | construct x a seg ht hm hs =>
    refine h.put (hmine ht rfl) fun b y hb hy => ?_
    cases hb
    rw [put_memory, Function.update_self] at hy
    cases hy
    exact hs
  | exchange x a ht hs => exact ⟨(hkeep ht (by simp)).own, h.lost⟩
  | exchangeFail x a b ht hs => exact hkeep ht (fun _ ha => ha)
  | destroy x a b y ht hm =>
    have hput : AsMade c cap ((s.put a .raw).setPc t (.deallocate x a b)) := by
      refine h.put (hmine ht rfl) fun d y hd hy => ?_
      cases hd
      rw [put_memory, Function.update_self] at hy
      cases hy
    refine ⟨hput.own, List.forall_mem_cons.2 ⟨⟨y.seg, h.own t a y ?_ hm, rfl⟩, h.lost⟩⟩
    rw [ht]
    rfl
  | deallocate x a b ht hm => exact h.put (hmine ht rfl) (by simp)
  | visited i a ht => exact hkeep ht (by simp [Pc.own?])
  | erase k ht => exact hkeep ht (by simp [Pc.own?])
  | eraseSome k a ht hs => exact hkeep ht (by simp [Pc.own?])
  | eraseNone k ht hs => exact hkeep ht (by simp [Pc.own?])
  | lock w a x st ht hm hl hs => exact h.put (hshared ht rfl) (by simp [Pc.own?])
  | store w a x st rest f ht hm hl => exact h.put (hshared ht rfl) (by simp [Pc.own?])
  | unlock w a x f ht hm hl => exact h.put (hshared ht rfl) (by simp [Pc.own?])
  | find k ht => exact hkeep ht (by simp [Pc.own?])
  | findSome k a ht hs => exact hkeep ht (by simp [Pc.own?])
  | findNone k ht hs => exact hkeep ht (by simp [Pc.own?])
  | look k a x pos pos' ht hm hs => exact hkeep ht (by simp [Pc.own?])
  | found k a r ht => exact hkeep ht (by simp [Pc.own?])
  | missed k ht => exact hkeep ht (by simp [Pc.own?])

theorem asMade_of_reachable (h : Reachable Init (AnyStep c cap) s) : AsMade c cap s := by
  refine h.invariant (fun s h => ⟨fun t a x ho => ?_, ?_⟩) fun s s' hr h hs => ?_
  · rw [h.pc t] at ho
    cases ho
  · rw [h.lost]
    exact fun bl hbl => absurd hbl List.not_mem_nil
  · obtain ⟨t, es, hs⟩ := hs
    exact h.step (inv_of_reachable hr) hs

omit [DecidableEq Tid] [DecidableEq A] [DecidableEq Key] in
theorem newSegment_list {seg : SegmentT Key Value} (h : newSegment c cap = some seg) :
    BucketList.make (nextPowTwo ((Map.make cap : Map Key Value).initCapacity >>> c.shardBits.val)) =
      some (seg.list seg.bucketList) := by
  obtain ⟨bl, hbl, rfl⟩ := Option.map_eq_some_iff.1 h
  exact hbl

/-- Every segment whose memory is not free is installed in one shard or in the hands of one thread,
which finds it as it needs it, and as it was made. What is lost of one that is destroyed is its
list of empty buckets. -/
theorem one_place (h : Reachable Init (AnyStep c cap) s) :
    OnePlace (fun a => s.memory a ≠ .free) (At s) ∧ (∀ t, (s.pc t).Made s.memory) ∧
      (∀ t a x, (s.pc t).own? = some a → s.memory a = .built x → newSegment c cap = some x.seg) ∧
      ∀ bl ∈ s.lost, BucketList.make (nextPowTwo ((Map.make cap : Map Key Value).initCapacity >>> c.shardBits.val)) =
        some bl := by
  have hi := inv_of_reachable h
  have ha := asMade_of_reachable h
  refine ⟨hi.place, hi.made, ha.own, fun bl hbl => ?_⟩
  obtain ⟨seg, hseg, rfl⟩ := ha.lost bl hbl
  exact newSegment_list hseg

/-- The loser of a race has given back its segment, and the four buckets are lost. -/
theorem one_place_race : ∃ s : State Bool Bool Nat Nat, s.pc true = .visiting 0 false ∧ s.memory true = .free ∧
    s.lost.length = 1 ∧ OnePlace (fun a => s.memory a ≠ .free) (At s) ∧ ∀ bl ∈ s.lost, bl.bucketCount = 4 := by
  obtain ⟨s, hr, hs, -, ht, ⟨x, hx⟩, hlost⟩ := exists_race
  have r₁ := hr.tail ⟨true, _, .destroy s (.visit 0) true false x ht hx⟩
  have r₂ := r₁.tail ⟨true, _, .deallocate _ (.visit 0) true false rfl rfl⟩
  obtain ⟨hplace, -, -, hbuckets⟩ := one_place ⟨unused, unused_init, r₂⟩
  refine ⟨_, rfl, rfl, ?_, hplace, fun bl hbl => ?_⟩
  · change (_ :: s.lost).length = 1
    rw [hlost]
    rfl
  · cases hbuckets bl hbl
    rfl

end Steps

end Wizard.HashMap.Shards
