import Wizard.HashMapShards
import Wizard.History

/-! However the segments come to be, the threads see one map: a write takes effect at one moment
between its call and its return, and a `find` returns what its key was bound to at such a moment. -/

namespace Wizard.HashMap.Shards

open SegmentT

/-- What a thread is doing. A `find` keeps the values that its key has had since the call. -/
inductive Phase (Key Value : Type) where
  | idle
  | writing (w : Write Key Value)
  | wrote (w : Write Key Value)
  | finding (k : Key) (H : Set (Option Value))

structure Atomic (Tid Key Value : Type) where
  map : Key → Option Value
  phase : Tid → Phase Key Value

variable {Tid A Key Value : Type}

def Phase.see (f : Key → Option Value) : Phase Key Value → Phase Key Value
  | .finding k H => .finding k (insert (f k) H)
  | ph => ph

def Atomic.start : Atomic Tid Key Value := ⟨fun _ => none, fun _ => .idle⟩

section Does

variable [DecidableEq Tid]

def Atomic.setPhase (a : Atomic Tid Key Value) (t : Tid) (ph : Phase Key Value) : Atomic Tid Key Value :=
  { a with phase := Function.update a.phase t ph }

@[simp] theorem setPhase_map (a : Atomic Tid Key Value) (t : Tid) (ph : Phase Key Value) :
    (a.setPhase t ph).map = a.map := rfl

@[simp] theorem setPhase_phase (a : Atomic Tid Key Value) (t : Tid) (ph : Phase Key Value) :
    (a.setPhase t ph).phase = Function.update a.phase t ph := rfl

variable [DecidableEq Key]

def Atomic.takeEffect (a : Atomic Tid Key Value) (t : Tid) (w : Write Key Value) : Atomic Tid Key Value :=
  ⟨w.apply a.map, fun u => (Function.update a.phase t (.wrote w) u).see (w.apply a.map)⟩

inductive Does : Atomic Tid Key Value → Tid × Event Key Value → Atomic Tid Key Value → Prop
  | write (a t w) (h : a.phase t = .idle) : Does a (t, .write w) (a.setPhase t (.writing w))
  | effect (a t w) (h : a.phase t = .writing w) : Does a (t, .effect w) (a.takeEffect t w)
  | wrote (a t w) (h : a.phase t = .wrote w) : Does a (t, .wrote w) (a.setPhase t .idle)
  | find (a t k) (h : a.phase t = .idle) : Does a (t, .find k) (a.setPhase t (.finding k {a.map k}))
  | found (a t k r H) (h : a.phase t = .finding k H) (hr : r ∈ H) : Does a (t, .found k r) (a.setPhase t .idle)

def EventStep [DecidableEq A] [Inhabited Key] [Inhabited Value] (c : Config Key) (cap : BitVec 64)
    (s : State Tid A Key Value) (es : List (Tid × Event Key Value)) (s' : State Tid A Key Value) : Prop :=
  ∃ t es', Step c cap t s es' s' ∧ es = es'.map fun e => (t, e)

end Does

def Memory.seg? : Memory Tid Key Value → Option (SegmentT Key Value)
  | .built x => some x.seg
  | _ => none

def Memory.bound : Memory Tid Key Value → Key → Option Value
  | .built x => x.bound
  | _ => fun _ => none

/-- The map that the segments make up. -/
def State.toMap (s : State Tid A Key Value) (cap : BitVec 64) : Map Key Value :=
  { (Map.make cap : Map Key Value) with segments := fun i => (s.segments i).bind fun a => (s.memory a).seg? }

def contents (c : Config Key) (s : State Tid A Key Value) (k : Key) : Option Value :=
  (s.segments (Map.pickSegment c k)).bind fun a => (s.memory a).bound k

def Cell.at_ (x : Cell Tid Key Value) (pos : Find.Pos Value) : Find.State Key Value :=
  ⟨x.seg, x.lock.map Prod.snd, x.bound, pos⟩

def Cell.Sound (c : Config Key) (x : Cell Tid Key Value) : Prop := ∀ k, Find.Inv c k (x.at_ .start) Set.univ

def Caller.phase : Caller Key Value → Phase Key Value
  | .insert k v => .writing (.insert k v)
  | .visit _ => .idle

section Shown

variable [DecidableEq Key] (c : Config Key) (memory : A → Memory Tid Key Value) (t : Tid)

def Shown : Pc A Key Value → Phase Key Value → Prop
  | .idle, ph => ph = .idle
  | .load x, ph => ph = x.phase
  | .allocate x, ph => ph = x.phase
  | .construct x _, ph => ph = x.phase
  | .exchange x _, ph => ph = x.phase
  | .destroy x _ _, ph => ph = x.phase
  | .deallocate x _ _, ph => ph = x.phase
  | .visiting _ _, ph => ph = .idle
  | .eraseLoad k, ph => ph = .writing (.erase k)
  | .enter w _, ph => ph = .writing w
  | .holding w a, ph => ∃ x st g, memory a = .built x ∧ x.lock = some (t, st, g) ∧
      (st = [] → ph = .wrote w) ∧ (st ≠ [] → ph = .writing w ∧ g = w.apply x.bound)
  | .findLoad k, ph => ∃ H, ph = .finding k H
  | .find k a pos, ph => ∃ x H, memory a = .built x ∧ ph = .finding k H ∧ Find.Inv c k (x.at_ pos) H
  | .missed k, ph => ∃ H, ph = .finding k H ∧ none ∈ H

end Shown

structure Shows [DecidableEq Key] (c : Config Key) (s : State Tid A Key Value) (a : Atomic Tid Key Value) : Prop where
  inv : Inv c s
  map : a.map = contents c s
  seen : ∀ t k H, a.phase t = .finding k H → a.map k ∈ H
  cells : ∀ b x, s.memory b = .built x → x.Sound c
  unused : ∀ t b x, (s.pc t).own? = some b → s.memory b = .built x → x.bound = fun _ => none
  shown : ∀ t, Shown c s.memory t (s.pc t) (a.phase t)

section Phases

variable {f : Key → Option Value} {phase : Tid → Phase Key Value}

theorem see_eq (h : ∀ u k H, phase u = .finding k H → f k ∈ H) : (fun u => (phase u).see f) = phase := by
  funext u
  cases hu : phase u with
  | finding k H => rw [Phase.see, Set.insert_eq_of_mem (h u k H hu)]
  | _ => rfl

theorem mem_of_see {ph : Phase Key Value} {k : Key} {H : Set (Option Value)} (h : ph.see f = .finding k H) :
    f k ∈ H := by
  cases ph with
  | finding k' H' =>
    cases h
    exact Set.mem_insert _ _
  | _ => cases h

end Phases

variable [DecidableEq Key] {c : Config Key} {cap : BitVec 64} {s s' : State Tid A Key Value} {a : Atomic Tid Key Value}
  {t u : Tid} {b : A} {i : Nat} {p : Pc A Key Value} {ph : Phase Key Value} {k : Key} {w : Write Key Value}
  {memory memory' : A → Memory Tid Key Value} {x x' : Cell Tid Key Value} {f g : Key → Option Value}

theorem Write.apply_congr (h : f k = g k) : w.apply f k = w.apply g k := by
  cases w with
  | insert k' v | erase k' =>
    by_cases hk : k = k'
    · subst hk
      simp [Write.apply]
    · simpa [Write.apply, hk] using h

theorem Write.apply_of_ne (h : k ≠ w.key) : w.apply f k = f k := by
  cases w <;> exact Function.update_of_ne h _ _

omit [DecidableEq Key] in
theorem contents_eq (hs : s.segments (Map.pickSegment c k) = some b) (hm : s.memory b = .built x) :
    contents c s k = x.bound k := by
  rw [contents, hs, Option.bind_some, hm]
  rfl

theorem Shown.see (h : Shown c memory t p ph) : Shown c memory t p (ph.see f) := by
  cases p with
  | load x | allocate x | construct x a | exchange x a | destroy x a b | deallocate x a b =>
    cases h
    cases x <;> rfl
  | holding w a =>
    obtain ⟨x, st, g, hm, hl, hnil, hcons⟩ := h
    refine ⟨x, st, g, hm, hl, fun hst => ?_, fun hst => ?_⟩
    · rw [hnil hst]
      rfl
    · obtain ⟨rfl, hg⟩ := hcons hst
      exact ⟨rfl, hg⟩
  | findLoad k =>
    obtain ⟨H, rfl⟩ := h
    exact ⟨_, rfl⟩
  | find k a pos =>
    obtain ⟨x, H, hm, rfl, hi⟩ := h
    exact ⟨x, _, hm, rfl, hi.mono (Set.subset_insert _ _)⟩
  | missed k =>
    obtain ⟨H, rfl, hn⟩ := h
    exact ⟨_, rfl, Set.mem_insert_of_mem _ hn⟩
  | _ =>
    cases h
    rfl

/-- It depends on the segment that the thread has been given, and on no other. -/
theorem Shown.congr (h : Shown c memory t p ph) (he : ∀ i b, p.given? c = some (i, b) → memory' b = memory b) :
    Shown c memory' t p ph := by
  cases p with
  | holding w a =>
    obtain ⟨x, st, g, hm, hrest⟩ := h
    exact ⟨x, st, g, (he _ _ rfl).trans hm, hrest⟩
  | find k a pos =>
    obtain ⟨x, H, hm, hrest⟩ := h
    exact ⟨x, H, (he _ _ rfl).trans hm, hrest⟩
  | _ => exact h

/-- Another thread has gone on with its section in the segment. -/
theorem Shown.work [DecidableEq A] (h : Shown c memory u p ph) (hm : memory b = .built x)
    (hseen : ∀ k H, ph = .finding k H → p.given? c = some (Map.pickSegment c k, b) → x.bound k ∈ H ∧ f k = x'.bound k)
    (hmove : ∀ k pos, Find.Step c k (x.at_ pos) (x'.at_ pos)) (hlock : ∀ st g, x.lock ≠ some (u, st, g)) :
    Shown c (Function.update memory b (.built x')) u p (ph.see f) := by
  by_cases hb : ∃ i, p.given? c = some (i, b)
  · cases p with
    | holding w a =>
      obtain ⟨i, hi⟩ := hb
      cases hi
      obtain ⟨y, st, g, hy, hl, -⟩ := h
      cases hm.symm.trans hy
      exact absurd hl (hlock st g)
    | find k a pos =>
      obtain ⟨i, hi⟩ := hb
      cases hi
      obtain ⟨y, H, hy, rfl, hinv⟩ := h
      cases hm.symm.trans hy
      obtain ⟨hbound, hf⟩ := hseen k H rfl rfl
      have hstep := hinv.step hbound (hmove k pos)
      refine ⟨x', _, Function.update_self .., rfl, ?_⟩
      rw [hf]
      exact hstep
    | _ => exact h.see
  · refine (h.congr fun i d hd => Function.update_of_ne ?_ _ _).see
    rintro rfl
    exact hb ⟨i, hd⟩

namespace Shows

variable [DecidableEq Tid]

/-- Thread `t` goes on, and no installed segment changes. -/
theorem turn (h : Shows c s a) (hi : Inv c s') (hpc : s'.pc = Function.update s.pc t p)
    (hmap : contents c s' = contents c s) (hmem : ∀ i b, s.segments i = some b → s'.memory b = s.memory b)
    (hcells : ∀ b x, s'.memory b = .built x → x.Sound c)
    (hunused : ∀ u b x, (s'.pc u).own? = some b → s'.memory b = .built x → x.bound = fun _ => none)
    (hseen : ∀ k H, ph = .finding k H → a.map k ∈ H) (hp : Shown c s'.memory t p ph) :
    Shows c s' (a.setPhase t ph) where
  inv := hi
  map := h.map.trans hmap.symm
  seen := (Function.forall_update_iff a.phase fun _ q => ∀ k H, q = .finding k H → a.map k ∈ H).2
    ⟨hseen, fun u _ => h.seen u⟩
  cells := hcells
  unused := hunused
  shown u := by
    rw [hpc]
    by_cases hu : u = t
    · rw [hu, Function.update_self, setPhase_phase, Function.update_self]
      exact hp
    · rw [Function.update_of_ne hu, setPhase_phase, Function.update_of_ne hu]
      exact (h.shown u).congr fun i b hb => hmem i b (h.inv.given u i b hb)

/-- The same, and nothing is stored. -/
theorem goOn (h : Shows c s a) (hi : Inv c (s.setPc t p)) (ho : p.own? = (s.pc t).own?)
    (hseen : ∀ k H, ph = .finding k H → a.map k ∈ H) (hp : Shown c s.memory t p ph) :
    Shows c (s.setPc t p) (a.setPhase t ph) := by
  refine h.turn hi rfl rfl (fun _ _ _ => rfl) h.cells (fun u b x hu hx => h.unused u b x ?_ hx) hseen hp
  by_cases hut : u = t
  · rw [hut, setPc_pc, Function.update_self, ho] at hu
    rw [hut]
    exact hu
  · rwa [setPc_pc, Function.update_of_ne hut] at hu

omit [DecidableEq Key] in
theorem setPhase_self (h : a.phase t = ph) : a.setPhase t ph = a := by
  rw [Atomic.setPhase, ← h, Function.update_eq_self]

/-- A section goes on. With the store that makes it take effect the map becomes `f`. -/
theorem work [DecidableEq A] (h : Shows c s a) (hi : Inv c ((s.put b (.built x')).setPc t p))
    (hb : s.segments i = some b) (hx : s.memory b = .built x)
    (hmove : ∀ k pos, Find.Step c k (x.at_ pos) (x'.at_ pos)) (hlock : ∀ u, u ≠ t → ∀ st g, x.lock ≠ some (u, st, g))
    (hin : ∀ k, Map.pickSegment c k = i → f k = x'.bound k) (hout : ∀ k, Map.pickSegment c k ≠ i → f k = a.map k)
    (ho : p.own? = none) (hp : Shown c (Function.update s.memory b (.built x')) t p ph) :
    Shows c ((s.put b (.built x')).setPc t p) ⟨f, fun u => (Function.update a.phase t ph u).see f⟩ where
  inv := hi
  map := by
    funext k
    by_cases hk : Map.pickSegment c k = i
    · have hs : ((s.put b (.built x')).setPc t p).segments (Map.pickSegment c k) = some b := by
        rw [hk]
        exact hb
      exact (hin k hk).trans (contents_eq hs (Function.update_self ..)).symm
    · refine (hout k hk).trans ?_
      rw [h.map, contents, contents, setPc_segments, put_segments]
      cases hs : s.segments (Map.pickSegment c k) with
      | none => rfl
      | some d =>
        have hd : d ≠ b := by
          rintro rfl
          have hq : At s d (.shard (Map.pickSegment c k)) := hs
          cases h.inv.place.unique d _ (.shard i) hq hb
          exact hk rfl
        simp [hd]
  seen u k H hu := mem_of_see hu
  cells d y hy := by
    by_cases hd : d = b
    · have hself : ((s.put b (.built x')).setPc t p).memory b = .built x' := Function.update_self ..
      rw [hd, hself] at hy
      cases hy
      intro k
      exact ((h.cells b x hx k).step trivial (hmove k .start)).mono (Set.subset_univ _)
    · exact h.cells d y ((Function.update_of_ne hd _ _).symm.trans hy)
  unused u d y hu hy := by
    have hut : u ≠ t := by
      rintro rfl
      rw [setPc_pc, Function.update_self, ho] at hu
      cases hu
    rw [setPc_pc, Function.update_of_ne hut] at hu
    have hd : d ≠ b := by
      rintro rfl
      have hq : At s d (.thread u) := hu
      cases h.inv.place.unique d _ (.shard i) hq hb
    exact h.unused u d y hu ((Function.update_of_ne hd _ _).symm.trans hy)
  shown u := by
    rw [setPc_pc, setPc_memory, put_memory, put_pc]
    change Shown c _ u _ ((Function.update a.phase t ph u).see f)
    by_cases hu : u = t
    · rw [hu, Function.update_self, Function.update_self]
      exact hp.see
    · rw [Function.update_of_ne hu, Function.update_of_ne hu]
      refine (h.shown u).work hx (fun k H hk hg => ?_) hmove (hlock u hu)
      have hs := h.inv.given u _ _ hg
      have hki : Map.pickSegment c k = i := by
        have hq : At s b (.shard (Map.pickSegment c k)) := hs
        cases h.inv.place.unique b _ (.shard i) hq hb
        rfl
      refine ⟨?_, hin k hki⟩
      rw [← contents_eq hs hx, ← h.map]
      exact h.seen u k H hk

omit [DecidableEq Tid] in
theorem bound_eq (h : Shows c s a) (hg : s.segments (Map.pickSegment c k) = some b) (hx : s.memory b = .built x) :
    a.map k = x.bound k := by
  rw [h.map, contents_eq hg hx]

theorem silent (h : Shows c s a) (hi : Inv c (s.setPc t p)) (ho : p.own? = (s.pc t).own?)
    (hp : Shown c s.memory t p (a.phase t)) : Shows c (s.setPc t p) a := by
  have hgo := h.goOn hi ho (h.seen t) hp
  rwa [setPhase_self rfl] at hgo

theorem keep [DecidableEq A] (h : Shows c s a) (hi : Inv c ((s.put b (.built x')).setPc t p))
    (hb : s.segments i = some b) (hx : s.memory b = .built x)
    (hmove : ∀ k pos, Find.Step c k (x.at_ pos) (x'.at_ pos)) (hlock : ∀ u, u ≠ t → ∀ st g, x.lock ≠ some (u, st, g))
    (hbound : x'.bound = x.bound) (ho : p.own? = none) (hp : Shown c (Function.update s.memory b (.built x')) t p ph)
    (hph : ∀ k H, ph ≠ .finding k H) : Shows c ((s.put b (.built x')).setPc t p) (a.setPhase t ph) := by
  have hwork := h.work (f := a.map) hi hb hx hmove hlock (fun k hk => ?_) (fun _ _ => rfl) ho hp
  · rw [see_eq] at hwork
    · exact hwork
    · exact (Function.forall_update_iff a.phase fun _ q => ∀ k H, q = .finding k H → a.map k ∈ H).2
        ⟨fun k H hk => absurd hk (hph k H), fun u _ => h.seen u⟩
  · rw [hbound]
    refine h.bound_eq ?_ hx
    rw [hk]
    exact hb

theorem effect [DecidableEq A] (h : Shows c s a) (hi : Inv c ((s.put b (.built x')).setPc t p))
    (hb : s.segments (Map.pickSegment c w.key) = some b) (hx : s.memory b = .built x)
    (hmove : ∀ k pos, Find.Step c k (x.at_ pos) (x'.at_ pos)) (hlock : ∀ u, u ≠ t → ∀ st g, x.lock ≠ some (u, st, g))
    (hbound : x'.bound = w.apply x.bound) (ho : p.own? = none)
    (hp : Shown c (Function.update s.memory b (.built x')) t p (.wrote w)) :
    Shows c ((s.put b (.built x')).setPc t p) (a.takeEffect t w) := by
  refine h.work hi hb hx hmove hlock (fun k hk => ?_) (fun k hk => ?_) ho hp
  · rw [hbound]
    refine Write.apply_congr (h.bound_eq ?_ hx)
    rw [hk]
    exact hb
  · refine Write.apply_of_ne ?_
    rintro rfl
    exact hk rfl

end Shows

theorem Look.step {pos pos' : Find.Pos Value} (hs : Look c k x.seg pos pos') :
    Find.Step c k (x.at_ pos) (x.at_ pos') := by
  cases hs with
  | loadList => exact .loadList _ rfl
  | loadHead l => exact .loadHead _ l rfl
  | loadNext n hk => exact .loadNext _ n rfl hk
  | found n hk => exact .found _ n rfl hk
  | missing => exact .missing _ rfl

theorem Write.stores_step {st : List (Store Key Value)} (hl : x.lock = none) (hs : w.stores c x.seg = some st)
    (t : Tid) (k : Key) (pos : Find.Pos Value) :
    Find.Step c k (x.at_ pos) (Cell.at_ { x with lock := some (t, st, w.apply x.bound) } pos) := by
  have hl' : (x.at_ pos).lock = none := by
    rw [Cell.at_, hl]
    rfl
  cases w with
  | insert k' v =>
    obtain ⟨sec, hsec, rfl⟩ := Option.map_eq_some_iff.1 hs
    exact .insert _ k' v sec hl' hsec
  | erase k' =>
    cases hs
    exact .erase _ k' hl'

omit [DecidableEq Key] in
/-- A section without stores changes nothing. -/
theorem Cell.Sound.of_nil (h : x.Sound c) {t : Tid} (k : Key) (hl : x.lock = some (t, [], f)) : f = x.bound := by
  obtain ⟨V, W, hL, -⟩ := h k
  refine hL.eq_bound ?_
  rw [Cell.at_, hl]
  rfl

theorem Shows.init {s : State Tid A Key Value} (h : Init s) : Shows c s .start where
  inv := h.inv
  map := by
    funext k
    rw [contents, h.segments]
    rfl
  seen t k H hu := by cases hu
  cells b x hx := by cases (h.memory b).symm.trans hx
  unused t b x hu hx := by cases (h.memory b).symm.trans hx
  shown t := by
    rw [h.pc t]
    rfl

section Steps

variable [DecidableEq Tid] [DecidableEq A]

omit [DecidableEq Tid] [DecidableEq A] in
theorem shown_resume (y : Caller Key Value) : Shown c memory t (y.resume b) y.phase := by
  cases y <;> rfl

/-- A segment changes that is not installed. -/
theorem Shows.putOwn {m : Memory Tid Key Value} (h : Shows c s a) (hi : Inv c ((s.put b m).setPc t p))
    (hb : ∀ i, s.segments i ≠ some b) (hm : ∀ x, m = .built x → x.Sound c ∧ x.bound = fun _ => none)
    (ho : ∀ d, p.own? = some d → d = b) (hp : Shown c (Function.update s.memory b m) t p (a.phase t)) :
    Shows c ((s.put b m).setPc t p) a := by
  have hmem : ∀ i d, s.segments i = some d → Function.update s.memory b m d = s.memory d := by
    rintro i d hd
    refine Function.update_of_ne ?_ _ _
    rintro rfl
    exact hb i hd
  have hbuilt : ∀ d x, Function.update s.memory b m d = .built x →
      (x.Sound c ∧ x.bound = fun _ => none) ∨ (d ≠ b ∧ s.memory d = .built x) := by
    intro d x hx
    by_cases hd : d = b
    · rw [hd, Function.update_self] at hx
      exact .inl (hm x hx)
    · rw [Function.update_of_ne hd] at hx
      exact .inr ⟨hd, hx⟩
  have hturn := h.turn hi rfl ?_ hmem ?_ ?_ (h.seen t) hp
  · rwa [setPhase_self rfl] at hturn
  · funext k
    rw [contents, contents, setPc_segments, put_segments, setPc_memory, put_memory]
    cases hs : s.segments (Map.pickSegment c k) with
    | none => rfl
    | some d => rw [Option.bind_some, Option.bind_some, hmem _ d hs]
  · intro d x hx
    rcases hbuilt d x hx with hx | ⟨-, hx⟩
    · exact hx.1
    · exact h.cells d x hx
  · intro u d x hu hx
    rcases hbuilt d x hx with hx | ⟨hd, hx⟩
    · exact hx.2
    · refine h.unused u d x ?_ hx
      by_cases hut : u = t
      · rw [hut, setPc_pc, Function.update_self] at hu
        exact absurd (ho d hu) hd
      · rwa [setPc_pc, Function.update_of_ne hut] at hu

omit [DecidableEq A] in
theorem Shows.exchange {y : Caller Key Value} (h : Shows c s a)
    (hi : Inv c ((s.install (y.shard c) b).setPc t (y.resume b))) (ht : s.pc t = .exchange y b)
    (hs : s.segments (y.shard c) = none) :
    Shows c ((s.install (y.shard c) b).setPc t (y.resume b)) a := by
  have hown : (s.pc t).own? = some b := by
    rw [ht]
    rfl
  obtain ⟨x, hx⟩ : ∃ x, s.memory b = .built x := by
    have hmade := h.inv.made t
    rw [ht] at hmade
    exact hmade
  have hshown := h.shown t
  rw [ht] at hshown
  have hp : Shown c s.memory t (y.resume b) (a.phase t) := by
    rw [hshown]
    exact shown_resume y
  have hturn := h.turn hi rfl ?_ (fun _ _ _ => rfl) h.cells ?_
    (h.seen t) hp
  · rwa [setPhase_self rfl] at hturn
  · funext k
    rw [contents, contents, setPc_segments, install_segments]
    by_cases hk : Map.pickSegment c k = y.shard c
    · rw [hk, hs, Function.update_self, Option.bind_some, setPc_memory, install_memory, hx]
      exact congrFun (h.unused t b x hown hx) k
    · rw [Function.update_of_ne hk]
      rfl
  · intro u d z hu hz
    refine h.unused u d z ?_ hz
    by_cases hut : u = t
    · rw [hut, setPc_pc, Function.update_self, own?_resume] at hu
      cases hu
    · rwa [setPc_pc, Function.update_of_ne hut] at hu

/-- The steps inside a segment. -/
theorem Shows.lock {st : List (Store Key Value)} (h : Shows c s a)
    (hi : Inv c ((s.put b (.built { x with lock := some (t, st, w.apply x.bound) })).setPc t (.holding w b)))
    (ht : s.pc t = .enter w b) (hm : s.memory b = .built x) (hl : x.lock = none) (hs : w.stores c x.seg = some st) :
    ∃ a', Replay Does a ((if st = [] then [.effect w] else []).map fun e => (t, e)) a' ∧
      Shows c ((s.put b (.built { x with lock := some (t, st, w.apply x.bound) })).setPc t (.holding w b)) a' := by
  have hb : s.segments (Map.pickSegment c w.key) = some b := by
    refine h.inv.given t _ b ?_
    rw [ht]
    rfl
  have hphase : a.phase t = .writing w := by
    have hshown := h.shown t
    rw [ht] at hshown
    exact hshown
  have hlock : ∀ u, u ≠ t → ∀ st g, x.lock ≠ some (u, st, g) := by simp [hl]
  have hmove := Write.stores_step (c := c) hl hs t
  by_cases hst : st = []
  · subst hst
    have hsound : Cell.Sound c { x with lock := some (t, [], w.apply x.bound) } := by
      intro k
      exact ((h.cells b x hm k).step trivial (hmove k .start)).mono (Set.subset_univ _)
    have hbound : x.bound = w.apply x.bound := (hsound.of_nil w.key rfl).symm
    refine ⟨_, .single (.effect a t w hphase), h.effect hi hb hm hmove hlock hbound rfl ?_⟩
    exact ⟨_, _, _, Function.update_self .., rfl, fun _ => rfl, by simp⟩
  · rw [if_neg hst]
    refine ⟨a, .nil, ?_⟩
    have hkeep : Shows c _ (a.setPhase t (.writing w)) := h.keep hi hb hm hmove hlock rfl rfl
      ⟨_, _, _, Function.update_self .., rfl, fun h => absurd h hst, fun _ => ⟨rfl, rfl⟩⟩ (by simp)
    rwa [setPhase_self hphase] at hkeep

omit [DecidableEq Tid] [DecidableEq A] in
theorem Shows.unbound {k : Key} (h : Shows c s a) (hn : s.segments (Map.pickSegment c k) = none) : a.map k = none := by
  rw [h.map, contents, hn]
  rfl

omit [DecidableEq Tid] [DecidableEq A] in
/-- The thread that has the lock of a segment, and what it is doing. -/
theorem Shows.holding {st : List (Store Key Value)} (h : Shows c s a) (ht : s.pc t = .holding w b)
    (hm : s.memory b = .built x) (hl : x.lock = some (t, st, f)) :
    (st = [] → a.phase t = .wrote w) ∧ (st ≠ [] → a.phase t = .writing w ∧ f = w.apply x.bound) ∧
      ∀ u, u ≠ t → ∀ st' g, x.lock ≠ some (u, st', g) := by
  have hshown := h.shown t
  rw [ht] at hshown
  obtain ⟨y, st', g, hy, hly, hnil, hcons⟩ := hshown
  cases hm.symm.trans hy
  cases hl.symm.trans hly
  refine ⟨hnil, hcons, fun u hu st' g hx => ?_⟩
  cases hl.symm.trans hx
  exact hu rfl

theorem Shows.store {st : Store Key Value} {rest : List (Store Key Value)} (h : Shows c s a)
    (hi : Inv c ((s.put b (.built ⟨x.seg.apply st, some (t, rest, f), if rest = [] then f else x.bound⟩)).setPc t
      (.holding w b)))
    (ht : s.pc t = .holding w b) (hm : s.memory b = .built x) (hl : x.lock = some (t, st :: rest, f)) :
    ∃ a', Replay Does a ((if rest = [] then [.effect w] else []).map fun e => (t, e)) a' ∧
      Shows c ((s.put b (.built ⟨x.seg.apply st, some (t, rest, f), if rest = [] then f else x.bound⟩)).setPc t
        (.holding w b)) a' := by
  have hb : s.segments (Map.pickSegment c w.key) = some b := by
    refine h.inv.given t _ b ?_
    rw [ht]
    rfl
  obtain ⟨-, hcons, hlock⟩ := h.holding ht hm hl
  obtain ⟨hphase, rfl⟩ := hcons (by simp)
  have hmove : ∀ k pos, Find.Step c k (x.at_ pos) (Cell.at_ ⟨x.seg.apply st, some (t, rest, w.apply x.bound),
      if rest = [] then w.apply x.bound else x.bound⟩ pos) := by
    intro k pos
    refine .store (x.at_ pos) st rest (w.apply x.bound) ?_
    rw [Cell.at_, hl]
    rfl
  by_cases hrest : rest = []
  · subst hrest
    refine ⟨_, .single (.effect a t w hphase), h.effect hi hb hm hmove hlock rfl rfl ?_⟩
    exact ⟨_, _, _, Function.update_self .., rfl, fun _ => rfl, by simp⟩
  · rw [if_neg hrest]
    refine ⟨a, .nil, ?_⟩
    have hkeep : Shows c _ (a.setPhase t (.writing w)) := h.keep hi hb hm hmove hlock (if_neg hrest) rfl
      ⟨_, _, _, Function.update_self .., rfl, fun h => absurd h hrest, fun _ => ⟨rfl, by rw [if_neg hrest]⟩⟩ (by simp)
    rwa [setPhase_self hphase] at hkeep

theorem Shows.unlock (h : Shows c s a) (hi : Inv c ((s.put b (.built { x with lock := none })).setPc t .idle))
    (ht : s.pc t = .holding w b) (hm : s.memory b = .built x) (hl : x.lock = some (t, [], f)) :
    ∃ a', Replay Does a [(t, .wrote w)] a' ∧ Shows c ((s.put b (.built { x with lock := none })).setPc t .idle) a' := by
  have hb : s.segments (Map.pickSegment c w.key) = some b := by
    refine h.inv.given t _ b ?_
    rw [ht]
    rfl
  obtain ⟨hnil, -, hlock⟩ := h.holding ht hm hl
  have hphase : a.phase t = .wrote w := hnil rfl
  have hmove : ∀ k pos, Find.Step c k (x.at_ pos) (({ x with lock := none } : Cell Tid Key Value).at_ pos) := by
    intro k pos
    refine .unlock (x.at_ pos) x.bound ?_
    rw [Cell.at_, hl, (h.cells b x hm).of_nil k hl]
    rfl
  exact ⟨_, .single (.wrote a t w hphase), h.keep hi hb hm hmove hlock rfl rfl rfl (by simp)⟩

omit [DecidableEq Tid] [DecidableEq A] in
theorem Shows.lose (h : Shows c s a) (bl : BucketList) : Shows c (s.lose bl) a :=
  ⟨h.inv.lose bl, h.map, h.seen, h.cells, h.unused, h.shown⟩

variable [Inhabited Key] [Inhabited Value]

omit [DecidableEq Key] [DecidableEq Tid] [DecidableEq A] in
theorem sound_made {seg : SegmentT Key Value} (hcap : cap.toNat ≤ 2 ^ 63)
    (hs : SegmentT.make c ((Map.make cap : Map Key Value).initCapacity >>> c.shardBits.val) = some seg) :
    Cell.Sound c (⟨seg, none, fun _ => none⟩ : Cell Tid Key Value) := by
  have hcapacity : (Map.make cap : Map Key Value).initCapacity.toNat ≤ 2 ^ 63 := by
    obtain ⟨j, hj, he⟩ := nextPowTwo_toNat hcap
    rw [Map.make, he]
    exact Nat.pow_le_pow_right (by omega) hj
  have hle : ((Map.make cap : Map Key Value).initCapacity >>> c.shardBits.val).toNat ≤ 2 ^ 63 := by
    rw [BitVec.toNat_ushiftRight]
    exact (Nat.shiftRight_le _ _).trans hcapacity
  obtain ⟨V, W, hh⟩ := (Represents.make hle hs).holds
  intro k
  exact ⟨V, W, hh, none, trivial, trivial⟩

theorem Shows.step (hcap : cap.toNat ≤ 2 ^ 63) {es : List (Event Key Value)} (h : Shows c s a)
    (hs : Step c cap t s es s') : ∃ a', Replay Does a (es.map fun e => (t, e)) a' ∧ Shows c s' a' := by
  have hi := h.inv.step hs
  have hshown := h.shown t
  have hown : ∀ {q r : Pc A Key Value}, s.pc t = q → r.own? = q.own? → r.own? = (s.pc t).own? := by
    rintro q r rfl hr
    exact hr
  have hfree : ∀ {q : Pc A Key Value} {b}, s.pc t = q → q.own? = some b → ∀ i, s.segments i ≠ some b := by
    rintro q b rfl hq i hb
    have hp : At s b (.thread t) := hq
    cases h.inv.place.unique b _ (.shard i) hp hb
  cases hs with
  | call y ht hy =>
    rw [ht] at hshown
    cases y with
    | insert k v => exact ⟨_, .single (.write a t _ hshown), h.goOn hi (hown ht rfl) (by simp) rfl⟩
    | visit i => exact ⟨a, .nil, h.silent hi (hown ht rfl) hshown⟩
  | loadSome y b ht hb =>
    rw [ht] at hshown
    refine ⟨a, .nil, h.silent hi (hown ht (own?_resume y b)) ?_⟩
    rw [hshown]
    exact shown_resume y
  | loadNone y ht hn =>
    rw [ht] at hshown
    exact ⟨a, .nil, h.silent hi (hown ht rfl) hshown⟩
  | allocate y b ht hm =>
    rw [ht] at hshown
    have hb : ∀ i, s.segments i ≠ some b := fun i hb => h.inv.place.mem b (.shard i) hb hm
    exact ⟨a, .nil, h.putOwn hi hb (by simp) (by simp [Pc.own?, eq_comm]) hshown⟩
  | construct y b seg ht hm hseg =>
    rw [ht] at hshown
    refine ⟨a, .nil, h.putOwn hi (hfree ht rfl) ?_ (by simp [Pc.own?, eq_comm]) hshown⟩
    rintro x ⟨⟩
    exact ⟨sound_made hcap hseg, rfl⟩
  | exchange y b ht hn => exact ⟨a, .nil, h.exchange hi ht hn⟩
  | exchangeFail y b d ht hd =>
    rw [ht] at hshown
    exact ⟨a, .nil, h.silent hi (hown ht rfl) hshown⟩
  | destroy y b d z ht hm =>
    rw [ht] at hshown
    have hi' : Inv c ((s.put b .raw).setPc t (.deallocate y b d)) := ⟨hi.place, hi.installed, hi.given, hi.made⟩
    exact ⟨a, .nil, (h.putOwn hi' (hfree ht rfl) (by simp) (by simp [Pc.own?, eq_comm]) hshown).lose _⟩
  | deallocate y b d ht hm =>
    rw [ht] at hshown
    refine ⟨a, .nil, h.putOwn hi (hfree ht rfl) (by simp) (by simp) ?_⟩
    rw [hshown]
    exact shown_resume y
  | visited i b ht =>
    rw [ht] at hshown
    exact ⟨a, .nil, h.silent hi (hown ht rfl) hshown⟩
  | erase k ht =>
    rw [ht] at hshown
    exact ⟨_, .single (.write a t _ hshown), h.goOn hi (hown ht rfl) (by simp) rfl⟩
  | eraseSome k b ht hb =>
    rw [ht] at hshown
    exact ⟨a, .nil, h.silent hi (hown ht rfl) hshown⟩
  | eraseNone k ht hn =>
    rw [ht] at hshown
    have hnone := h.unbound hn
    have hmap : Write.apply a.map (.erase k) = a.map := Function.update_eq_self_iff.2 hnone.symm
    have heffect : a.takeEffect t (.erase k) = a.setPhase t (.wrote (.erase k)) := by
      rw [Atomic.takeEffect, hmap, see_eq]
      · rfl
      · exact (Function.forall_update_iff a.phase fun _ q => ∀ k H, q = .finding k H → a.map k ∈ H).2
          ⟨by simp, fun u _ => h.seen u⟩
    have hreplay : Replay Does a [(t, .effect (.erase k))] (a.setPhase t (.wrote (.erase k))) := by
      rw [← heffect]
      exact .single (.effect a t _ hshown)
    refine ⟨a.setPhase t .idle, ?_, h.goOn hi (hown ht rfl) (by simp) rfl⟩
    have hwrote := hreplay.concat (.wrote _ t _ (Function.update_self ..))
    have hidle : (a.setPhase t (.wrote (.erase k))).setPhase t .idle = a.setPhase t .idle := by
      rw [Atomic.setPhase, setPhase_phase, Function.update_idem]
      rfl
    rwa [hidle] at hwrote
  | lock w b x st ht hm hl hst => exact h.lock hi ht hm hl hst
  | store w b x st rest f ht hm hl => exact h.store hi ht hm hl
  | unlock w b x f ht hm hl => exact h.unlock hi ht hm hl
  | find k ht =>
    rw [ht] at hshown
    refine ⟨_, .single (.find a t k hshown), h.goOn hi (hown ht rfl) ?_ ⟨_, rfl⟩⟩
    rintro k' H ⟨⟩
    rfl
  | findSome k b ht hb =>
    rw [ht] at hshown
    obtain ⟨H, hph⟩ := hshown
    obtain ⟨x, hx⟩ := h.inv.installed _ b hb
    obtain ⟨V, W, hL, -⟩ := h.cells b x hx k
    refine ⟨a, .nil, h.silent hi (hown ht rfl) ⟨x, H, hx, hph, V, W, hL, a.map k, h.seen t k H hph, trivial⟩⟩
  | findNone k ht hn =>
    rw [ht] at hshown
    obtain ⟨H, hph⟩ := hshown
    refine ⟨a, .nil, h.silent hi (hown ht rfl) ⟨H, hph, ?_⟩⟩
    have hnone := h.unbound hn
    rw [← hnone]
    exact h.seen t k H hph
  | look k b x pos pos' ht hm hlook =>
    rw [ht] at hshown
    obtain ⟨y, H, hy, hph, hinv⟩ := hshown
    cases hm.symm.trans hy
    have hb : s.segments (Map.pickSegment c k) = some b := by
      refine h.inv.given t _ b ?_
      rw [ht]
      rfl
    have hbound : x.bound k ∈ H := by
      rw [← h.bound_eq hb hm]
      exact h.seen t k H hph
    refine ⟨a, .nil, h.silent hi (hown ht rfl) ⟨x, H, hm, hph, ?_⟩⟩
    have hstep : Find.Inv c k (x.at_ pos') (insert (x.bound k) H) := hinv.step hbound hlook.step
    rwa [Set.insert_eq_of_mem hbound] at hstep
  | found k b r ht =>
    rw [ht] at hshown
    obtain ⟨x, H, hx, hph, V, W, -, o, ho, hr⟩ := hshown
    obtain rfl : r = o := hr
    exact ⟨_, .single (.found a t k r H hph ho), h.goOn hi (hown ht rfl) (by simp) rfl⟩
  | missed k ht =>
    rw [ht] at hshown
    obtain ⟨H, hph, hn⟩ := hshown
    exact ⟨_, .single (.found a t k none H hph hn), h.goOn hi (hown ht rfl) (by simp) rfl⟩

omit [DecidableEq Tid] [DecidableEq A] [Inhabited Key] [Inhabited Value] in
theorem Shows.find_eq (h : Shows c s a) (k : Key) : (s.toMap cap).find c k = a.map k := by
  rw [h.map, contents, Map.find]
  cases hs : s.segments (Map.pickSegment c k) with
  | none => simp [State.toMap, hs]
  | some b =>
    obtain ⟨x, hx⟩ := h.inv.installed _ b hs
    obtain ⟨V, W, hL, -⟩ := h.cells b x hx k
    have hseg : (s.toMap cap).segments (Map.pickSegment c k) = some x.seg := by simp [State.toMap, hs, hx, Memory.seg?]
    have hfind := hL.holds.find_eq k
    rw [hseg, Option.bind_some, hx]
    exact hfind

/-- Whatever the threads do, the history is one of a map whose calls take effect at once, and at
any moment the segments hold this map. -/
theorem linearizable {s₀ : State Tid A Key Value} {es : List (Tid × Event Key Value)} (hcap : cap.toNat ≤ 2 ^ 63)
    (h₀ : Init s₀) (h : EventRun (EventStep c cap) s₀ es s) :
    ∃ a, Replay Does .start es a ∧ ∀ k, (s.toMap cap).find c k = a.map k := by
  obtain ⟨a, ha, hs⟩ := h.replay (fun s _ a => Shows c s a) (.init h₀) fun s s' es es' a hs hstep => by
    obtain ⟨t, es', hstep, rfl⟩ := hstep
    exact hs.step hcap hstep
  exact ⟨a, ha, hs.find_eq⟩

/-- A `find` that has passed the head of the bucket misses the key that is then inserted. -/
theorem linearizable_missed : ∃ (s : State Bool Bool Nat Nat) (es : List (Bool × Event Nat Nat))
    (a : Atomic Bool Nat Nat), EventRun (EventStep (oneShard Nat) 4) unused es s ∧
      es = [(false, .write (.insert 7 1)), (true, .find 7), (false, .effect (.insert 7 1)),
        (false, .wrote (.insert 7 1)), (true, .found 7 none)] ∧
      Replay Does .start es a ∧ ∀ k, (s.toMap 4).find (oneShard Nat) k = a.map k := by
  have r₀ : EventRun (EventStep (oneShard Nat) 4) unused [] unused := .start
  have r₁ := r₀.tail ⟨false, _, .call _ (.insert 7 1) rfl (by decide), rfl⟩
  have r₂ := r₁.tail ⟨false, _, .loadNone _ _ rfl rfl, rfl⟩
  have r₃ := r₂.tail ⟨false, _, .allocate _ _ false rfl rfl, rfl⟩
  have r₄ := r₃.tail ⟨false, _, .construct _ _ _ _ rfl rfl rfl, rfl⟩
  have r₅ := r₄.tail ⟨false, _, .exchange _ _ _ rfl rfl, rfl⟩
  have r₆ := r₅.tail ⟨true, _, .find _ 7 rfl, rfl⟩
  have r₇ := r₆.tail ⟨true, _, .findSome _ _ false rfl rfl, rfl⟩
  have r₈ := r₇.tail ⟨true, _, .look _ _ _ _ _ _ rfl rfl .loadList, rfl⟩
  have r₉ := r₈.tail ⟨true, _, .look _ _ _ _ _ _ rfl rfl (.loadHead _), rfl⟩
  have r₁₀ := r₉.tail ⟨false, _, .lock _ _ _ _ _ rfl rfl rfl rfl, rfl⟩
  have r₁₁ := r₁₀.tail ⟨false, _, .store _ _ _ _ _ _ _ rfl rfl rfl, rfl⟩
  have r₁₂ := r₁₁.tail ⟨false, _, .store _ _ _ _ _ _ _ rfl rfl rfl, rfl⟩
  have r₁₃ := r₁₂.tail ⟨false, _, .store _ _ _ _ _ _ _ rfl rfl rfl, rfl⟩
  have r₁₄ := r₁₃.tail ⟨false, _, .store _ _ _ _ _ _ _ rfl rfl rfl, rfl⟩
  have r₁₅ := r₁₄.tail ⟨false, _, .unlock _ _ _ _ _ rfl rfl rfl, rfl⟩
  have r₁₆ := r₁₅.tail ⟨true, _, .look _ _ _ _ _ _ rfl rfl .missing, rfl⟩
  have r₁₇ := r₁₆.tail ⟨true, _, .found _ _ _ none rfl, rfl⟩
  obtain ⟨a, ha⟩ := linearizable (by decide) unused_init r₁₇
  exact ⟨_, _, a, r₁₇, rfl, ha⟩

end Steps

end Wizard.HashMap.Shards
