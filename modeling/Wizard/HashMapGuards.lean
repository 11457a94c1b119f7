import Wizard.HashMapAlive
import Wizard.HashMapFind

/-! Readers among the writers and the reclamation. A reader runs `find`: it
publishes each pointer in a record of its own and reads the source again before
it follows the pointer. The destructor of an object does not start while a
record holds it that was checked when the object was not retired. -/

namespace Wizard.HashMap

open SegmentT

variable {Key Value : Type}

section Lists

variable {c : Config Key} {s : SegmentT Key Value} {st : Store Key Value} {q q' : List (Store Key Value)}
  {V W : Set Nat} {f : Key → Option Value}

/-- Stores that publish bucket lists only after they are made, when there are
`L` before, and make none without buckets. -/
def Stocked : Nat → List (Store Key Value) → Prop
  | _, [] => True
  | L, .newList bl :: q => 0 < bl.bucketCount.toNat ∧ Stocked (L + 1) q
  | L, .publish l :: q => l < L ∧ Stocked L q
  | L, _ :: q => Stocked L q

theorem Stocked.tail (h : Stocked s.listCount (st :: q)) : Stocked (s.apply st).listCount q := by
  cases st with
  | newList bl => exact h.2
  | publish l => exact h.2
  | write loc p =>
    have hh : Stocked s.listCount q := h
    rwa [SegmentT.apply, listCount_write]
  | _ => exact h

theorem Stocked.append_of_plain {L : Nat} (hq : ∀ st ∈ q, (∀ bl, st ≠ .newList bl) ∧ ∀ l, st ≠ .publish l)
    (h : Stocked L q') : Stocked L (q ++ q') := by
  induction q with
  | nil => exact h
  | cons st q ih =>
    rw [List.forall_mem_cons] at hq
    have hh := ih hq.2
    cases st with
    | newList bl => exact absurd rfl (hq.1.1 bl)
    | publish l => exact absurd rfl (hq.1.2 l)
    | _ => exact hh

/-- Every bucket list has a bucket, and the current one is made. -/
structure HasLists (s : SegmentT Key Value) (q : List (Store Key Value)) : Prop where
  pos : ∀ l < s.listCount, 0 < (s.list l).bucketCount.toNat
  current : s.bucketList < s.listCount
  stocked : Stocked s.listCount q

theorem HasLists.store (h : HasLists s (st :: q)) : HasLists (s.apply st) q := by
  obtain ⟨hpos, hcur, hst⟩ := h
  refine ⟨fun l hl => ?_, ?_, hst.tail⟩
  · by_cases hlt : l < s.listCount
    · have hb := bucketCount_applyAll hlt [st]
      exact lt_of_lt_of_eq (hpos l hlt) (congrArg BitVec.toNat hb).symm
    · cases st with
      | newList bl =>
        have hl' : l < s.listCount + 1 := hl
        have he : l = s.listCount := by omega
        simpa [SegmentT.apply, he] using hst.1
      | write loc p =>
        rw [SegmentT.apply, listCount_write] at hl
        exact absurd hl hlt
      | _ => exact absurd hl hlt
  · cases st with
    | publish l => exact hst.1
    | newList bl => exact Nat.lt_succ_of_lt hcur
    | write loc p =>
      rw [SegmentT.apply, listCount_write, bucketList_write]
      exact hcur
    | _ => exact hcur

theorem HasLists.alike {s' : SegmentT Key Value} (h : HasLists s q) (ha : Alike s s') : HasLists s' q := by
  obtain ⟨hpos, hcur, hst⟩ := h
  refine ⟨?_, ?_, ?_⟩
  · rw [ha.list, ha.listCount]
    exact hpos
  · rwa [ha.bucketList, ha.listCount]
  · rwa [ha.listCount]

theorem stocked_of_plain {L : Nat} (hq : ∀ st ∈ q, (∀ bl, st ≠ .newList bl) ∧ ∀ l, st ≠ .publish l) :
    Stocked L q := by
  have hh : Stocked L (q ++ []) := Stocked.append_of_plain hq trivial
  rwa [List.append_nil] at hh

theorem growStores_stocked {grow : List (Store Key Value)} (h : Holds c s V W f)
    (hg : growStores c s = some grow) (hq : ∀ L, Stocked L q) : Stocked s.listCount (grow ++ q) := by
  rw [growStores] at hg
  split at hg
  · obtain ⟨bl, hcount, -, rfl⟩ := rehashStores_eq hg
    have hpos := h.bucketCount_shift_pos
    rw [← hcount] at hpos
    have hcopy : ∀ st ∈ copyStores c s.listCount (s.applyAll [.setThreshold (c.threshold bl.bucketCount),
        .newList bl]) s.sources, (∀ bl, st ≠ .newList bl) ∧ ∀ l, st ≠ .publish l := by
      intro st hst
      obtain ⟨k, value, rfl⟩ | ⟨loc, p, rfl⟩ := copyStores_shape _ _ hst <;> simp
    rw [fillStores, List.append_assoc, List.append_assoc]
    have hend : Stocked (s.listCount + 1) ([.publish s.listCount, .retire s.bucketList] ++ q) :=
      ⟨Nat.lt_succ_self _, hq _⟩
    have hrest := Stocked.append_of_plain hcopy hend
    exact ⟨hpos, hrest⟩
  · cases hg
    exact hq _

variable [DecidableEq Key]

theorem linkStores_plain (s : SegmentT Key Value) (k : Key) (new : Nat) :
    ∀ st ∈ (linkStores c s k new).1, ∀ l, (∀ bl, st ≠ .newList bl) ∧ st ≠ .publish l ∧ st ≠ .retire l := by
  intro st hst l
  rw [linkStores] at hst
  split at hst
  · simp only [List.mem_append, mem_acquireStores, List.mem_cons, List.not_mem_nil, or_false] at hst
    obtain ⟨m, -, rfl⟩ | rfl | rfl := hst <;> simp
  · simp only [List.mem_cons, List.not_mem_nil, or_false] at hst
    obtain rfl | rfl | rfl := hst <;> simp

theorem eraseSection_plain (s : SegmentT Key Value) (k : Key) :
    ∀ st ∈ (eraseSection c s k).1, ∀ l, (∀ bl, st ≠ .newList bl) ∧ st ≠ .publish l ∧ st ≠ .retire l := by
  intro st hst l
  rw [eraseSection] at hst
  split at hst
  · cases hst
  · simp only [List.cons_append, List.mem_append, mem_acquireStores, List.mem_cons, List.not_mem_nil,
      or_false] at hst
    obtain rfl | ⟨m, -, rfl⟩ | rfl := hst <;> simp

theorem insertSection_stocked {k : Key} {value : Value} {sec : List (Store Key Value) × Option Nat}
    (h : Holds c s V W f) (hs : insertSection c s k value = some sec) : Stocked s.listCount sec.1 := by
  obtain ⟨grow, hg, rfl⟩ := Option.map_eq_some_iff.1 hs
  have h₁ : Holds c (s.apply (.newNode k value)) V W f := h.apply trivial
  have hlink := linkStores_plain (c := c) ((s.apply (.newNode k value)).applyAll grow) k s.nodeCount
  have hh := growStores_stocked h₁ hg fun L =>
    stocked_of_plain fun st hst => ⟨(hlink st hst 0).1, fun l => (hlink st hst l).2.1⟩
  exact hh

theorem eraseSection_stocked (L : Nat) (k : Key) : Stocked L (eraseSection c s k).1 := by
  have herase := eraseSection_plain (c := c) s k
  exact stocked_of_plain fun st hst => ⟨(herase st hst 0).1, fun l => (herase st hst l).2.1⟩

end Lists

namespace Guard

open Reclaim

/-- A record: the pointer it holds, and whether the pointer was read from its
source again while its object was not retired. -/
abbrev Record := Option (Obj × Bool)

inductive Pos (Key : Type) where
  | idle
  | start (k : Key)
  | listLoaded (k : Key) (l : Nat)
  | listPublished (k : Key) (l : Nat)
  | atList (k : Key) (l : Nat)
  | headLoaded (k : Key) (l : Nat) (p : Option Nat)
  | headPublished (k : Key) (l : Nat) (p : Option Nat)
  | atNode (k : Key) (p : Option Nat)
  | nextLoaded (k : Key) (n : Nat) (p : Option Nat)
  | nextPublished (k : Key) (n : Nat) (p : Option Nat)
  | found (n : Nat)

/-- A thread with an iterator, its holders `holder_bucket` and `holder_node`,
and the `holder_next` of `find`. -/
structure Reader (Key : Type) where
  pos : Pos Key
  bucket : Record
  node : Record
  next : Record

def publish (p : Option Nat) : Record := p.map fun n => (.node n, false)

/-- The record after the source was read again and held the same pointer. -/
def validate (s : SegmentT Key Value) (r : Record) : Record := r.map fun o => (o.1, decide (o.1 ∉ s.retired))

/-- The steps of `find`. A record whose check fails holds nothing that counts,
so setting it to null is part of the check. -/
inductive Read [DecidableEq Key] (c : Config Key) (s : SegmentT Key Value) : Reader Key → Reader Key → Prop
  | begin (r k) (hp : r.pos = .idle) : Read c s r { r with pos := .start k }
  | loadList (r k) (hp : r.pos = .start k) : Read c s r { r with pos := .listLoaded k s.bucketList }
  | publishList (r k l) (hp : r.pos = .listLoaded k l) :
      Read c s r { r with pos := .listPublished k l, bucket := some (.list l, false) }
  | retryList (r k l) (hp : r.pos = .listPublished k l) (hl : s.bucketList ≠ l) :
      Read c s r { r with pos := .listLoaded k s.bucketList, bucket := none }
  | keepList (r k l) (hp : r.pos = .listPublished k l) (hl : s.bucketList = l) :
      Read c s r { r with pos := .atList k l, bucket := validate s r.bucket }
  | loadHead (r k l) (hp : r.pos = .atList k l) :
      Read c s r { r with pos := .headLoaded k l (s.read (headOf c s l k)) }
  | publishHead (r k l p) (hp : r.pos = .headLoaded k l p) :
      Read c s r { r with pos := .headPublished k l p, node := publish p }
  | retryHead (r k l p) (hp : r.pos = .headPublished k l p) (hl : s.read (headOf c s l k) ≠ p) :
      Read c s r { r with pos := .headLoaded k l (s.read (headOf c s l k)), node := none }
  | keepHead (r k l p) (hp : r.pos = .headPublished k l p) (hl : s.read (headOf c s l k) = p) :
      Read c s r { r with pos := .atNode k p, node := validate s r.node }
  | loadNext (r k n) (hp : r.pos = .atNode k (some n)) (hk : s.key n ≠ k) :
      Read c s r { r with pos := .nextLoaded k n (s.next n) }
  | publishNext (r k n p) (hp : r.pos = .nextLoaded k n p) :
      Read c s r { r with pos := .nextPublished k n p, next := publish p }
  | retryNext (r k n p) (hp : r.pos = .nextPublished k n p) (hl : s.next n ≠ p) :
      Read c s r { r with pos := .nextLoaded k n (s.next n), next := none }
  | keepNext (r k n p) (hp : r.pos = .nextPublished k n p) (hl : s.next n = p) :
      Read c s r { r with pos := .atNode k p, node := validate s r.next, next := r.node }
  | found (r k n) (hp : r.pos = .atNode k (some n)) (hk : s.key n = k) :
      Read c s r { r with pos := .found n, next := none }
  | missing (r k) (hp : r.pos = .atNode k none) : Read c s r { r with pos := .idle, next := none }
  | drop (r n) (hp : r.pos = .found n) : Read c s r { r with pos := .idle, bucket := none, node := none }

/-- The object that a reader dereferences in its next step, or may reach
through the iterator that `find` has returned. -/
def Pos.uses : Pos Key → Option Obj
  | .atList _ l => some (.list l)
  | .headPublished _ l _ => some (.list l)
  | .atNode _ (some n) => some (.node n)
  | .nextPublished _ n _ => some (.node n)
  | .found n => some (.node n)
  | _ => none

structure State (Key Value : Type) where
  base : Reclaim.State Key Value
  reader : Nat → Reader Key

/-- A record of the reader protects the object. -/
def Reader.Guards (r : Reader Key) (o : Obj) : Prop :=
  r.bucket = some (o, true) ∨ r.node = some (o, true) ∨ r.next = some (o, true)

def Guarded (s : State Key Value) (o : Obj) : Prop := ∃ i, (s.reader i).Guards o

inductive Step [DecidableEq Key] (c : Config Key) : State Key Value → State Key Value → Prop
  | write (s b) (hm : Move c s.base b)
      (hg : ∀ o ∈ b.destroyed, o ∉ s.base.destroyed → ¬ Guarded s o) : Step c s { s with base := b }
  | read (s i r) (hr : Read c s.base.seg (s.reader i) r) :
      Step c s { s with reader := Function.update s.reader i r }

def Init [Inhabited Key] [Inhabited Value] (c : Config Key) (s : State Key Value) : Prop :=
  Reclaim.Init c s.base ∧ ∀ i, s.reader i = ⟨.idle, none, none, none⟩

/-- No node has `2 ^ 16` links. -/
def Bounded (s : State Key Value) : Prop := Reclaim.Bounded s.base

section Firm

variable {c : Config Key} {s s' : SegmentT Key Value} {r r' : Reader Key}

/-- What the records of a reader hold at each point of `find`. -/
def Firm (s : SegmentT Key Value) (r : Reader Key) : Prop :=
  match r.pos with
  | .listLoaded _ l => l < s.listCount
  | .listPublished _ l => r.bucket = some (.list l, false) ∧ l < s.listCount
  | .atList _ l => r.bucket = some (.list l, true) ∧ l < s.listCount
  | .headLoaded _ l _ => r.bucket = some (.list l, true) ∧ l < s.listCount
  | .headPublished _ l p => (r.bucket = some (.list l, true) ∧ l < s.listCount) ∧ r.node = publish p
  | .atNode _ (some n) => r.node = some (.node n, true) ∧ n < s.nodeCount
  | .nextLoaded _ n _ => r.node = some (.node n, true) ∧ n < s.nodeCount
  | .nextPublished _ n p => (r.node = some (.node n, true) ∧ n < s.nodeCount) ∧ r.next = publish p
  | .found n => r.node = some (.node n, true) ∧ n < s.nodeCount
  | _ => True

theorem Firm.mono (h : Firm s r) (hn : s.nodeCount ≤ s'.nodeCount) (hl : s.listCount ≤ s'.listCount) :
    Firm s' r := by
  revert h
  rw [Firm, Firm]
  split <;> intro h
  · exact h.trans_le hl
  · exact ⟨h.1, h.2.trans_le hl⟩
  · exact ⟨h.1, h.2.trans_le hl⟩
  · exact ⟨h.1, h.2.trans_le hl⟩
  · exact ⟨⟨h.1.1, h.1.2.trans_le hl⟩, h.2⟩
  · exact ⟨h.1, h.2.trans_le hn⟩
  · exact ⟨h.1, h.2.trans_le hn⟩
  · exact ⟨⟨h.1.1, h.1.2.trans_le hn⟩, h.2⟩
  · exact ⟨h.1, h.2.trans_le hn⟩
  · trivial

/-- The object in use is in a record that protects it. -/
theorem Firm.uses (h : Firm s r) {o : Obj} (ho : r.pos.uses = some o) : r.Guards o := by
  obtain ⟨pos, bucket, node, next⟩ := r
  cases pos with
  | atList k l =>
    cases ho
    exact .inl h.1
  | headPublished k l p =>
    cases ho
    exact .inl h.1.1
  | atNode k p =>
    cases p with
    | none => cases ho
    | some n =>
      cases ho
      exact .inr (.inl h.1)
  | nextPublished k n p =>
    cases ho
    exact .inr (.inl h.1.1)
  | found n =>
    cases ho
    exact .inr (.inl h.1)
  | _ => cases ho

theorem validate_publish {n : Nat} (hn : .node n ∉ s.retired) :
    validate s (publish (some n)) = some (.node n, true) := by
  simp [validate, publish, hn]

theorem publish_ne (p : Option Nat) (o : Obj) : publish p ≠ some (o, true) := by
  cases p <;> simp [publish]

variable {b : Reclaim.State Key Value}

/-- A checked pointer that was read from a live object is protected. -/
theorem firm_of_read (h : Live c b) {k : Key} {p : Option Nat} (loc : Loc) (ha : Allocated b.seg loc)
    (hd : loc.owner ∉ b.destroyed) (hr : b.seg.read loc = p) {rec rec' : Record} :
    Firm b.seg ⟨.atNode k p, rec, validate b.seg (publish p), rec'⟩ ∧
      ∀ o, validate b.seg (publish p) = some (o, true) → o ∉ b.destroyed := by
  obtain ⟨v, hv⟩ := h.sane
  cases p with
  | none => exact ⟨trivial, fun o ho => by cases ho⟩
  | some n =>
    obtain ⟨hret, hdes⟩ := h.linked ha hd hr
    rw [validate_publish hret]
    refine ⟨⟨rfl, hv.closed loc n ha hr⟩, fun o ho => ?_⟩
    cases ho
    exact hdes

variable [DecidableEq Key]

theorem Firm.read (h : Firm b.seg r) (hl : Live c b) (hL : HasLists b.seg b.stores)
    (hg : ∀ o, r.Guards o → o ∉ b.destroyed) (hr : Read c b.seg r r') :
    Firm b.seg r' ∧ ∀ o, r'.Guards o → o ∉ b.destroyed := by
  obtain ⟨v, hv⟩ := hl.sane
  have hhead : ∀ k l, l < b.seg.listCount → Allocated b.seg (headOf c b.seg l k) :=
    fun k l hlt => ⟨hlt, bucketId_lt c (hL.pos l hlt) k⟩
  obtain ⟨pos, bucket, node, next⟩ := r
  cases hr with
  | begin k hp => exact ⟨trivial, hg⟩
  | loadList k hp => exact ⟨hL.current, hg⟩
  | publishList k l hp =>
    obtain rfl : pos = .listLoaded k l := hp
    refine ⟨⟨rfl, h⟩, fun o ho => ?_⟩
    obtain ho | ho := ho
    · cases ho
    · exact hg o (.inr ho)
  | retryList k l hp hne =>
    refine ⟨hL.current, fun o ho => ?_⟩
    obtain ho | ho := ho
    · cases ho
    · exact hg o (.inr ho)
  | keepList k l hp he =>
    obtain rfl : pos = .listPublished k l := hp
    obtain ⟨hb, hlt⟩ := h
    obtain rfl : bucket = some (.list l, false) := hb
    have hret : .list l ∉ b.seg.retired := fun hr => (hv.list l (.inl hr)).2.1 he.symm
    have hval : validate b.seg (some (.list l, false)) = some (.list l, true) := by simp [validate, hret]
    refine ⟨⟨hval, hlt⟩, fun o ho => ?_⟩
    obtain ho | ho := ho
    · cases hval.symm.trans ho
      exact fun hd => hret (hv.destroyed _ hd)
    · exact hg o (.inr ho)
  | loadHead k l hp =>
    obtain rfl : pos = .atList k l := hp
    exact ⟨h, hg⟩
  | publishHead k l p hp =>
    obtain rfl : pos = .headLoaded k l p := hp
    refine ⟨⟨h, rfl⟩, fun o ho => ?_⟩
    obtain ho | ho | ho := ho
    · exact hg o (.inl ho)
    · exact absurd ho (publish_ne p o)
    · exact hg o (.inr (.inr ho))
  | retryHead k l p hp hne =>
    obtain rfl : pos = .headPublished k l p := hp
    refine ⟨h.1, fun o ho => ?_⟩
    obtain ho | ho | ho := ho
    · exact hg o (.inl ho)
    · cases ho
    · exact hg o (.inr (.inr ho))
  | keepHead k l p hp he =>
    obtain rfl : pos = .headPublished k l p := hp
    obtain ⟨⟨hb, hlt⟩, hn⟩ := h
    obtain rfl : node = publish p := hn
    have hd : .list l ∉ b.destroyed := hg _ (.inl hb)
    obtain ⟨hf, hv'⟩ := firm_of_read hl (k := k) _ (hhead k l hlt) hd he
    refine ⟨hf, fun o ho => ?_⟩
    obtain ho | ho | ho := ho
    · exact hg o (.inl ho)
    · exact hv' o ho
    · exact hg o (.inr (.inr ho))
  | loadNext k n hp hk =>
    obtain rfl : pos = .atNode k (some n) := hp
    exact ⟨h, hg⟩
  | publishNext k n p hp =>
    obtain rfl : pos = .nextLoaded k n p := hp
    refine ⟨⟨h, rfl⟩, fun o ho => ?_⟩
    obtain ho | ho | ho := ho
    · exact hg o (.inl ho)
    · exact hg o (.inr (.inl ho))
    · exact absurd ho (publish_ne p o)
  | retryNext k n p hp hne =>
    obtain rfl : pos = .nextPublished k n p := hp
    refine ⟨h.1, fun o ho => ?_⟩
    obtain ho | ho | ho := ho
    · exact hg o (.inl ho)
    · exact hg o (.inr (.inl ho))
    · cases ho
  | keepNext k n p hp he =>
    obtain rfl : pos = .nextPublished k n p := hp
    obtain ⟨⟨hb, hlt⟩, hn⟩ := h
    obtain rfl : next = publish p := hn
    have hd : .node n ∉ b.destroyed := hg _ (.inr (.inl hb))
    obtain ⟨hf, hv'⟩ := firm_of_read hl (k := k) (.next n) hlt hd he
    refine ⟨hf, fun o ho => ?_⟩
    obtain ho | ho | ho := ho
    · exact hg o (.inl ho)
    · exact hv' o ho
    · exact hg o (.inr (.inl ho))
  | found k n hp hk =>
    obtain rfl : pos = .atNode k (some n) := hp
    refine ⟨h, fun o ho => ?_⟩
    obtain ho | ho | ho := ho
    · exact hg o (.inl ho)
    · exact hg o (.inr (.inl ho))
    · cases ho
  | missing k hp =>
    refine ⟨trivial, fun o ho => ?_⟩
    obtain ho | ho | ho := ho
    · exact hg o (.inl ho)
    · exact hg o (.inr (.inl ho))
    · cases ho
  | drop n hp =>
    refine ⟨trivial, fun o ho => ?_⟩
    obtain ho | ho | ho := ho
    · cases ho
    · cases ho
    · exact hg o (.inr (.inr ho))

end Firm

section Runs

variable [DecidableEq Key] {c : Config Key} {s : State Key Value}

theorem hasLists_step {b b' : Reclaim.State Key Value} {v : Option Nat} (h : HasLists b.seg b.stores)
    (hv : Sane c b v) (hm : Move c b b') : HasLists b'.seg b'.stores := by
  obtain ⟨V, W, f, hh⟩ := hv.holds
  cases hm with
  | insert k value sec hl hs =>
    rw [(State.stores_none hl).2.2] at hh
    exact ⟨h.pos, h.current, insertSection_stocked hh hs⟩
  | erase k hl => exact ⟨h.pos, h.current, eraseSection_stocked _ k⟩
  | clear hl => exact ⟨h.pos, h.current, h.pos _ h.current, Nat.lt_succ_self _, trivial⟩
  | store st q d hl =>
    rw [(State.stores_some hl).1] at h
    exact h.store
  | unlock d hl => exact ⟨h.pos, h.current, trivial⟩
  | release n ht => exact h.alike (alike_release n)
  | retire l ht => exact h.alike ⟨⟨rfl, rfl, rfl, rfl⟩, rfl, rfl, rfl⟩
  | destroyNode n hr hd => exact h
  | destroyList l hr hd => exact h

theorem counts_le_step {b b' : Reclaim.State Key Value} (hm : Move c b b') :
    b.seg.nodeCount ≤ b'.seg.nodeCount ∧ b.seg.listCount ≤ b'.seg.listCount := by
  cases hm with
  | store st q d hl => exact ⟨nodeCount_le_apply, listCount_le_apply⟩
  | _ => exact ⟨le_rfl, le_rfl⟩

/-- What holds while no node has `2 ^ 16` links. -/
structure Inv (c : Config Key) (s : State Key Value) : Prop where
  live : Live c s.base
  lists : HasLists s.base.seg s.base.stores
  firm : ∀ i, Firm s.base.seg (s.reader i)
  guarded : ∀ o, Guarded s o → o ∉ s.base.destroyed

theorem Inv.step {t : State Key Value} (h : Inv c s) (hs : Step c s t) (hb : Bounded t) : Inv c t := by
  cases hs with
  | write b hm hg =>
    obtain ⟨v, hv⟩ := h.live.sane
    obtain ⟨hn, hl⟩ := counts_le_step hm
    refine ⟨h.live.step hm hb, hasLists_step h.lists hv hm, fun i => (h.firm i).mono hn hl, fun o ho hd => ?_⟩
    by_cases hold : o ∈ s.base.destroyed
    · exact h.guarded o ho hold
    · exact hg o hd hold ho
  | read i r hr =>
    obtain ⟨hf, hgr⟩ := (h.firm i).read h.live h.lists (fun o ho => h.guarded o ⟨i, ho⟩) hr
    refine ⟨h.live, h.lists, fun j => ?_, fun o ho => ?_⟩
    · by_cases hj : j = i
      · subst hj
        simpa using hf
      · simpa [hj] using h.firm j
    · obtain ⟨j, hj⟩ := ho
      by_cases hji : j = i
      · subst hji
        exact hgr o (by simpa using hj)
      · exact h.guarded o ⟨j, by simpa [hji] using hj⟩

variable [Inhabited Key] [Inhabited Value]

omit [DecidableEq Key] in
theorem Init.inv (h : Init c s) : Inv c s := by
  obtain ⟨hb, hr⟩ := h
  refine ⟨hb.live, ?_, fun i => by rw [hr i]; trivial, ?_⟩
  · obtain ⟨⟨count, hcount, hs⟩, hl, -, -⟩ := hb
    obtain ⟨V, W, hh⟩ := (Represents.make hcount hs).holds
    obtain ⟨ch, hc⟩ := hh.chains
    have hpos := hc.pos
    obtain ⟨bl, -, hseg⟩ := Option.map_eq_some_iff.1 hs
    rw [← hseg] at hpos
    refine ⟨fun l _ => ?_, ?_, ?_⟩
    · rw [← hseg]
      exact hpos
    · rw [← hseg]
      exact Nat.one_pos
    · rw [(State.stores_none hl).1]
      trivial
  · rintro o ⟨i, ho⟩
    rw [hr i] at ho
    obtain ho | ho | ho := ho <;> cases ho

/-- As long as no node has `2 ^ 16` links, no reader dereferences a destroyed
object, and the iterator of a successful `find` refers to a live node. -/
theorem find_never_touches_destroyed (h : Reachable (Init c) (Within (Step c) Bounded) s) (i : Nat) (o : Obj)
    (ho : (s.reader i).pos.uses = some o) : o ∉ s.base.destroyed := by
  have hi : Inv c s := by
    apply h.invariant
    · exact fun s hs => Init.inv hs
    · exact fun s t _ hi hst => hi.step hst.1 hst.2
  exact hi.guarded o ⟨i, (hi.firm i).uses ho⟩

end Runs

section Wrap

/-- The key 1 has been bound `m + 1` times in front of the node with the key 0,
and no node has been destroyed. -/
structure Stacked (m : Nat) (b : Reclaim.State Nat Nat) : Prop where
  lock : b.lock = none
  tasks : b.tasks = []
  destroyed : b.destroyed = []
  current : b.seg.bucketList = 0
  buckets : (b.seg.list 0).bucketCount = 4
  head : b.seg.read (.head 0 0) = some (m + 1)
  nodeCount : b.seg.nodeCount = m + 2
  small : b.seg.size < b.seg.threshold
  tail : b.seg.next 0 = none
  key : b.seg.key (m + 1) = 1
  next : ∀ i, 0 < i → i ≤ m + 1 → b.seg.next i = some 0
  front : (b.seg.node (m + 1)).refcount = 1
  count : (b.seg.node 0).refcount = BitVec.ofNat 16 (m + 1)
  retired : ∀ i, 0 < i → i ≤ m → .node i ∈ b.seg.retired

theorem headOf_oneShard {s : SegmentT Nat Nat} (hb : (s.list 0).bucketCount = 4) (k : Nat) :
    headOf (oneShard Nat) s 0 k = .head 0 0 := by
  rw [headOf, bucketId, hb]
  exact congrArg (Loc.head 0) (by decide : ((2 ^ 31 : BitVec 64) >>> 0 &&& 4 - 1).toNat = 0)

/-- A section that nothing interrupts, up to the `release` that follows it. -/
theorem reachable_insert {init : Reclaim.State Nat Nat → Prop} {c : Config Nat} {b : Reclaim.State Nat Nat}
    {q : List (Store Nat Nat)} {v : Option Nat} (k value : Nat) (h : Reachable init (Move c) b)
    (hl : b.lock = none) (ht : b.tasks = []) (hs : insertSection c b.seg k value = some (q, v)) :
    Reachable init (Move c) ⟨b.seg.perform (q, v), none, [], b.destroyed⟩ := by
  have hstores : ∀ (q : List (Store Nat Nat)) (seg : SegmentT Nat Nat) (d : List Task),
      Reachable init (Move c) ⟨seg, some (q, d), b.tasks, b.destroyed⟩ →
        Reachable init (Move c) ⟨seg.applyAll q, some ([], d), b.tasks, b.destroyed⟩ := by
    intro q
    induction q with
    | nil => exact fun seg d hr => hr
    | cons st q ih => exact fun seg d hr => ih _ d (hr.tail (.store _ st q d rfl))
  have hdone := (hstores q b.seg (releaseOf v) (h.tail (.insert b k value (q, v) hl hs))).tail
    (.unlock _ _ rfl)
  rw [ht, List.nil_append] at hdone
  cases v with
  | none => exact hdone
  | some n =>
    have hr := hdone.tail (.release _ n (by simp [releaseOf]))
    simpa [releaseOf, SegmentT.perform] using hr

theorem Stacked.insertSection_eq {m : Nat} {b : Reclaim.State Nat Nat} (h : Stacked m b) :
    insertSection (oneShard Nat) b.seg 1 0 =
      some ([.newNode 1 0, .acquire 0, .write (.next (m + 2)) (some 0), .write (.head 0 0) (some (m + 2))],
        some (m + 1)) := by
  set s₁ := b.seg.apply (.newNode 1 0) with hs₁
  have hgrow : growStores (oneShard Nat) s₁ = some [] := by
    rw [growStores, if_neg]
    exact Nat.not_le.2 h.small
  have hcur : s₁.bucketList = 0 := h.current
  have hhead : headOf (oneShard Nat) s₁ 0 1 = .head 0 0 := headOf_oneShard h.buckets 1
  have hcount : s₁.nodeCount = m + 3 := congrArg (· + 1) h.nodeCount
  have hne : m + 1 ≠ b.seg.nodeCount := by
    rw [h.nodeCount]
    omega
  have hkey : s₁.key (m + 1) = 1 := by
    simp only [hs₁, SegmentT.apply, SegmentT.key, Function.update_of_ne hne]
    exact h.key
  have hnext : s₁.next (m + 1) = some 0 := by
    simp only [hs₁, SegmentT.apply, SegmentT.next, Function.update_of_ne hne]
    exact h.next (m + 1) (by omega) le_rfl
  have hread : s₁.read (.head 0 0) = some (m + 1) := h.head
  have hsearch : s₁.search 1 (.head 0 0) (m + 3) = some (.head 0 0, m + 1) := by
    rw [SegmentT.search, hread]
    simp [hkey]
  have hlink : linkStores (oneShard Nat) s₁ 1 (m + 2) =
      ([.acquire 0, .write (.next (m + 2)) (some 0), .write (.head 0 0) (some (m + 2))], some (m + 1)) := by
    simp only [linkStores, hcur, hhead, hcount, hsearch, hnext]
    rfl
  simp only [insertSection, ← hs₁, hgrow, Option.map_some, h.nodeCount]
  change some (Store.newNode 1 0 :: (linkStores (oneShard Nat) s₁ 1 (m + 2)).1,
    (linkStores (oneShard Nat) s₁ 1 (m + 2)).2) = _
  rw [hlink]

theorem Stacked.insert {m : Nat} {b : Reclaim.State Nat Nat} (h : Stacked m b) :
    Stacked (m + 1) ⟨b.seg.perform ([.newNode 1 0, .acquire 0, .write (.next (m + 2)) (some 0),
      .write (.head 0 0) (some (m + 2))], some (m + 1)), none, [], b.destroyed⟩ := by
  obtain ⟨hlock, htasks, hdes, hcur, hbuckets, hhead, hcount, hsmall, htail, hkey, hnext, hfront, hc0, hret⟩ := h
  simp only [SegmentT.perform, applyAll, List.foldl, SegmentT.apply, SegmentT.write, SegmentT.release, hcount]
  constructor
  case lock => rfl
  case tasks => rfl
  case destroyed => exact hdes
  case current => exact hcur
  case buckets => simpa using hbuckets
  case head => simp [SegmentT.read]
  case nodeCount => rfl
  case small => exact hsmall
  case tail => simpa [SegmentT.next] using htail
  case key => simp [SegmentT.key]
  case next =>
    intro i hi hle
    by_cases h1 : i = m + 1
    · simpa [SegmentT.next, h1] using hnext (m + 1) (by omega) le_rfl
    · by_cases h2 : i = m + 2
      · simp [SegmentT.next, h2]
      · have h0 : i ≠ 0 := by omega
        simpa [SegmentT.next, h0, h1, h2] using hnext i hi (by omega)
  case front => simp
  case count =>
    simp [hc0, BitVec.ofNat_add]
  case retired =>
    intro i hi hle
    by_cases h1 : i = m + 1
    · simp [hfront, h1]
    · simpa [hfront, h1] using hret i hi (by omega)

theorem reachable_quiet {c : Config Nat} {s : State Nat Nat} {b : Reclaim.State Nat Nat}
    (h : Reachable (Init c) (Within (Step c) Bounded) s) (hq : Relation.ReflTransGen (Quiet c) s.base b) :
    Reachable (Init c) (Within (Step c) Bounded) { s with base := b } := by
  induction hq with
  | refl => exact h
  | tail _ hs ih => exact ih.tail ⟨.write _ _ hs.1 (fun o ho hno => absurd (hs.2.1 ▸ ho) hno), hs.2.2⟩

/-- A reader has reached the node with the key 0, which is then replaced and retired. -/
theorem find_never_touches_destroyed_replaced : ∃ s : State Nat Nat,
    Reachable (Init (oneShard Nat)) (Within (Step (oneShard Nat)) Bounded) s ∧
      (s.reader 0).pos.uses = some (.node 0) ∧ .node 0 ∈ s.base.seg.retired ∧ .node 0 ∉ s.base.destroyed := by
  have hb : Reclaim.Bounded inserted := bounded_of_few rfl rfl (by decide)
  have h₀ : Reachable (Init (oneShard Nat)) (Within (Step (oneShard Nat)) Bounded)
    ⟨fresh, fun _ => ⟨.idle, none, none, none⟩⟩ := .of_init ⟨init_fresh, fun _ => rfl⟩
  have h₁ := reachable_quiet h₀ quiet_inserted
  have r₁ := h₁.tail ⟨.read _ 0 _ (.begin _ 0 rfl), hb⟩
  have r₂ := r₁.tail ⟨.read _ 0 _ (.loadList _ 0 rfl), hb⟩
  have r₃ := r₂.tail ⟨.read _ 0 _ (.publishList _ 0 0 rfl), hb⟩
  have r₄ := r₃.tail ⟨.read _ 0 _ (.keepList _ 0 0 rfl rfl), hb⟩
  have r₅ := r₄.tail ⟨.read _ 0 _ (.loadHead _ 0 0 rfl), hb⟩
  have r₆ := r₅.tail ⟨.read _ 0 _ (.publishHead _ 0 0 (some 1) rfl), hb⟩
  have r₇ := r₆.tail ⟨.read _ 0 _ (.keepHead _ 0 0 (some 1) rfl rfl), hb⟩
  have r₈ := r₇.tail ⟨.read _ 0 _ (.loadNext _ 0 1 rfl (by decide)), hb⟩
  have r₉ := r₈.tail ⟨.read _ 0 _ (.publishNext _ 0 1 (some 0) rfl), hb⟩
  have r₁₀ := r₉.tail ⟨.read _ 0 _ (.keepNext _ 0 1 (some 0) rfl rfl), hb⟩
  have h₂ := reachable_quiet r₁₀ quiet_replaced
  exact ⟨_, h₂, rfl, by decide, find_never_touches_destroyed h₂ 0 _ rfl⟩

theorem reachable_stacked (m : Nat) :
    ∃ b : Reclaim.State Nat Nat,
      Reachable (Reclaim.Init (oneShard Nat)) (Move (oneShard Nat)) b ∧ Stacked m b := by
  induction m with
  | zero =>
    have h₀ : Reachable (Reclaim.Init (oneShard Nat)) (Move (oneShard Nat)) fresh := .of_init init_fresh
    have h₁ := reachable_insert (v := none) 0 0 h₀ rfl rfl rfl
    have h₂ := reachable_insert (v := none) 1 0 h₁ rfl rfl rfl
    refine ⟨_, h₂, ?_⟩
    constructor <;> try rfl
    · decide
    · intro i hi hle
      obtain rfl : i = 1 := by omega
      rfl
    · intro i hi hle
      omega
  | succ m ih =>
    obtain ⟨b, hr, hs⟩ := ih
    exact ⟨_, reachable_insert 1 0 hr hs.lock hs.tasks hs.insertSection_eq, hs.insert⟩

/-- After `2 ^ 16` replacements the count of the node behind is one again, and
the destructor of one of the replaced nodes retires it. -/
theorem reachable_destroyed : ∃ b : Reclaim.State Nat Nat,
    Reachable (Reclaim.Init (oneShard Nat)) (Move (oneShard Nat)) b ∧
    .node 0 ∈ b.destroyed ∧ b.seg.bucketList = 0 ∧ (b.seg.list 0).bucketCount = 4 ∧
    ∃ n, b.seg.read (.head 0 0) = some n ∧ b.seg.key n ≠ 0 ∧ b.seg.next n = some 0 := by
  obtain ⟨b, hr, hs⟩ := reachable_stacked (2 ^ 16)
  have hone : (b.seg.node 0).refcount = 1 := by
    rw [hs.count]
    decide
  have h₁ := hr.tail (.destroyNode b 1 (hs.retired 1 (by omega) (by omega)) (by simp [hs.destroyed]))
  rw [hs.next 1 (by omega) (by omega), hs.tasks, hs.destroyed] at h₁
  have h₂ := h₁.tail (.release _ 0 (by simp [releaseOf]))
  have h₃ := h₂.tail (.destroyNode _ 0 (by simp [SegmentT.release, hone]) (by simp))
  have ha : Alike b.seg (b.seg.release 0) := alike_release 0
  refine ⟨_, h₃, List.mem_cons_self, ha.bucketList.trans hs.current, ?_, 2 ^ 16 + 1, ?_, ?_, ?_⟩
  · rw [ha.list]
    exact hs.buckets
  · rw [ha.read]
    exact hs.head
  · rw [ha.key, hs.key]
    decide
  · rw [ha.next]
    exact hs.next _ (by omega) le_rfl

theorem reachable_idle {c : Config Nat} {b : Reclaim.State Nat Nat}
    (h : Reachable (Reclaim.Init c) (Move c) b) :
    Reachable (Init c) (Step c) ⟨b, fun _ => ⟨.idle, none, none, none⟩⟩ := by
  apply h.invariant
  · exact fun b hi => .of_init ⟨hi, fun _ => rfl⟩
  · intro b b' _ hb hm
    refine hb.tail (.write _ b' hm ?_)
    rintro o - - ⟨i, ho | ho | ho⟩ <;> cases ho

theorem reachable_reads {c : Config Nat} {s : State Nat Nat} {r : Reader Nat} (h : Reachable (Init c) (Step c) s)
    (hr : Relation.ReflTransGen (Read c s.base.seg) (s.reader 0) r) :
    ∃ t, Reachable (Init c) (Step c) t ∧ t.base = s.base ∧ t.reader 0 = r := by
  induction hr with
  | refl => exact ⟨s, h, rfl, rfl⟩
  | tail _ hs ih =>
    obtain ⟨t, ht, hb, rfl⟩ := ih
    rw [← hb] at hs
    exact ⟨_, ht.tail (.read t 0 _ hs), hb, by simp⟩

/-- `find(0)` reaches the node 0 after its destructor has started. -/
theorem find_touches_destroyed : ∃ s : State Nat Nat, Reachable (Init (oneShard Nat)) (Step (oneShard Nat)) s ∧
    (s.reader 0).pos.uses = some (.node 0) ∧ .node 0 ∈ s.base.destroyed := by
  obtain ⟨b, hr, hdes, hcur, hbuckets, n, hhead, hkey, hnext⟩ := reachable_destroyed
  have hh : headOf (oneShard Nat) b.seg 0 0 = .head 0 0 := headOf_oneShard hbuckets 0
  have hread : b.seg.read (headOf (oneShard Nat) b.seg 0 0) = some n := by rw [hh, hhead]
  have r₁ := Relation.ReflTransGen.single (Read.begin (c := oneShard Nat) (s := b.seg) ⟨.idle, none, none, none⟩ 0 rfl)
  have r₂ := r₁.tail (.loadList _ 0 rfl)
  rw [hcur] at r₂
  have r₃ := r₂.tail (.publishList _ 0 0 rfl)
  have r₄ := r₃.tail (.keepList _ 0 0 rfl hcur)
  have r₅ := r₄.tail (.loadHead _ 0 0 rfl)
  rw [hread] at r₅
  have r₆ := r₅.tail (.publishHead _ 0 0 (some n) rfl)
  have r₇ := r₆.tail (.keepHead _ 0 0 (some n) rfl hread)
  have r₈ := r₇.tail (.loadNext _ 0 n rfl hkey)
  rw [hnext] at r₈
  have r₉ := r₈.tail (.publishNext _ 0 n (some 0) rfl)
  have r₁₀ := r₉.tail (.keepNext _ 0 n (some 0) rfl hnext)
  obtain ⟨s, hs, hb, hpos⟩ := reachable_reads (reachable_idle hr) r₁₀
  refine ⟨s, hs, ?_, hb ▸ hdes⟩
  rw [hpos]
  rfl

end Wrap

end Guard

end Wizard.HashMap
