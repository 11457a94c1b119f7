import Wizard.HashMapShelves

/-! `reserve` beside `insert`, `emplace` and `erase`. A writer holds the mutex of
its segment from the step that loads the bucket list to the one that links or
unlinks a node; `reserve` never takes it. -/

namespace Wizard.HashMap

open SegmentT

variable {Key Value : Type}

/-- The list that `r` fills holds the bindings of the buckets copied, and the
list that it reads holds the others. -/
structure Filling (c : Config Key) (s : SegmentT Key Value) (content : Nat → Key → Option Value)
    (f : Key → Option Value) (r : Copy) : Prop where
  old : r.old < s.listCount
  new : r.new < s.listCount
  hidden : r.new ≠ s.bucketList
  distinct : r.new ≠ r.old
  done : ∀ k, bucketId c (s.list r.old).bucketCount k < r.b → content r.new k = f k
  ahead : ∀ k, r.b ≤ bucketId c (s.list r.old).bucketCount k → content r.new k = none ∧ content r.old k = f k

/-- Neither call fills a list that the other one uses. -/
def Copy.Apart (r r' : Copy) : Prop :=
  r.new ≠ r'.new ∧ r.new ≠ r'.old ∧ r'.new ≠ r.old

/-- The segment holds `f` while the calls `rs` of `rehash` are in their loops and
writers have loaded the lists `ls`. -/
structure Shared (c : Config Key) (s : SegmentT Key Value) (owner : Nat → Nat)
    (content : Nat → Key → Option Value) (f : Key → Option Value) (rs : List Copy) (ls : List Nat) : Prop where
  shelved : Shelved c s owner content
  current : s.bucketList < s.listCount
  holds : content s.bucketList = f
  filling : ∀ r ∈ rs, Filling c s content f r
  apart : rs.Pairwise Copy.Apart
  loaded : ∀ l ∈ ls, l < s.listCount ∧ ∀ r ∈ rs, l ≠ r.new

/-- A writer that has loaded the list `l` finds it current. Every call of
`rehash` that is in its loops copies `l`, and has yet to copy the bucket of `k`. -/
def Timely (c : Config Key) (s : SegmentT Key Value) (rs : List Copy) (l : Nat) (k : Key) : Prop :=
  l = s.bucketList ∧ ∀ r ∈ rs, r.old = l ∧ r.b ≤ bucketId c (s.list l).bucketCount k

theorem Copy.Apart.symm {r r' : Copy} (h : r.Apart r') : r'.Apart r :=
  ⟨h.1.symm, h.2.2, h.2.1⟩

namespace Shared

variable {c : Config Key} {s : SegmentT Key Value} {owner : Nat → Nat} {content : Nat → Key → Option Value}
  {f : Key → Option Value} {rs rs' : List Copy} {ls ls' : List Nat} {r : Copy}

theorem perm (h : Shared c s owner content f rs ls) (hp : rs.Perm rs') : Shared c s owner content f rs' ls where
  shelved := h.shelved
  current := h.current
  holds := h.holds
  filling r hr := h.filling r (hp.mem_iff.2 hr)
  apart := (hp.pairwise_iff (fun h => h.symm)).1 h.apart
  loaded l hl := ⟨(h.loaded l hl).1, fun r hr => (h.loaded l hl).2 r (hp.mem_iff.2 hr)⟩

theorem forget (h : Shared c s owner content f rs ls) (hs : ls' ⊆ ls) : Shared c s owner content f rs ls' :=
  ⟨h.shelved, h.current, h.holds, h.filling, h.apart, fun l hl => h.loaded l (hs hl)⟩

theorem load (h : Shared c s owner content f rs ls) : Shared c s owner content f rs (s.bucketList :: ls) :=
  ⟨h.shelved, h.current, h.holds, h.filling, h.apart,
    List.forall_mem_cons.2 ⟨⟨h.current, fun r hr => (h.filling r hr).hidden.symm⟩, h.loaded⟩⟩

theorem start {bl : BucketList} (h : Shared c s owner content f rs ls) (hpos : 0 < bl.bucketCount.toNat)
    (hbl : bl.head = fun _ => none) :
    Shared c (Copy.start c s bl) owner (Function.update content s.listCount fun _ => none) f
      (⟨s.bucketList, s.listCount, 0⟩ :: rs) ls := by
  have hlist : ∀ l < s.listCount, (Copy.start c s bl).list l = s.list l := by
    intro l hl
    simp [Copy.start, applyAll, SegmentT.apply, hl.ne]
  have hcount : (Copy.start c s bl).listCount = s.listCount + 1 := rfl
  have hb : (Copy.start c s bl).bucketList = s.bucketList := rfl
  have hcont : ∀ l < s.listCount, Function.update content s.listCount (fun _ => none) l = content l :=
    fun l hl => Function.update_of_ne hl.ne _ _
  have hcur := h.current
  constructor
  case shelved => exact h.shelved.start hpos hbl
  case current => omega
  case holds => rw [hb, hcont _ hcur, h.holds]
  case filling =>
    refine List.forall_mem_cons.2 ⟨⟨?_, ?_, ?_, ?_, ?_, ?_⟩, fun r hr => ?_⟩
    · exact hcur.trans (Nat.lt_succ_self _)
    · exact Nat.lt_succ_self _
    · exact hcur.ne'
    · exact hcur.ne'
    · exact fun k hk => absurd hk (Nat.not_lt_zero _)
    · exact fun k _ => ⟨by simp, by rw [hcont _ hcur, h.holds]⟩
    · have hr' := h.filling r hr
      refine ⟨hr'.old.trans (Nat.lt_succ_self _), hr'.new.trans (Nat.lt_succ_self _), hr'.hidden, hr'.distinct,
        fun k hk => ?_, fun k hk => ?_⟩
      · rw [hlist _ hr'.old] at hk
        rw [hcont _ hr'.new, hr'.done k hk]
      · rw [hlist _ hr'.old] at hk
        rw [hcont _ hr'.new, hcont _ hr'.old]
        exact hr'.ahead k hk
  case apart =>
    refine List.pairwise_cons.2 ⟨fun r hr => ?_, h.apart⟩
    have hr' := h.filling r hr
    exact ⟨hr'.new.ne', hr'.old.ne', hr'.hidden⟩
  case loaded =>
    intro l hl
    obtain ⟨hlt, hne⟩ := h.loaded l hl
    exact ⟨by omega, List.forall_mem_cons.2 ⟨hlt.ne, hne⟩⟩

theorem turn [DecidableEq Key] (h : Shared c s owner content f (r :: rs) ls) :
    ∃ owner' content', Shared c (r.turn c s) owner' content' f ({ r with b := r.b + 1 } :: rs) ls := by
  have hr := h.filling r List.mem_cons_self
  obtain ⟨happart, hrest⟩ := List.pairwise_cons.1 h.apart
  obtain ⟨owner', hsh⟩ := h.shelved.turn hr.old hr.new (fun k hk => (hr.ahead k hk.ge).1)
  obtain ⟨hcount, hb⟩ := listCount_copyStores (c := c) r.new s
    (walk s.next (s.read (.head r.old r.b)) s.nodeCount)
  have hbuckets : ∀ l < s.listCount, ((r.turn c s).list l).bucketCount = (s.list l).bucketCount :=
    fun l hl => bucketCount_applyAll hl _
  have hcont : ∀ l ≠ r.new, Function.update content r.new (fun k =>
      if bucketId c (s.list r.old).bucketCount k = r.b then content r.old k else content r.new k) l = content l :=
    fun l hl => Function.update_of_ne hl _ _
  have hcur : (r.turn c s).bucketList = s.bucketList := hb
  have hlists : (r.turn c s).listCount = s.listCount := hcount
  refine ⟨owner', _, hsh, ?_, ?_, ?_, ?_, ?_⟩
  · rw [hcur, hlists]
    exact h.current
  · rw [hcur, hcont _ hr.hidden.symm, h.holds]
  · refine List.forall_mem_cons.2 ⟨⟨?_, ?_, ?_, hr.distinct, fun k hk => ?_, fun k hk => ?_⟩, fun r' hr' => ?_⟩
    · rw [hlists]
      exact hr.old
    · rw [hlists]
      exact hr.new
    · rw [hcur]
      exact hr.hidden
    · rw [hbuckets _ hr.old] at hk
      rw [Function.update_self]
      split
      · rename_i he
        exact (hr.ahead k he.ge).2
      · exact hr.done k (by simp only at hk; omega)
    · rw [hbuckets _ hr.old] at hk
      simp only at hk
      rw [Function.update_self, if_neg (by omega), hcont _ hr.distinct.symm]
      exact hr.ahead k (by omega)
    · have hf := h.filling r' (List.mem_cons_of_mem _ hr')
      obtain ⟨hn, ho, -⟩ := happart r' hr'
      refine ⟨?_, ?_, ?_, hf.distinct, fun k hk => ?_, fun k hk => ?_⟩
      · rw [hlists]
        exact hf.old
      · rw [hlists]
        exact hf.new
      · rw [hcur]
        exact hf.hidden
      · rw [hbuckets _ hf.old] at hk
        rw [hcont _ hn.symm]
        exact hf.done k hk
      · rw [hbuckets _ hf.old] at hk
        rw [hcont _ hn.symm, hcont _ ho.symm]
        exact hf.ahead k hk
  · exact List.pairwise_cons.2 ⟨happart, hrest⟩
  · intro l hl
    rw [hlists]
    obtain ⟨hlt, hne⟩ := h.loaded l hl
    rw [List.forall_mem_cons] at hne ⊢
    exact ⟨hlt, hne⟩

theorem finish (h : Shared c s owner content f (r :: rs) ls)
    (hb : (s.list r.old).bucketCount.toNat ≤ r.b) : Shared c (Copy.finish s r) owner content f rs ls := by
  have hr := h.filling r List.mem_cons_self
  obtain ⟨happart, hrest⟩ := List.pairwise_cons.1 h.apart
  have hpos := h.shelved.bucketCount_pos hr.old
  refine ⟨h.shelved.finish r, hr.new, ?_, fun r' hr' => ?_, hrest, fun l hl => ?_⟩
  · funext k
    exact hr.done k ((bucketId_lt c hpos k).trans_le hb)
  · have hf := h.filling r' (List.mem_cons_of_mem _ hr')
    exact ⟨hf.old, hf.new, (happart r' hr').1.symm, hf.distinct, hf.done, hf.ahead⟩
  · exact ⟨(h.loaded l hl).1, fun r' hr' => (h.loaded l hl).2 r' (List.mem_cons_of_mem _ hr')⟩

theorem perform [DecidableEq Key] {l : Nat} {u : Update Key Value} (h : Shared c s owner content f rs ls)
    (hl : l ∈ ls) (hu : f u.key = u.value ∨ Timely c s rs l u.key) :
    ∃ owner' content', Shared c (s.perform (u.stores c s l)) owner' content'
      (Function.update f u.key u.value) rs ls := by
  obtain ⟨hlt, hne⟩ := h.loaded l hl
  obtain ⟨hb, hcount, hbuckets⟩ := perform_frame (c := c) s l u
  obtain ⟨owner', hsh⟩ := h.shelved.perform hlt u
  set t := s.perform (u.stores c s l)
  have hcont : ∀ l' ≠ l, Function.update content l (Function.update (content l) u.key u.value) l' = content l' :=
    fun l' hl' => Function.update_of_ne hl' _ _
  refine ⟨owner', _, hsh, ?_, ?_, fun r hr => ?_, h.apart, fun l' hl' => ?_⟩
  · rw [hb, hcount]
    exact h.current
  · rw [hb]
    by_cases he : s.bucketList = l
    · rw [he, Function.update_self, ← he, h.holds]
    · rw [hcont _ he, h.holds]
      have hf := hu.resolve_right (fun ht => he ht.1.symm)
      rw [← hf, Function.update_eq_self]
  · have hf := h.filling r hr
    have hnew := hcont _ (hne r hr).symm
    refine ⟨hcount ▸ hf.old, hcount ▸ hf.new, hb ▸ hf.hidden, hf.distinct, fun k hk => ?_, fun k hk => ?_⟩
    · rw [hbuckets _ hf.old] at hk
      rw [hnew, hf.done k hk]
      by_cases he : k = u.key
      · subst he
        obtain hu | ⟨-, ht⟩ := hu
        · rw [Function.update_self, hu]
        · obtain ⟨rfl, hle⟩ := ht r hr
          exact absurd hk hle.not_gt
      · rw [Function.update_of_ne he]
    · rw [hbuckets _ hf.old] at hk
      obtain ⟨hnone, hold⟩ := hf.ahead k hk
      refine ⟨by rw [hnew, hnone], ?_⟩
      by_cases ho : r.old = l
      · rw [ho, Function.update_self]
        by_cases he : k = u.key
        · rw [he, Function.update_self, Function.update_self]
        · rw [Function.update_of_ne he, Function.update_of_ne he, ← ho, hold]
      · rw [hcont _ ho, hold]
        have hf' := hu.resolve_right (fun ht => ho (ht.2 r hr).1)
        rw [← hf', Function.update_eq_self]
  · rw [hcount]
    exact h.loaded l' hl'

end Shared

namespace Overlap

/-- The holder of the mutex of a segment: `full` has found `size_` at the
threshold, `grown` is back from its `rehash`, `ready` has loaded a list. -/
inductive Writer (Key Value : Type) where
  | idle
  | full (k : Key) (v : Value)
  | growing (k : Key) (v : Value) (r : Copy)
  | grown (k : Key) (v : Value)
  | ready (u : Update Key Value) (l : Nat)

namespace Writer

def copies : Writer Key Value → List Copy
  | growing _ _ r => [r]
  | _ => []

def lists : Writer Key Value → List Nat
  | ready _ l => [l]
  | _ => []

def key : Writer Key Value → Option Key
  | idle => none
  | full k _ => some k
  | growing k _ _ => some k
  | grown k _ => some k
  | ready u _ => some u.key

end Writer

/-- A segment, the holder of its mutex, and `reserve` when it is in the loops of
`rehash` there. -/
structure Shard (Key Value : Type) where
  seg : SegmentT Key Value
  writer : Writer Key Value
  reserve : Option Copy

def Shard.copies (sh : Shard Key Value) : List Copy :=
  sh.writer.copies ++ sh.reserve.toList

section Steps

variable [DecidableEq Key]

/-- The steps of `insert_internal` and `erase` on segment `i`, with the update
that takes effect. -/
inductive WriterStep (c : Config Key) (i : Nat) :
    Shard Key Value → Option (Update Key Value) → Shard Key Value → Prop
  | lock (sh : Shard Key Value) (u : Update Key Value) (hw : sh.writer = .idle)
      (hi : Map.pickSegment c u.key = i)
      (hs : ∀ k v, u = .insert k v → sh.seg.size < sh.seg.threshold) :
      WriterStep c i sh none { sh with writer := .ready u sh.seg.bucketList }
  | full (sh : Shard Key Value) (k : Key) (v : Value) (hw : sh.writer = .idle)
      (hi : Map.pickSegment c k = i) (hs : sh.seg.threshold ≤ sh.seg.size) :
      WriterStep c i sh none { sh with writer := .full k v }
  | grow (sh : Shard Key Value) (k : Key) (v : Value) (bl : BucketList) (hw : sh.writer = .full k v)
      (hb : BucketList.make (sh.seg.bucketCount <<< 1) = some bl) :
      WriterStep c i sh none { sh with
        seg := Copy.start c sh.seg bl
        writer := .growing k v ⟨sh.seg.bucketList, sh.seg.listCount, 0⟩ }
  | turn (sh : Shard Key Value) (k : Key) (v : Value) (r : Copy) (hw : sh.writer = .growing k v r)
      (hb : r.b < (sh.seg.list r.old).bucketCount.toNat) :
      WriterStep c i sh none { sh with
        seg := r.turn c sh.seg
        writer := .growing k v { r with b := r.b + 1 } }
  | finish (sh : Shard Key Value) (k : Key) (v : Value) (r : Copy) (hw : sh.writer = .growing k v r)
      (hb : (sh.seg.list r.old).bucketCount.toNat ≤ r.b) :
      WriterStep c i sh none { sh with
        seg := Copy.finish sh.seg r
        writer := .grown k v }
  | reload (sh : Shard Key Value) (k : Key) (v : Value) (hw : sh.writer = .grown k v) :
      WriterStep c i sh none { sh with writer := .ready (.insert k v) sh.seg.bucketList }
  | link (sh : Shard Key Value) (u : Update Key Value) (l : Nat) (hw : sh.writer = .ready u l) :
      WriterStep c i sh (some u) { sh with
        seg := sh.seg.perform (u.stores c sh.seg l)
        writer := .idle }

/-- The steps of `rehash(count)` as `reserve` calls it. The flag tells the last one. -/
inductive ReserveStep (c : Config Key) (count : BitVec 64) :
    Shard Key Value → Bool → Shard Key Value → Prop
  | load (sh : Shard Key Value) (bl : BucketList) (hr : sh.reserve = none)
      (hb : BucketList.make count = some bl) :
      ReserveStep c count sh false { sh with
        seg := Copy.start c sh.seg bl
        reserve := some ⟨sh.seg.bucketList, sh.seg.listCount, 0⟩ }
  | turn (sh : Shard Key Value) (r : Copy) (hr : sh.reserve = some r)
      (hb : r.b < (sh.seg.list r.old).bucketCount.toNat) :
      ReserveStep c count sh false { sh with
        seg := r.turn c sh.seg
        reserve := some { r with b := r.b + 1 } }
  | finish (sh : Shard Key Value) (r : Copy) (hr : sh.reserve = some r)
      (hb : (sh.seg.list r.old).bucketCount.toNat ≤ r.b) :
      ReserveStep c count sh true { sh with
        seg := Copy.finish sh.seg r
        reserve := none }

end Steps

/-- `pos` is the segment where `reserve` is, with its `bucket_count`. `bound` is
what the updates so far have bound to each key. -/
structure State (Key Value : Type) where
  shards : Nat → Option (Shard Key Value)
  pos : Option (Nat × BitVec 64)
  bound : Key → Option Value

def State.set (s : State Key Value) (i : Nat) (sh : Shard Key Value) : State Key Value :=
  { s with shards := Function.update s.shards i (some sh) }

variable [DecidableEq Key]

def State.find (c : Config Key) (s : State Key Value) (k : Key) : Option Value :=
  match s.shards (Map.pickSegment c k) with
  | none => none
  | some sh => sh.seg.find c k

def note (bound : Key → Option Value) : Option (Update Key Value) → Key → Option Value
  | none => bound
  | some u => Function.update bound u.key u.value

variable [Inhabited Key] [Inhabited Value]

/-- A map with the initial capacity `cap`. -/
inductive Step (c : Config Key) (cap : BitVec 64) : State Key Value → State Key Value → Prop
  | create (s : State Key Value) (k : Key) (seg : SegmentT Key Value)
      (hn : s.shards (Map.pickSegment c k) = none)
      (hs : (Map.make cap : Map Key Value).ensureSegment c (Map.pickSegment c k) = some seg) :
      Step c cap s (s.set (Map.pickSegment c k) ⟨seg, .idle, none⟩)
  | write (s : State Key Value) (i : Nat) (sh : Shard Key Value) (o : Option (Update Key Value))
      (sh' : Shard Key Value) (hi : s.shards i = some sh) (hs : WriterStep c i sh o sh') :
      Step c cap s { s.set i sh' with bound := note s.bound o }
  | miss (s : State Key Value) (k : Key) (hn : s.shards (Map.pickSegment c k) = none) :
      Step c cap s { s with bound := Function.update s.bound k none }
  | reserve (s : State Key Value) (capacity : BitVec 64) (hp : s.pos = none)
      (hcap : Map.numShards c ≤ capacity.toNat) :
      Step c cap s { s with pos := some (0, capacity >>> c.shardBits.val) }
  | skip (s : State Key Value) (i : Nat) (count : BitVec 64) (hp : s.pos = some (i, count))
      (hi : i < Map.numShards c) (hn : s.shards i = none) :
      Step c cap s { s with pos := some (i + 1, count) }
  | rehash (s : State Key Value) (i : Nat) (count : BitVec 64) (sh : Shard Key Value) (last : Bool)
      (sh' : Shard Key Value) (hp : s.pos = some (i, count)) (hlt : i < Map.numShards c)
      (hi : s.shards i = some sh) (hs : ReserveStep c count sh last sh') :
      Step c cap s { s.set i sh' with pos := some (if last then i + 1 else i, count) }
  | leave (s : State Key Value) (count : BitVec 64) (hp : s.pos = some (Map.numShards c, count)) :
      Step c cap s { s with pos := none }

structure Init (s : State Key Value) : Prop where
  shards : ∀ i, s.shards i = none
  pos : s.pos = none
  bound : ∀ k, s.bound k = none

/-- Every call has returned. -/
structure Returned (s : State Key Value) : Prop where
  pos : s.pos = none
  writers : ∀ i sh, s.shards i = some sh → sh.writer = .idle

/-- A writer that links or unlinks a node does so in time, or it leaves the
binding as it is. -/
def TimelyStep (c : Config Key) (cap : BitVec 64) (s t : State Key Value) : Prop :=
  Step c cap s t ∧ ∀ i sh sh' u l, s.shards i = some sh → sh.writer = .ready u l → t.shards i = some sh' →
    sh'.writer = .idle → sh.seg.find c u.key = u.value ∨ Timely c sh.seg sh.copies l u.key

section Inv

variable {c : Config Key} {cap count : BitVec 64} {i : Nat} {sh sh' : Shard Key Value} {s t : State Key Value}
  {f : Key → Option Value} {o : Option (Update Key Value)}

/-- The segment `i` holds `f`. -/
structure Sound (c : Config Key) (i : Nat) (f : Key → Option Value) (sh : Shard Key Value) : Prop where
  shared : ∃ owner content, Shared c sh.seg owner content f sh.copies sh.writer.lists
  key : ∀ k, sh.writer.key = some k → Map.pickSegment c k = i

omit [Inhabited Key] [Inhabited Value] in
theorem Sound.find_eq (h : Sound c i f sh) (k : Key) : sh.seg.find c k = f k := by
  obtain ⟨owner, content, hh⟩ := h.shared
  rw [hh.shelved.find_eq hh.current, hh.holds]

omit [DecidableEq Key] [Inhabited Key] [Inhabited Value] in
theorem Sound.shift_pos (h : Sound c i f sh) : 0 < (sh.seg.bucketCount <<< 1).toNat := by
  obtain ⟨owner, content, hh⟩ := h.shared
  exact (hh.shelved.holds hh.current).bucketCount_shift_pos

omit [Inhabited Key] [Inhabited Value] in
theorem Sound.write (h : Sound c i f sh) (hs : WriterStep c i sh o sh')
    (ht : ∀ u l, sh.writer = .ready u l → sh'.writer = .idle →
      sh.seg.find c u.key = u.value ∨ Timely c sh.seg sh.copies l u.key) :
    Sound c i (note f o) sh' ∧ ∀ u, o = some u → Map.pickSegment c u.key = i := by
  obtain ⟨owner, content, hh⟩ := h.shared
  have hkey := h.key
  cases hs with
  | lock u hw hi hs =>
    refine ⟨⟨⟨owner, content, ?_⟩, fun k hk => ?_⟩, by simp⟩
    · have hload := hh.load
      rwa [Shard.copies, hw, show (Writer.idle : Writer Key Value).lists = [] from rfl] at hload
    · cases hk
      exact hi
  | full k v hw hi hs =>
    refine ⟨⟨⟨owner, content, ?_⟩, fun k' hk => ?_⟩, by simp⟩
    · rwa [Shard.copies, hw] at hh
    · cases hk
      exact hi
  | grow k v bl hw hb =>
    obtain ⟨hcount, hhead⟩ := make_eq hb
    have hpos : 0 < bl.bucketCount.toNat := hcount ▸ h.shift_pos
    rw [Shard.copies, hw] at hh
    refine ⟨⟨⟨_, _, hh.start hpos hhead⟩, fun k' hk => ?_⟩, by simp⟩
    cases hk
    exact hkey k (by rw [hw]; rfl)
  | turn k v r hw hb =>
    rw [Shard.copies, hw] at hh
    obtain ⟨owner', content', hh'⟩ := hh.turn
    refine ⟨⟨⟨owner', content', hh'⟩, fun k' hk => ?_⟩, by simp⟩
    cases hk
    exact hkey k (by rw [hw]; rfl)
  | finish k v r hw hb =>
    rw [Shard.copies, hw] at hh
    refine ⟨⟨⟨owner, content, hh.finish hb⟩, fun k' hk => ?_⟩, by simp⟩
    cases hk
    exact hkey k (by rw [hw]; rfl)
  | reload k v hw =>
    have hload := hh.load
    rw [Shard.copies, hw] at hload
    refine ⟨⟨⟨owner, content, hload⟩, fun k' hk => ?_⟩, by simp⟩
    cases hk
    exact hkey k (by rw [hw]; rfl)
  | link u l hw =>
    have hu := ht u l hw rfl
    rw [h.find_eq] at hu
    rw [hw] at hh
    obtain ⟨owner', content', hh'⟩ := hh.perform List.mem_cons_self hu
    rw [Shard.copies, hw] at hh'
    refine ⟨⟨⟨owner', content', hh'.forget (List.nil_subset _)⟩, fun k' hk => by cases hk⟩, fun u' hu' => ?_⟩
    cases hu'
    exact hkey u.key (by rw [hw]; rfl)

omit [Inhabited Key] [Inhabited Value] in
theorem Sound.reserve {last : Bool} (h : Sound c i f sh) (hs : ReserveStep c count sh last sh')
    (hpos : 0 < count.toNat) : Sound c i f sh' := by
  obtain ⟨owner, content, hh⟩ := h.shared
  cases hs with
  | load bl hr hb =>
    obtain ⟨rfl, hhead⟩ := make_eq hb
    have hstart := hh.start hpos hhead
    rw [Shard.copies, hr, Option.toList_none, List.append_nil] at hstart
    exact ⟨⟨_, _, hstart.perm (List.perm_append_singleton _ _).symm⟩, h.key⟩
  | turn r hr hb =>
    rw [Shard.copies, hr] at hh
    obtain ⟨owner', content', hh'⟩ := (hh.perm (List.perm_append_singleton _ _)).turn
    exact ⟨⟨owner', content', hh'.perm (List.perm_append_singleton _ _).symm⟩, h.key⟩
  | finish r hr hb =>
    rw [Shard.copies, hr] at hh
    have hfin := (hh.perm (List.perm_append_singleton _ _)).finish hb
    refine ⟨⟨owner, content, ?_⟩, h.key⟩
    rwa [Shard.copies, Option.toList_none, List.append_nil]

omit [DecidableEq Key] [Inhabited Key] [Inhabited Value] in
theorem Sound.congr {f' : Key → Option Value} (h : Sound c i f sh) (hf : ∀ k, f' k = f k) : Sound c i f' sh := by
  obtain rfl : f' = f := funext hf
  exact h

omit [DecidableEq Key] in
theorem Sound.make {seg : SegmentT Key Value} (hcap : cap.toNat ≤ 2 ^ 63) 
    (hs : (Map.make cap : Map Key Value).ensureSegment c i = some seg) :
    Sound c i (fun _ => none) ⟨seg, .idle, none⟩ := by
  obtain ⟨bl, hbl, rfl⟩ := Option.map_eq_some_iff.1 hs
  obtain ⟨hcount, hhead⟩ := make_eq hbl
  obtain ⟨j, hj, he⟩ := nextPowTwo_toNat hcap
  have hle : (nextPowTwo cap >>> c.shardBits.val).toNat ≤ 2 ^ 63 := by
    rw [BitVec.toNat_ushiftRight, he]
    exact (Nat.shiftRight_le _ _).trans (Nat.pow_le_pow_right (by omega) hj)
  obtain ⟨j', -, he'⟩ := nextPowTwo_toNat hle
  have hpos : 0 < bl.bucketCount.toNat := by
    rw [hcount]
    change 0 < (nextPowTwo (nextPowTwo cap >>> c.shardBits.val)).toNat
    rw [he']
    exact Nat.two_pow_pos j'
  refine ⟨⟨fun _ => 0, fun _ _ => none, fun l hl => ?_, Nat.one_pos, rfl, ?_, ?_, ?_⟩, fun k hk => by cases hk⟩
  · refine ⟨fun _ => [], hpos, fun b => ?_, ?_, ?_, ?_, ?_⟩
    · exact congrFun hhead b
    all_goals simp
  all_goals simp [Shard.copies, Writer.copies, Writer.lists]

/-- Every segment holds its share of what the updates have bound. -/
structure Inv (c : Config Key) (s : State Key Value) : Prop where
  shard : ∀ i sh, s.shards i = some sh →
    Sound c i (fun k => if Map.pickSegment c k = i then s.bound k else none) sh
  rest : ∀ k, s.shards (Map.pickSegment c k) = none → s.bound k = none
  count : ∀ i count, s.pos = some (i, count) → 0 < count.toNat

omit [Inhabited Key] [Inhabited Value] in
theorem Inv.find_eq (h : Inv c s) (k : Key) : s.find c k = s.bound k := by
  rw [State.find]
  split
  · rename_i hn
    exact (h.rest k hn).symm
  · rename_i sh hs
    rw [(h.shard _ sh hs).find_eq, if_pos rfl]

omit [DecidableEq Key] [Inhabited Key] [Inhabited Value] in
/-- A step in one segment that binds keys of that segment only. -/
theorem Inv.set {pos : Option (Nat × BitVec 64)} {bound : Key → Option Value} (h : Inv c s)
    (hsh : Sound c i (fun k => if Map.pickSegment c k = i then bound k else none) sh)
    (hb : ∀ k, Map.pickSegment c k ≠ i → bound k = s.bound k)
    (hp : ∀ j count, pos = some (j, count) → 0 < count.toNat) :
    Inv c { s.set i sh with pos := pos, bound := bound } := by
  refine ⟨fun j sh' hj => ?_, fun k hk => ?_, hp⟩
  · by_cases hij : j = i
    · subst hij
      obtain rfl : sh = sh' := by simpa [State.set] using hj
      exact hsh
    · have hj' : s.shards j = some sh' := by simpa [State.set, hij] using hj
      refine (h.shard j sh' hj').congr (fun k => ?_)
      by_cases hk : Map.pickSegment c k = j
      · rw [if_pos hk, if_pos hk]
        exact hb k (hk ▸ hij)
      · rw [if_neg hk, if_neg hk]
  · by_cases hij : Map.pickSegment c k = i
    · simp [State.set, hij] at hk
    · have hk' : s.shards (Map.pickSegment c k) = none := by simpa [State.set, hij] using hk
      exact (hb k hij).trans (h.rest k hk')

omit [DecidableEq Key] [Inhabited Key] [Inhabited Value] in
theorem Inv.move {pos : Option (Nat × BitVec 64)} (h : Inv c s)
    (hp : ∀ j count, pos = some (j, count) → 0 < count.toNat) : Inv c { s with pos := pos } :=
  ⟨h.shard, h.rest, hp⟩

omit [DecidableEq Key] [Inhabited Key] [Inhabited Value] in
theorem shiftRight_pos {capacity : BitVec 64} (h : Map.numShards c ≤ capacity.toNat) :
    0 < (capacity >>> c.shardBits.val).toNat := by
  rw [BitVec.toNat_ushiftRight, Nat.shiftRight_eq_div_pow]
  exact Nat.div_pos h (Nat.two_pow_pos _)

theorem Inv.step (hcap : cap.toNat ≤ 2 ^ 63) (h : Inv c s) (hs : TimelyStep c cap s t) : Inv c t := by
  obtain ⟨hst, ht⟩ := hs
  cases hst with
  | create k seg hn hs =>
    refine h.set (Sound.congr (Sound.make hcap hs) (fun k' => ?_)) (fun _ _ => rfl) h.count
    split
    · rename_i hk
      exact h.rest k' (hk ▸ hn)
    · rfl
  | write i sh o sh' hi hs =>
    obtain ⟨hsound, hkey⟩ := (h.shard i sh hi).write hs (fun u l hw hw' =>
        ht i sh sh' u l hi hw (by simp [State.set]) hw')
    refine h.set (hsound.congr (fun k => ?_)) (fun k hk => ?_) h.count
    · cases o with
      | none => rfl
      | some u =>
        by_cases hk : k = u.key
        · subst hk
          simp [note, hkey u rfl]
        · simp [note, hk]
    · cases o with
      | none => rfl
      | some u =>
        refine Function.update_of_ne ?_ _ _
        rintro rfl
        exact hk (hkey u rfl)
  | miss k hn =>
    have hb : Function.update s.bound k none = s.bound := by
      rw [← h.rest k hn, Function.update_eq_self]
    rw [hb]
    exact h
  | reserve capacity hp hle =>
    refine h.move (fun j count hj => ?_)
    cases hj
    exact shiftRight_pos hle
  | skip i count hp hi hn =>
    refine h.move (fun j count' hj => ?_)
    cases hj
    exact h.count i count hp
  | rehash i count sh last sh' hp hlt hi hs =>
    refine h.set ((h.shard i sh hi).reserve hs (h.count i count hp)) (fun _ _ => rfl) (fun j count' hj => ?_)
    cases hj
    exact h.count i count hp
  | leave count hp => exact h.move (fun j count' hj => by cases hj)

/-- When every writer is in time, every key is found with its last value. -/
theorem updates_kept (hcap : cap.toNat ≤ 2 ^ 63) (h : Reachable (Init : State Key Value → Prop) (TimelyStep c cap) s)
    (k : Key) : s.find c k = s.bound k := by
  refine Inv.find_eq ?_ k
  refine h.invariant (fun s hi => ?_) (fun s t _ hinv hst => hinv.step hcap hst)
  refine ⟨fun i sh hs => ?_, fun k _ => hi.bound k, fun i count hp => ?_⟩
  · rw [hi.shards i] at hs
    cases hs
  · rw [hi.pos] at hp
    cases hp

def fresh : State Nat Nat where
  shards _ := none
  pos := none
  bound _ := none

theorem init_fresh : Init fresh := ⟨fun _ => rfl, rfl, fun _ => rfl⟩

/-- A run in which only the first segment is used. -/
structure Solo (s : State Nat Nat) : Prop where
  run : Reachable Init (TimelyStep (oneShard Nat) 1) s
  only : ∀ i, i ≠ 0 → s.shards i = none

theorem Solo.tail {s t : State Nat Nat} (h : Solo s) (hs : Step (oneShard Nat) 1 s t)
    (ht : ∀ i, i ≠ 0 → t.shards i = s.shards i)
    (hw : ∀ sh u l, s.shards 0 = some sh → sh.writer = .ready u l → Timely (oneShard Nat) sh.seg sh.copies l u.key) :
    Solo t := by
  refine ⟨h.run.tail ⟨hs, fun i sh sh' u l hi hr _ _ => .inr ?_⟩, fun i hi => (ht i hi).trans (h.only i hi)⟩
  by_cases h0 : i = 0
  · subst h0
    exact hw sh u l hi hr
  · cases (h.only i h0).symm.trans hi

/-- `reserve` has loaded the list when the key is inserted there, and copies its bucket afterwards. -/
theorem exists_in_time : ∃ s : State Nat Nat, Reachable Init (TimelyStep (oneShard Nat) 1) s ∧ Returned s ∧
    s.bound 0 = some 7 := by
  have h₀ : Solo fresh := ⟨.of_init init_fresh, fun _ _ => rfl⟩
  have h₁ := h₀.tail (.create _ 0 _ rfl rfl)
    (fun i (hi : i ≠ Map.pickSegment (oneShard Nat) 0) => Function.update_of_ne hi _ _) (by rintro sh u l ⟨⟩)
  have h₂ := h₁.tail (.reserve _ 1 rfl (by decide)) (fun _ _ => rfl) (by rintro sh u l ⟨⟩ ⟨⟩)
  have h₃ := h₂.tail (.rehash _ 0 1 _ false _ rfl (by decide) rfl (.load _ _ rfl rfl))
    (fun i hi => Function.update_of_ne hi _ _) (by rintro sh u l ⟨⟩ ⟨⟩)
  have h₄ := h₃.tail (.write _ 0 _ none _ rfl (.lock _ (.insert 0 7) rfl rfl (fun _ _ _ => by decide)))
    (fun i hi => Function.update_of_ne hi _ _) (by rintro sh u l ⟨⟩ ⟨⟩)
  have h₅ := h₄.tail (.write _ 0 _ _ _ rfl (.link _ (.insert 0 7) 0 rfl))
    (fun i hi => Function.update_of_ne hi _ _) (by
      rintro sh u l ⟨⟩ ⟨⟩
      exact ⟨rfl, by decide⟩)
  have h₆ := h₅.tail (.rehash _ 0 1 _ false _ rfl (by decide) rfl (.turn _ _ rfl (by decide)))
    (fun i hi => Function.update_of_ne hi _ _) (by rintro sh u l ⟨⟩ ⟨⟩)
  have h₇ := h₆.tail (.rehash _ 0 1 _ true _ rfl (by decide) rfl (.finish _ _ rfl (by decide)))
    (fun i hi => Function.update_of_ne hi _ _) (by rintro sh u l ⟨⟩ ⟨⟩)
  have h₈ := h₇.tail (.leave _ 1 rfl) (fun _ _ => rfl) (by rintro sh u l ⟨⟩ ⟨⟩)
  refine ⟨_, h₈.run, ⟨rfl, fun i sh hi => ?_⟩, rfl⟩
  by_cases h0 : i = 0
  · subst h0
    cases hi
    rfl
  · cases (h₈.only i h0).symm.trans hi

theorem updates_kept_inserted : ((1 : BitVec 64).toNat ≤ 2 ^ 63) ∧ ∃ s : State Nat Nat,
    Reachable Init (TimelyStep (oneShard Nat) 1) s ∧ Returned s ∧ s.find (oneShard Nat) 0 = some 7 := by
  obtain ⟨s, hs, hret, hbound⟩ := exists_in_time
  exact ⟨by decide, s, hs, hret, (updates_kept (by decide) hs 0).trans hbound⟩

/-- `reserve` has copied the one bucket when the key is inserted there. -/
theorem updates_lost : ∃ s : State Nat Nat, Reachable Init (Step (oneShard Nat) 1) s ∧ Returned s ∧
    s.bound 0 = some 7 ∧ s.find (oneShard Nat) 0 = none := by
  have h₀ : Reachable Init (Step (oneShard Nat) 1) fresh := .of_init init_fresh
  have h₁ := h₀.tail (.create _ 0 _ rfl rfl)
  have h₂ := h₁.tail (.reserve _ 1 rfl (by decide))
  have h₃ := h₂.tail (.rehash _ 0 1 _ false _ rfl (by decide) rfl (.load _ _ rfl rfl))
  have h₄ := h₃.tail (.rehash _ 0 1 _ false _ rfl (by decide) rfl (.turn _ _ rfl (by decide)))
  have h₅ := h₄.tail (.write _ 0 _ none _ rfl (.lock _ (.insert 0 7) rfl rfl (fun _ _ _ => by decide)))
  have h₆ := h₅.tail (.write _ 0 _ _ _ rfl (.link _ (.insert 0 7) 0 rfl))
  have h₇ := h₆.tail (.rehash _ 0 1 _ true _ rfl (by decide) rfl (.finish _ _ rfl (by decide)))
  have h₈ := h₇.tail (.leave _ 1 rfl)
  refine ⟨_, h₈, ⟨rfl, fun i sh hi => ?_⟩, rfl, rfl⟩
  by_cases h0 : i = 0
  · subst h0
    cases hi
    rfl
  · have hpick : i ≠ Map.pickSegment (oneShard Nat) 0 := h0
    have hno : fresh.shards i = some sh := by simpa [State.set, h0, hpick] using hi
    cases hno

end Inv

end Overlap

end Wizard.HashMap
