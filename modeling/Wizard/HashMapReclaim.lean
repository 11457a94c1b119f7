import Wizard.Runs
import Wizard.HashMapLedger
import Wizard.HashMapSpec

/-! Reclamation in one segment. The stores of a mutex section, the calls of
`release` and `retire` that follow the unlock, and the destructors of retired
objects are steps of their own and interleave. An object counts as destroyed
from the start of its destructor on; the links it had are then calls of
`release` that are still to be executed. -/

namespace Wizard.HashMap

open SegmentT

variable {Key Value : Type}

section Scope

variable {c : Config Key} {s s' : SegmentT Key Value} {st : Store Key Value} {q q' : List (Store Key Value)}
  {V W : Set Nat} {f : Key → Option Value} {N x : Nat}

/-- The calls of `acquire` on `x` among the stores. -/
def acquires (x : Nat) : List (Store Key Value) → Nat
  | [] => 0
  | .acquire n :: q => hit (some n) x + acquires x q
  | _ :: q => acquires x q

/-- Stores that name nodes only after they are made, when there are `N` before. -/
def Scoped : Nat → List (Store Key Value) → Prop
  | _, [] => True
  | N, .newNode _ _ :: q => Scoped (N + 1) q
  | N, .write _ p :: q => (∀ m, p = some m → m < N) ∧ Scoped N q
  | N, .acquire m :: q => m < N ∧ Scoped N q
  | N, .newList bl :: q => (bl.head = fun _ => none) ∧ Scoped N q
  | N, _ :: q => Scoped N q

theorem Scoped.tail (h : Scoped s.nodeCount (st :: q)) : Scoped (s.apply st).nodeCount q := by
  cases st with
  | newNode k v => exact h
  | write loc p =>
    rw [SegmentT.apply, nodeCount_write]
    exact h.2
  | acquire m => exact h.2
  | newList bl => exact h.2
  | _ => exact h

theorem Closed.apply (h : Closed s) (hs : Scoped s.nodeCount (st :: q)) : Closed (s.apply st) := by
  intro loc m ha hr
  refine lt_of_lt_of_le ?_ nodeCount_le_apply
  obtain rfl | ⟨ha, hr⟩ := read_apply_cases (fun bl hbl => by subst hbl; exact hs.1) ha hr
  · exact hs.1 m rfl
  · exact h loc m ha hr

theorem Closed.applyAll (h : Closed s) (hs : Scoped s.nodeCount q) : Closed (s.applyAll q) := by
  induction q generalizing s with
  | nil => exact h
  | cons st q ih => exact ih (h.apply hs) hs.tail

theorem Scoped.append (h : Scoped s.nodeCount q) (h' : Scoped (s.applyAll q).nodeCount q') :
    Scoped s.nodeCount (q ++ q') := by
  induction q generalizing s with
  | nil => exact h'
  | cons st q ih =>
    have hh := ih (s := s.apply st) h.tail h'
    cases st with
    | newNode k v => exact hh
    | write loc p =>
      rw [SegmentT.apply, nodeCount_write] at hh
      exact ⟨h.1, hh⟩
    | acquire m => exact ⟨h.1, hh⟩
    | newList bl => exact ⟨h.1, hh⟩
    | _ => exact hh

/-- The count that a node has or will be made with. -/
def baseCount (s : SegmentT Key Value) (x : Nat) : BitVec 16 :=
  if x < s.nodeCount then (s.node x).refcount else 1

theorem baseCount_apply (h : Scoped s.nodeCount (st :: q)) :
    baseCount (s.apply st) x + BitVec.ofNat 16 (acquires x q) =
      baseCount s x + BitVec.ofNat 16 (acquires x (st :: q)) := by
  cases st with
  | newNode k v =>
    congr 1
    by_cases hx : x = s.nodeCount
    · simp [baseCount, SegmentT.apply, hx]
    · have hlt : x < s.nodeCount + 1 ↔ x < s.nodeCount := by omega
      simp [baseCount, SegmentT.apply, hx, hlt]
  | write loc p =>
    congr 1
    rw [SegmentT.apply, baseCount, nodeCount_write, refcount_write, baseCount]
  | acquire m =>
    by_cases hx : x = m
    · subst hx
      have hlt : x < s.nodeCount := h.1
      simp only [baseCount, SegmentT.apply, hlt, if_true, Function.update_self, acquires, hit_self,
        BitVec.ofNat_add]
      rw [BitVec.add_assoc]
      rfl
    · have hne : hit (some m) x = 0 := by simp [hit, Ne.symm hx]
      simp [baseCount, SegmentT.apply, hx, acquires, hne]
  | _ => rfl

theorem baseCount_applyAll (h : Scoped s.nodeCount q) :
    baseCount (s.applyAll q) x = baseCount s x + BitVec.ofNat 16 (acquires x q) := by
  induction q generalizing s with
  | nil => simp [applyAll, acquires]
  | cons st q ih =>
    rw [← baseCount_apply h, ← ih h.tail]
    rfl

theorem acquires_append : acquires x (q ++ q') = acquires x q + acquires x q' := by
  induction q with
  | nil => simp [acquires]
  | cons st q ih => cases st <;> simp [acquires, ih, Nat.add_assoc]

theorem acquires_eq_zero (h : ∀ n, .acquire n ∉ q) : acquires x q = 0 := by
  induction q with
  | nil => rfl
  | cons st q ih =>
    have hq := ih (fun n hn => h n (List.mem_cons_of_mem _ hn))
    cases st with
    | acquire n => exact absurd List.mem_cons_self (h n)
    | _ => exact hq

theorem acquires_pos (h : 0 < acquires x q) : .acquire x ∈ q := by
  induction q with
  | nil => simp [acquires] at h
  | cons st q ih =>
    cases st with
    | acquire n =>
      by_cases hn : n = x
      · simp [hn]
      · have hz : hit (some n) x = 0 := by simp [hit, hn]
        rw [acquires, hz, Nat.zero_add] at h
        exact List.mem_cons_of_mem _ (ih h)
    | _ => exact List.mem_cons_of_mem _ (ih h)

theorem acquires_acquireStores (o : Option Nat) :
    acquires x (acquireStores o : List (Store Key Value)) ≤ 1 := by
  cases o with
  | none => simp [acquireStores, acquires]
  | some n =>
    simp only [acquireStores, acquires, hit]
    split <;> omega

theorem copyStores_scoped {l : Nat} (ps : List Nat) (h : Closed s) (hl : l < s.listCount)
    (hpos : 0 < (s.list l).bucketCount.toNat) : Scoped s.nodeCount (copyStores c l s ps) := by
  induction ps generalizing s with
  | nil => trivial
  | cons p ps ih =>
    obtain ⟨hcount, hlist, hbuckets⟩ := applyAll_copyOne (c := c) (s := s) (l := l) p
    have hone : Scoped s.nodeCount (copyOne c s l p) := by
      refine ⟨fun m hm => ?_, fun m hm => ?_, trivial⟩
      · exact Nat.lt_succ_of_lt (h (headOf c s l (s.key p)) m ⟨hl, bucketId_lt c hpos _⟩ hm)
      · cases hm
        omega
    exact hone.append (ih (h.applyAll hone) (by rwa [hlist]) (by rwa [hbuckets]))

theorem growStores_scoped {grow : List (Store Key Value)} (h : Holds c s V W f) (hcl : Closed s)
    (hg : growStores c s = some grow) : Scoped s.nodeCount grow := by
  rw [growStores] at hg
  split at hg
  · obtain ⟨bl, hcount, hbl, rfl⟩ := rehashStores_eq hg
    set start : List (Store Key Value) := [.setThreshold (c.threshold bl.bucketCount), .newList bl]
    have hstart : Scoped s.nodeCount start := ⟨hbl, trivial⟩
    have hpos : 0 < ((s.applyAll start).list s.listCount).bucketCount.toNat := h.newList_pos hcount
    have hcopy := copyStores_scoped (c := c) s.sources (hcl.applyAll hstart) (Nat.lt_succ_self _) hpos
    exact (hstart.append hcopy).append trivial
  · cases hg
    trivial

theorem acquireStores_scoped {o : Option Nat} (h : ∀ m, o = some m → m < N) :
    Scoped N (acquireStores o : List (Store Key Value)) := by
  cases o with
  | none => trivial
  | some m => exact ⟨h m rfl, trivial⟩

theorem acquires_growStores {grow : List (Store Key Value)} (hg : growStores c s = some grow) :
    acquires x grow = 0 :=
  acquires_eq_zero (fun n hn => (growStores_fresh hg _ hn).not_acquire n rfl)

variable [DecidableEq Key] {k : Key}

theorem linkStores_scoped {new : Nat} (h : Holds c s V W f) (hcl : Closed s) (hlt : new < s.nodeCount) :
    Scoped s.nodeCount (linkStores c s k new).1 ∧ ∀ x, acquires x (linkStores c s k new).1 ≤ 1 := by
  obtain ⟨ch, hc⟩ := h.chains
  have hnew : ∀ m, some new = some m → m < s.nodeCount := by
    rintro m ⟨⟩
    exact hlt
  obtain ⟨hs, -⟩ | ⟨b, pre, n, post, hch, -, -, hs⟩ := h.search_cases hc k
  · simp only [linkStores, hs]
    refine ⟨⟨fun m hm => ?_, hnew, trivial⟩, fun x => by simp [acquires]⟩
    exact hcl (headOf c s s.bucketList k) m ⟨h.lists _ h.current, bucketId_lt c hc.pos k⟩ hm
  · simp only [linkStores, hs]
    have hn : n < s.nodeCount := h.nodes n (hc.mem b n (by simp [hch]))
    have hnext : ∀ m, s.next n = some m → m < s.nodeCount := fun m hm => hcl (.next n) m hn hm
    refine ⟨(acquireStores_scoped hnext).append ?_, fun x => ?_⟩
    · rw [(acquireStores_same _).nodeCount]
      exact ⟨hnext, hnew, trivial⟩
    · rw [acquires_append]
      exact acquires_acquireStores _

theorem insertSection_scoped {value : Value} {sec : List (Store Key Value) × Option Nat}
    (h : Holds c s V W f) (hcl : Closed s) (hs : insertSection c s k value = some sec) :
    Scoped s.nodeCount sec.1 ∧ ∀ x, acquires x sec.1 ≤ 1 := by
  obtain ⟨grow, hg, rfl⟩ := Option.map_eq_some_iff.1 hs
  have h₁ : Holds c (s.apply (.newNode k value)) V W f := h.apply trivial
  have hcl₁ : Closed (s.apply (.newNode k value)) := hcl.apply (q := []) trivial
  obtain ⟨V', W', ch, h₂, -⟩ := growStores_safe h₁ hg
  have hgrow := growStores_scoped h₁ hcl₁ hg
  have hlt : s.nodeCount < ((s.apply (.newNode k value)).applyAll grow).nodeCount :=
    lt_of_lt_of_le (Nat.lt_succ_self _) (nodeCount_le_applyAll (s := s.apply (.newNode k value)) grow)
  obtain ⟨hlink, hacq⟩ := linkStores_scoped (k := k) h₂ (hcl₁.applyAll hgrow) hlt
  refine ⟨hgrow.append hlink, fun x => ?_⟩
  have hz : acquires x grow = 0 := acquires_growStores hg
  change acquires x (grow ++ _) ≤ 1
  rw [acquires_append, hz, Nat.zero_add]
  exact hacq x

theorem eraseSection_scoped (h : Holds c s V W f) (hcl : Closed s) (k : Key) :
    Scoped s.nodeCount (eraseSection c s k).1 ∧ ∀ x, acquires x (eraseSection c s k).1 ≤ 1 := by
  obtain ⟨ch, hc⟩ := h.chains
  obtain ⟨hs, -⟩ | ⟨b, pre, n, post, hch, -, -, hs⟩ := h.search_cases hc k
  · simp [eraseSection, hs, Scoped, acquires]
  · simp only [eraseSection, hs]
    have hn : n < s.nodeCount := h.nodes n (hc.mem b n (by simp [hch]))
    have hnext : ∀ m, s.next n = some m → m < s.nodeCount := fun m hm => hcl (.next n) m hn hm
    refine ⟨(acquireStores_scoped hnext).append ?_, fun x => ?_⟩
    · rw [(acquireStores_same _).nodeCount]
      exact ⟨hnext, trivial⟩
    · change acquires x (acquireStores (s.next n) ++ _) ≤ 1
      rw [acquires_append]
      exact acquires_acquireStores _

end Scope

section Alike

variable {c : Config Key} {s s' : SegmentT Key Value} {st : Store Key Value} {q : List (Store Key Value)}
  {V W : Set Nat} {f : Key → Option Value} {v : Option Nat}

/-- The heaps differ at most in their counts and in what is retired. -/
structure Alike (s s' : SegmentT Key Value) : Prop extends SameLinks s s' where
  key : s'.key = s.key
  value : s'.value = s.value
  bucketList : s'.bucketList = s.bucketList

theorem alike_release (n : Nat) : Alike s (s.release n) := by
  refine ⟨⟨funext fun m => ?_, rfl, rfl, rfl⟩, funext fun m => ?_, funext fun m => ?_, rfl⟩ <;>
    by_cases hm : m = n <;> simp [SegmentT.release, SegmentT.next, SegmentT.key, SegmentT.value, hm]

theorem Alike.apply (h : Alike s s') (st : Store Key Value) : Alike (s.apply st) (s'.apply st) := by
  have hn := fun m => congrFun h.next m
  have hk := fun m => congrFun h.key m
  have hv := fun m => congrFun h.value m
  simp only [SegmentT.next, SegmentT.key, SegmentT.value] at hn hk hv
  cases st with
  | newNode k v =>
    refine ⟨⟨funext fun m => ?_, h.list, ?_, h.listCount⟩, funext fun m => ?_, funext fun m => ?_, h.bucketList⟩
    · by_cases hm : m = s.nodeCount <;> simp [SegmentT.apply, SegmentT.next, h.nodeCount, hm, hn]
    · simp [SegmentT.apply, h.nodeCount]
    · by_cases hm : m = s.nodeCount <;> simp [SegmentT.apply, SegmentT.key, h.nodeCount, hm, hk]
    · by_cases hm : m = s.nodeCount <;> simp [SegmentT.apply, SegmentT.value, h.nodeCount, hm, hv]
  | newList bl =>
    refine ⟨⟨h.next, ?_, h.nodeCount, ?_⟩, h.key, h.value, h.bucketList⟩ <;>
      simp [SegmentT.apply, h.list, h.listCount]
  | write loc p =>
    cases loc with
    | head l b =>
      refine ⟨⟨h.next, ?_, h.nodeCount, h.listCount⟩, h.key, h.value, h.bucketList⟩
      simp [SegmentT.apply, SegmentT.write, h.list]
    | next n =>
      refine ⟨⟨funext fun m => ?_, h.list, h.nodeCount, h.listCount⟩, funext fun m => ?_,
        funext fun m => ?_, h.bucketList⟩ <;>
        by_cases hm : m = n <;>
        simp [SegmentT.apply, SegmentT.write, SegmentT.next, SegmentT.key, SegmentT.value, hm, hn, hk, hv]
  | acquire n =>
    refine ⟨⟨funext fun m => ?_, h.list, h.nodeCount, h.listCount⟩, funext fun m => ?_,
      funext fun m => ?_, h.bucketList⟩ <;>
      by_cases hm : m = n <;>
      simp [SegmentT.apply, SegmentT.next, SegmentT.key, SegmentT.value, hm, hn, hk, hv]
  | publish l => exact ⟨⟨h.next, h.list, h.nodeCount, h.listCount⟩, h.key, h.value, rfl⟩
  | _ => exact ⟨⟨h.next, h.list, h.nodeCount, h.listCount⟩, h.key, h.value, h.bucketList⟩

theorem Alike.applyAll (h : Alike s s') (q : List (Store Key Value)) : Alike (s.applyAll q) (s'.applyAll q) := by
  induction q generalizing s s' with
  | nil => exact h
  | cons st q ih => exact ih (h.apply st)

theorem Alike.holds (h : Alike s s') (hh : Holds c s V W f) : Holds c s' V W f := by
  obtain ⟨ch, hc⟩ := hh.chains
  refine ⟨fun n hn => h.nodeCount ▸ hh.nodes n hn, fun l hl => h.listCount ▸ hh.lists l hl,
    h.bucketList ▸ hh.current, ch, ?_⟩
  rw [h.bucketList]
  exact hc.congr (fun n _ => ⟨congrFun h.next n, congrFun h.key n, congrFun h.value n⟩)
    (by rw [h.list]) subset_rfl

theorem Alike.closed (h : Alike s s') (hc : Closed s) : Closed s' := by
  intro loc m ha hr
  rw [h.nodeCount]
  exact hc loc m ((h.allocated loc).1 ha) (by rwa [h.read] at hr)

theorem Alike.kept (h : Alike s s') (o : Obj) : Kept s' v o ↔ Kept s v o := by
  cases o with
  | node m => simp only [Kept, Reach, SegmentT.bucketCount, h.next, h.read, h.list, h.bucketList]
  | list l => simp only [Kept, h.bucketList]

theorem Alike.plan (h : Alike s s') (hp : Plan s q v) : Plan s' q v := by
  have hf := h.applyAll q
  constructor
  case target => exact fun st hst o ho => (hf.kept o).2 (hp.target st hst o ho)
  case alloc => exact fun loc p hw => (hf.allocated loc).2 (hp.alloc loc p hw)
  case value => exact fun loc m hw => (hf.kept _).2 (hp.value loc m hw)
  case content =>
    intro loc p m hw ha hr
    rw [h.read] at hr
    exact (hf.kept _).2 (hp.content loc p m hw ((h.allocated loc).1 ha) hr)
  case empty => exact hp.empty
  case acquire =>
    intro m hm
    obtain ⟨n, loc, hv, hn, hne, hr, ha, hk⟩ := hp.acquire m hm
    exact ⟨n, loc, hv, by rwa [hf.next], hne, by rwa [hf.read], (hf.allocated loc).2 ha, (hf.kept _).2 hk⟩
  case ordered =>
    rw [h.bucketList]
    exact hp.ordered
  case publish => exact fun l hl => (hp.publish l hl).trans hf.bucketList.symm
  case retire => exact fun l hl => hf.bucketList ▸ hp.retire l hl

theorem baseCount_release {n : Nat} (hn : n < s.nodeCount) (x : Nat) :
    baseCount (s.release n) x + BitVec.ofNat 16 (hit (some n) x) = baseCount s x := by
  by_cases hx : x = n
  · subst hx
    simp [baseCount, SegmentT.release, hn]
  · simp [baseCount, SegmentT.release, hx, hit, Ne.symm hx]

end Alike

namespace Reclaim

/-- A call that is still to be executed. -/
inductive Task where
  | release (n : Nat)
  | retire (l : Nat)
deriving DecidableEq

/-- The holder of the mutex has stores left, and calls for after the unlock. -/
structure State (Key Value : Type) where
  seg : SegmentT Key Value
  lock : Option (List (Store Key Value) × List Task)
  tasks : List Task
  destroyed : List Obj

namespace State

def stores (s : State Key Value) : List (Store Key Value) := (s.lock.map Prod.fst).getD []

def deferred (s : State Key Value) : List Task := (s.lock.map Prod.snd).getD []

/-- The heap as the section under way will leave it. -/
def fin (s : State Key Value) : SegmentT Key Value := s.seg.applyAll s.stores

/-- The links to `x`, with the stores and the calls of `release` that are still
to be executed. -/
def count (s : State Key Value) (x : Nat) : Nat :=
  links s.destroyed s.fin x + s.tasks.count (.release x) + s.deferred.count (.release x)

end State

def releaseOf (o : Option Nat) : List Task := o.toList.map .release

/-- The calls that `~BucketList` makes. -/
def releaseHeads (s : SegmentT Key Value) (l : Nat) : List Task :=
  (List.range (s.list l).bucketCount.toNat).flatMap fun b => releaseOf (s.read (.head l b))

section Machine

variable [DecidableEq Key] (c : Config Key)

/-- `clear` takes the list that it retires before the mutex; here no other list
is published in between. -/
inductive Move : State Key Value → State Key Value → Prop
  | insert (s k value sec) (hl : s.lock = none) (hs : insertSection c s.seg k value = some sec) :
      Move s { s with lock := some (sec.1, releaseOf sec.2) }
  | erase (s k) (hl : s.lock = none) :
      Move s { s with lock := some ((eraseSection c s.seg k).1, releaseOf (eraseSection c s.seg k).2) }
  | clear (s) (hl : s.lock = none) :
      Move s { s with lock := some (s.seg.clearStores, [.retire s.seg.bucketList]) }
  | store (s st q d) (hl : s.lock = some (st :: q, d)) :
      Move s { s with seg := s.seg.apply st, lock := some (q, d) }
  | unlock (s d) (hl : s.lock = some ([], d)) : Move s { s with lock := none, tasks := s.tasks ++ d }
  | release (s n) (ht : .release n ∈ s.tasks) :
      Move s { s with seg := s.seg.release n, tasks := s.tasks.erase (.release n) }
  | retire (s l) (ht : .retire l ∈ s.tasks) :
      Move s { s with seg := s.seg.apply (.retire l), tasks := s.tasks.erase (.retire l) }
  | destroyNode (s n) (hr : .node n ∈ s.seg.retired) (hd : .node n ∉ s.destroyed) :
      Move s { s with destroyed := .node n :: s.destroyed, tasks := s.tasks ++ releaseOf (s.seg.next n) }
  | destroyList (s l) (hr : .list l ∈ s.seg.retired) (hd : .list l ∉ s.destroyed) :
      Move s { s with destroyed := .list l :: s.destroyed, tasks := s.tasks ++ releaseHeads s.seg l }

/-- No store of the section under way goes to a destroyed object. Beyond that
point the program has no meaning. -/
def Defined (s : State Key Value) : Prop :=
  ∀ st ∈ s.stores, ∀ o, st.target = some o → o ∉ s.destroyed

/-- A segment that nobody has used. -/
def Init [Inhabited Key] [Inhabited Value] (s : State Key Value) : Prop :=
  (∃ count : BitVec 64, count.toNat ≤ 2 ^ 63 ∧ SegmentT.make c count = some s.seg) ∧
    s.lock = none ∧ s.tasks = [] ∧ s.destroyed = []

end Machine

end Reclaim

end Wizard.HashMap
