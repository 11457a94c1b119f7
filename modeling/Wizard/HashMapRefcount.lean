import Mathlib.Data.List.ReduceOption
import Wizard.Hazptr
import Wizard.HashMapGuards

/-! Retired objects wait in the private lists of the threads until a list reaches
the threshold. Each node that waits keeps its link, and `refcount_` has 16 bits. -/

namespace Wizard.HashMap

open SegmentT

variable {Key Value : Type}

section Writes

variable {c : Config Key} {s : SegmentT Key Value} {st : Store Key Value} {q q' : List (Store Key Value)}
  {V W : Set Nat} {f : Key → Option Value} {D : List Obj} {N x : Nat}

/-- The stores of the pointer to `x`. -/
def writes (x : Nat) : List (Store Key Value) → Nat
  | [] => 0
  | .write _ p :: q => hit p x + writes x q
  | _ :: q => writes x q

theorem writes_append : writes x (q ++ q') = writes x q + writes x q' := by
  induction q with
  | nil => simp [writes]
  | cons st q ih => cases st <;> simp [writes, ih, Nat.add_assoc]

theorem writes_acquireStores (o : Option Nat) : writes x (acquireStores o : List (Store Key Value)) = 0 := by
  cases o <;> rfl

theorem acquires_acquireStores_eq (o : Option Nat) :
    acquires x (acquireStores o : List (Store Key Value)) = hit o x := by
  cases o with
  | none => rfl
  | some n => rfl

/-- A store makes at most the link that it writes. -/
theorem links_apply_le (h : Scoped s.nodeCount (st :: q)) :
    links D (s.apply st) x + writes x q ≤ links D s x + writes x (st :: q) := by
  cases st with
  | newNode k value => exact le_of_eq (congrArg (· + writes x q) (links_newNode k value))
  | newList bl => exact le_of_eq (congrArg (· + writes x q) (links_newList h.1))
  | write loc p =>
    rw [SegmentT.apply, writes]
    by_cases hloc : loc ∈ locs D s
    · have hw := links_write (x := x) hloc p
      omega
    · have he : locs D (s.write loc p) = locs D s := by
        ext loc'
        rw [mem_locs, mem_locs, allocated_write]
      have hl : links D (s.write loc p) x = links D s x := by
        rw [links, he, links]
        refine tally_congr fun loc' hloc' => ?_
        rw [read_write, if_neg]
        intro hh
        rw [hh] at hloc'
        exact hloc hloc'
      omega
  | acquire n =>
    have hs : SameLinks s (s.apply (.acquire n)) := by
      refine ⟨funext fun m => ?_, rfl, rfl, rfl⟩
      by_cases hm : m = n <;> simp [SegmentT.next, SegmentT.apply, hm]
    exact le_of_eq (congrArg (· + writes x q) hs.links)
  | _ => exact le_of_eq (congrArg (· + writes x q) (SameLinks.links ⟨rfl, rfl, rfl, rfl⟩))

/-- The stores of a section that starts with `N` nodes write the pointer to an
old node at most once, and only then acquire it. -/
structure Linking (N : Nat) (q : List (Store Key Value)) : Prop where
  acquires : ∀ x, acquires x q ≤ writes x q
  old : ∀ x < N, writes x q ≤ 1
  all : ∀ x, writes x q ≤ 4

theorem tally_heads_zero {l : Nat} (h : Closed s) (hl : l < s.listCount) (hx : s.nodeCount ≤ x) :
    tally (heads s l) s.read x = 0 := by
  refine tally_eq_zero fun loc hloc hr => ?_
  obtain ⟨b, hb, rfl⟩ := mem_heads.1 hloc
  exact (h (.head l b) x ⟨hl, hb⟩ hr).not_ge hx

/-- The pointer to a copy is stored when the copy is made, and again when the
next copy for its bucket is made. -/
theorem writes_copyStores {l : Nat} (ps : List Nat) (h : Closed s) (hl : l < s.listCount)
    (hpos : 0 < (s.list l).bucketCount.toNat) :
    writes x (copyStores c l s ps) ≤ if x < s.nodeCount then tally (heads s l) s.read x else 2 := by
  induction ps generalizing s with
  | nil => simp [copyStores, writes]
  | cons p ps ih =>
    set s' := s.applyAll (copyOne c s l p) with hs'
    set loc := headOf c s l (s.key p) with hloc
    obtain ⟨hcount, hlist, hbuckets⟩ := applyAll_copyOne (c := c) (s := s) (l := l) p
    have hal : Allocated s loc := ⟨hl, bucketId_lt c hpos _⟩
    have hone : Scoped s.nodeCount (copyOne c s l p) := by
      refine ⟨fun m hm => ?_, fun m hm => ?_, trivial⟩
      · exact Nat.lt_succ_of_lt (h loc m hal hm)
      · cases hm
        omega
    have hcl : Closed s' := h.applyAll hone
    have hrest := ih hcl (by rwa [hlist]) (by rwa [hbuckets])
    have hheads : heads s' l = heads s l := by rw [heads, heads, hbuckets]
    have hmem : loc ∈ heads s l := mem_heads.2 ⟨_, bucketId_lt c hpos _, rfl⟩
    have hread : ∀ b ∈ heads s l, s'.read b = if b = loc then some s.nodeCount else s.read b := by
      intro b hb
      obtain ⟨i, -, rfl⟩ := mem_heads.1 hb
      rw [hs']
      simp only [copyOne, applyAll, List.foldl, SegmentT.apply, read_write, ← hloc]
      split
      · rfl
      · rw [if_neg (by simp)]
        rfl
    have hchange := tally_update (y := x) (g := s'.read) hmem
      (fun b hb hne => by rw [hread b hb, if_neg hne])
    rw [hread loc hmem, if_pos rfl] at hchange
    have hw : writes x (copyOne c s l p) = hit (s.read loc) x + hit (some s.nodeCount) x := rfl
    rw [copyStores, writes_append, hw, ← hs']
    rw [hheads, hcount] at hrest
    by_cases hx : x < s.nodeCount
    · have hz : hit (some s.nodeCount) x = 0 := hit_ne hx.ne'
      rw [if_pos hx]
      rw [if_pos (by omega)] at hrest
      omega
    · have hz : hit (s.read loc) x = 0 := by
        rw [hit, if_neg]
        exact fun hr => hx (h loc x hal hr)
      have ht := tally_heads_zero h hl (Nat.not_lt.1 hx)
      have hle : hit (some s.nodeCount) x ≤ 1 := by
        rw [hit]
        split <;> omega
      rw [if_neg hx]
      by_cases he : x = s.nodeCount
      · rw [if_pos (by omega)] at hrest
        omega
      · have hne : hit (some s.nodeCount) x = 0 := hit_ne (Ne.symm he)
        rw [if_neg (by omega)] at hrest
        omega

theorem writes_growStores {grow : List (Store Key Value)} (h : Holds c s V W f) (hcl : Closed s)
    (hg : growStores c s = some grow) : writes x grow ≤ if x < s.nodeCount then 0 else 2 := by
  rw [growStores] at hg
  split at hg
  · obtain ⟨bl, hcount, hbl, rfl⟩ := rehashStores_eq hg
    set start : List (Store Key Value) := [.setThreshold (c.threshold bl.bucketCount), .newList bl]
    have hstart : Scoped s.nodeCount start := ⟨hbl, trivial⟩
    have hpos : 0 < ((s.applyAll start).list s.listCount).bucketCount.toNat := h.newList_pos hcount
    have hcopy := writes_copyStores (c := c) (x := x) (l := s.listCount) s.sources (hcl.applyAll hstart)
      (Nat.lt_succ_self _) hpos
    have hempty : tally (heads (s.applyAll start) s.listCount) (s.applyAll start).read x = 0 := by
      refine tally_eq_zero fun loc hloc => ?_
      obtain ⟨b, -, rfl⟩ := mem_heads.1 hloc
      simp [start, applyAll, SegmentT.apply, SegmentT.read, hbl]
    rw [hempty] at hcopy
    rw [fillStores, writes_append, writes_append]
    have hz : writes x start = 0 := rfl
    have hend : writes x ([.publish s.listCount, .retire s.bucketList] : List (Store Key Value)) = 0 := rfl
    rw [hz, hend, Nat.zero_add, Nat.add_zero]
    exact hcopy
  · cases hg
    simp [writes]

variable [DecidableEq Key] {k : Key}

theorem linkStores_linking (new x : Nat) :
    acquires x (linkStores c s k new).1 ≤ writes x (linkStores c s k new).1 ∧
      writes x (linkStores c s k new).1 ≤ 1 + hit (some new) x := by
  have hle : ∀ o : Option Nat, hit o x ≤ 1 := by
    intro o
    rw [hit]
    split <;> omega
  rw [linkStores]
  split
  · rename_i prev n _
    have hn := hle (s.next n)
    simp only [acquires_append, writes_append, acquires_acquireStores_eq, writes_acquireStores, acquires, writes]
    omega
  · have hn := hle (s.read (headOf c s s.bucketList k))
    simp only [acquires, writes]
    omega

theorem insertSection_linking {value : Value} {sec : List (Store Key Value) × Option Nat}
    (h : Holds c s V W f) (hcl : Closed s) (hs : insertSection c s k value = some sec) :
    Linking s.nodeCount sec.1 := by
  obtain ⟨grow, hg, rfl⟩ := Option.map_eq_some_iff.1 hs
  have h₁ : Holds c (s.apply (.newNode k value)) V W f := h.apply trivial
  have hcl₁ : Closed (s.apply (.newNode k value)) := hcl.apply (q := []) trivial
  have hw : ∀ x, writes x grow ≤ if x < s.nodeCount + 1 then 0 else 2 := fun x => writes_growStores h₁ hcl₁ hg
  have ha : ∀ x, acquires x grow = 0 := fun x => acquires_growStores hg
  have hl := linkStores_linking (c := c) (s := (s.apply (.newNode k value)).applyAll grow) (k := k) s.nodeCount
  constructor
  case acquires =>
    intro x
    change acquires x (grow ++ _) ≤ writes x (grow ++ _)
    rw [acquires_append, writes_append, ha, Nat.zero_add]
    exact (hl x).1.trans (Nat.le_add_left _ _)
  case old =>
    intro x hx
    have hz := hw x
    rw [if_pos (by omega)] at hz
    have hle := (hl x).2
    rw [hit_ne hx.ne'] at hle
    change writes x (grow ++ _) ≤ 1
    rw [writes_append]
    omega
  case all =>
    intro x
    have hz := hw x
    have hle := (hl x).2
    have hone : hit (some s.nodeCount) x ≤ 1 := by
      rw [hit]
      split <;> omega
    change writes x (grow ++ _) ≤ 4
    rw [writes_append]
    split at hz <;> omega

theorem eraseSection_linking (k : Key) : Linking s.nodeCount (eraseSection c s k).1 := by
  have hh : ∀ x, acquires x (eraseSection c s k).1 ≤ writes x (eraseSection c s k).1 ∧
      writes x (eraseSection c s k).1 ≤ 1 := by
    intro x
    rw [eraseSection]
    split
    · exact ⟨le_rfl, Nat.zero_le 1⟩
    · rename_i prev n _
      have hn : hit (s.next n) x ≤ 1 := by
        rw [hit]
        split <;> omega
      simp only [List.cons_append, acquires, writes, acquires_append, writes_append, acquires_acquireStores_eq,
        writes_acquireStores]
      omega
  exact ⟨fun x => (hh x).1, fun x _ => (hh x).2, fun x => (hh x).2.trans (by omega)⟩

omit [DecidableEq Key] in
theorem clearStores_linking : Linking s.nodeCount s.clearStores :=
  ⟨fun _ => le_rfl, fun _ _ => Nat.zero_le 1, fun _ => Nat.zero_le 4⟩

end Writes

namespace Reclaim

section Spares

variable {c : Config Key} {s t : State Key Value} {v v' : Option Nat} {q : List (Store Key Value)} {d : List Task}
  {x : Nat}

/-- A section that takes the mutex stores no pointer to a node whose count is
the largest `uint16_t`. -/
def Spares (s t : State Key Value) : Prop :=
  s.lock = none → ∀ x < s.seg.nodeCount, 0 < writes x t.stores → (s.seg.node x).refcount ≠ 65535

/-- No node has `2 ^ 16` links, nor will when the stores that are left are made. -/
def Roomy (s : State Key Value) : Prop := ∀ x, links s.destroyed s.seg x + writes x s.stores < 2 ^ 16

/-- Where the count is not the largest, there is room for one more link. -/
theorem Live.lt_of_ne (h : Live c s) (hl : s.lock = none) (hx : x < s.seg.nodeCount)
    (hne : (s.seg.node x).refcount ≠ 65535) : s.count x + 1 < 2 ^ 16 := by
  obtain ⟨v, hv⟩ := h.sane
  obtain ⟨hst, -, hfin⟩ := State.stores_none hl
  by_cases hd : .node x ∈ s.destroyed
  · rw [h.exact.count_eq_zero hv (hv.destroyed _ hd)]
    decide
  · have hh := h.counted x (hfin ▸ hx) hd
    rw [hst, baseCount, if_pos hx, acquires, BitVec.add_zero] at hh
    have hb := h.bounded x
    have hc : s.count x ≠ 65535 := by
      intro hc
      rw [hc] at hh
      exact hne hh
    omega

theorem Live.opens (h : Live c s) (hv : Sane c s v) (hl : s.lock = none) (ho : Opens c s.seg q d v')
    (hq : Linking s.seg.nodeCount q) (hs : Spares s { s with lock := some (q, d) }) :
    Bounded { s with lock := some (q, d) } ∧ Roomy { s with lock := some (q, d) } := by
  obtain ⟨-, -, hfin⟩ := State.stores_none hl
  have hD : ∀ st ∈ q, ∀ o, st.target = some o → o ∉ s.destroyed :=
    fun st hst o hto => h.exact.old_alive hv hl (ho.target st hst o hto)
  obtain ⟨a, hset, hcount⟩ := hv.count_opens hl ho hD
  have hroom : ∀ x < s.seg.nodeCount, 0 < writes x q → s.count x + 1 < 2 ^ 16 :=
    fun x hx hw => h.lt_of_ne hl hx (hs hl x hx hw)
  refine ⟨fun x => ?_, fun x => ?_⟩
  · by_cases hx : x < (s.seg.applyAll q).nodeCount
    · rw [hcount x hx]
      have hle : hit a x ≤ 1 := by
        rw [hit]
        split <;> omega
      split
      · rename_i hlt
        by_cases hw : 0 < writes x q
        · have hh := hroom x hlt hw
          omega
        · have hb := h.bounded x
          have hz : hit a x = 0 := by
            have hacq := hq.acquires x
            have hr := hset.refcount x hx
            rw [if_pos hlt] at hr
            have hr' := baseCount_applyAll (x := x) ho.scope
            rw [baseCount, baseCount, if_pos hx, if_pos hlt, hr] at hr'
            have he := (BitVec.add_right_inj _).1 hr'
            rw [← BitVec.toNat_inj, BitVec.toNat_ofNat, BitVec.toNat_ofNat, Nat.mod_eq_of_lt (by omega),
              Nat.mod_eq_of_lt (by omega)] at he
            omega
          omega
      · omega
    · have hz : State.count { s with lock := some (q, d) } x = 0 := by
        by_contra hne
        exact hx ((hv.opens hl ho).lt_of_count_pos (Nat.pos_of_ne_zero hne))
      rw [hz]
      decide
  · change links s.destroyed s.seg x + writes x q < 2 ^ 16
    by_cases hx : x < s.seg.nodeCount
    · have hle : links s.destroyed s.seg x ≤ s.count x := hfin ▸ links_le_count s x
      have hold := hq.old x hx
      have hb := h.bounded x
      by_cases hw : 0 < writes x q
      · have hh := hroom x hx hw
        omega
      · omega
    · have hz : links s.destroyed s.seg x = 0 :=
        tally_eq_zero fun loc hloc hr => hx (hv.closed loc x (mem_locs.1 hloc).1 hr)
      have hall := hq.all x
      omega

variable [DecidableEq Key]

theorem Live.room (h : Live c s) (hr : Roomy s) (hm : Move c s t) (hs : Spares s t) : Bounded t ∧ Roomy t := by
  obtain ⟨v, hv⟩ := h.sane
  cases hm with
  | insert k value sec hl hsec =>
    obtain ⟨V, W, f, hh⟩ := hv.holds
    rw [(State.stores_none hl).2.2] at hh
    exact h.opens hv hl (opens_insert hh hv.closed hsec) (insertSection_linking hh hv.closed hsec) hs
  | erase k hl =>
    obtain ⟨V, W, f, hh⟩ := hv.holds
    rw [(State.stores_none hl).2.2] at hh
    exact h.opens hv hl (opens_erase hh hv.closed k) (eraseSection_linking k) hs
  | clear hl =>
    obtain ⟨V, W, f, hh⟩ := hv.holds
    rw [(State.stores_none hl).2.2] at hh
    exact h.opens hv hl (opens_clear hh) clearStores_linking hs
  | store st q d hl =>
    refine ⟨fun x => ?_, fun x => ?_⟩
    · rw [State.count_store hl]
      exact h.bounded x
    · have hst := (State.stores_some hl).1
      have hsc := hv.scope
      have hx := hr x
      rw [hst] at hsc hx
      exact (links_apply_le hsc).trans_lt hx
  | unlock d hl =>
    refine ⟨fun x => ?_, fun x => ?_⟩
    · rw [State.count_unlock hl]
      exact h.bounded x
    · have hx := hr x
      rw [(State.stores_some hl).1] at hx
      exact hx
  | release n ht =>
    refine ⟨fun x => ?_, fun x => ?_⟩
    · have hc := State.count_release ht (x := x)
      have hb := h.bounded x
      omega
    · have hx := hr x
      rw [← (alike_release n).links] at hx
      exact hx
  | retire l ht =>
    have ha : Alike s.seg (s.seg.apply (.retire l)) := ⟨⟨rfl, rfl, rfl, rfl⟩, rfl, rfl, rfl⟩
    refine ⟨fun x => ?_, fun x => ?_⟩
    · rw [State.count_retire]
      exact h.bounded x
    · have hx := hr x
      rw [← ha.links] at hx
      exact hx
  | destroyNode n hret hd =>
    refine ⟨fun x => ?_, fun x => ?_⟩
    · rw [State.count_destroyNode (hv.node n hret) hd (h.exact.not_target hv hret)]
      exact h.bounded x
    · have hl := links_destroyNode (hv.node n hret) hd x
      have hx := hr x
      change links (.node n :: s.destroyed) s.seg x + writes x s.stores < 2 ^ 16
      omega
  | destroyList l hret hd =>
    refine ⟨fun x => ?_, fun x => ?_⟩
    · rw [State.count_destroyList (hv.list l (.inl hret)).1 hd (h.exact.not_target hv hret)]
      exact h.bounded x
    · have hl := links_destroyList (hv.list l (.inl hret)).1 hd x
      have hx := hr x
      change links (.list l :: s.destroyed) s.seg x + writes x s.stores < 2 ^ 16
      omega

omit [DecidableEq Key] in
/-- When the count that `release` finds is one, no link is left. -/
theorem Live.last_link (h : Live c s) {n : Nat} (ht : .release n ∈ s.tasks) (hone : (s.seg.node n).refcount = 1) :
    links s.destroyed s.seg n = 0 ∧ (s.tasks ++ s.deferred).count (.release n) = 1 := by
  obtain ⟨v, hv⟩ := h.sane
  have hc := (refcount_eq_one_iff h.counted h.exact hv h.bounded ht).1 hone
  have hpos := List.count_pos_iff.2 ht
  rw [State.count] at hc
  refine ⟨tally_eq_zero fun loc hloc hr => ?_, ?_⟩
  · have hp := h.exact.covered hv hloc hr
    omega
  · rw [List.count_append]
    omega

omit [DecidableEq Key] in
/-- `acquire` does not wrap the count. -/
theorem Live.acquire_ne (h : Live c s) {n : Nat} (hl : s.lock = some (.acquire n :: q, d)) :
    (s.seg.node n).refcount ≠ 65535 := by
  obtain ⟨v, hv⟩ := h.sane
  have hst := (State.stores_some hl).1
  have hmem : .acquire n ∈ s.stores := hst ▸ List.mem_cons_self
  have hkept : Kept s.fin v (.node n) := hv.plan.target _ hmem _ rfl
  have hpos := h.exact.count_pos_of_kept hv hkept
  have hsc := hv.scope
  rw [hst] at hsc
  have hone : acquires n s.stores = 1 := by
    have hle := hv.acquires n
    rw [hst, acquires, hit_self] at hle ⊢
    omega
  have hh := h.counted n (hv.lt_of_count_pos hpos) (h.exact.alive hv hpos).2
  rw [baseCount, if_pos hsc.1, hone] at hh
  have hb := h.bounded n
  intro he
  rw [he, ← BitVec.toNat_inj, BitVec.toNat_ofNat, Nat.mod_eq_of_lt hb] at hh
  have hz : (65535 + BitVec.ofNat 16 1 : BitVec 16).toNat = 0 := rfl
  omega

end Spares

end Reclaim

namespace Refcount

open Reclaim

variable {Tid : Type*}

/-- `priv t` is the `priv_list` of the thread `t`, in which `none` stands for an
object that is not of this segment; `domain` has the objects of the segment that
were handed to `_retired_list`. -/
structure State (Tid : Type*) (Key Value : Type) where
  base : Reclaim.State Key Value
  priv : Tid → List (Option Obj)
  domain : List Obj
  hazptrCount : Int

structure Init [Inhabited Key] [Inhabited Value] (c : Config Key) (s : State Tid Key Value) : Prop where
  base : Reclaim.Init c s.base
  priv : ∀ t, s.priv t = []
  domain : s.domain = []
  hazptrCount : s.hazptrCount = 0

section Machine

variable [DecidableEq Tid]

/-- `HazptrPrivate::pushAlltoDomain`. -/
def State.pushAlltoDomain (s : State Tid Key Value) (t : Tid) : State Tid Key Value :=
  { s with priv := Function.update s.priv t [], domain := (s.priv t).reduceOption ++ s.domain }

def State.reachedThreshold (s : State Tid Key Value) (retireCnt : Int) : Prop :=
  Hazptr.scanThreshold ≤ retireCnt ∧ Hazptr.scanMult * s.hazptrCount ≤ retireCnt

instance (s : State Tid Key Value) (retireCnt : Int) : Decidable (s.reachedThreshold retireCnt) :=
  inferInstanceAs (Decidable (_ ∧ _))

/-- `HazptrPrivate::push`. -/
def State.push (s : State Tid Key Value) (t : Tid) (o : Option Obj) : State Tid Key Value :=
  let s' := { s with priv := Function.update s.priv t (o :: s.priv t) }
  if s.reachedThreshold ((s.priv t).length + 1) then s'.pushAlltoDomain t else s'

/-- The steps of thread `t`. `bulkReclaim` may delete what is in `_retired_list`
at any time. -/
inductive Step [DecidableEq Key] (c : Config Key) (t : Tid) : State Tid Key Value → State Tid Key Value → Prop
  | write (s b) (hm : Move c s.base b) (hr : b.seg.retired = s.base.seg.retired)
      (hd : b.destroyed = s.base.destroyed) : Step c t s { s with base := b }
  | retire (s b o) (hm : Move c s.base b) (hr : b.seg.retired = o :: s.base.seg.retired) :
      Step c t s ({ s with base := b }.push t (some o))
  | retireOther (s) : Step c t s (s.push t none)
  | delete (s b o) (hm : Move c s.base b) (hd : b.destroyed = o :: s.base.destroyed) (ho : o ∈ s.domain) :
      Step c t s { s with base := b }
  | newRecord (s) : Step c t s { s with hazptrCount := s.hazptrCount + 1 }
  | exit (s) : Step c t s (s.pushAlltoDomain t)

def Next [DecidableEq Key] (c : Config Key) (s s' : State Tid Key Value) : Prop := ∃ t, Step c t s s'

/-- A step that stores no pointer to a node whose count is the largest. -/
def SparingStep [DecidableEq Key] (c : Config Key) (s s' : State Tid Key Value) : Prop :=
  Next c s s' ∧ Spares s.base s'.base

end Machine

section Runs

variable [DecidableEq Tid] [DecidableEq Key] {c : Config Key} {s s' : State Tid Key Value}

omit [DecidableEq Key] in
@[simp] theorem State.push_base (t : Tid) (o : Option Obj) : (s.push t o).base = s.base := by
  rw [State.push]
  split <;> rfl

theorem Next.base (h : Next c s s') : Move c s.base s'.base ∨ s'.base = s.base := by
  obtain ⟨t, hs⟩ := h
  cases hs with
  | write b hm hr hd => exact .inl hm
  | retire b o hm hr =>
    left
    rw [State.push_base]
    exact hm
  | retireOther =>
    right
    rw [State.push_base]
  | delete b o hm hd ho => exact .inl hm
  | newRecord => exact .inr rfl
  | exit => exact .inr rfl

variable [Inhabited Key] [Inhabited Value]

/-- As long as no section stores a pointer to a node whose count is the largest,
no node has more than 65535 links, no count wraps, and the test in `release`
succeeds only when no link is left. -/
theorem release_only_last (h : Reachable (Init c) (SparingStep c) s) :
    (∀ x, links s.base.destroyed s.base.seg x ≤ 65535) ∧
    (∀ n q d, s.base.lock = some (.acquire n :: q, d) → (s.base.seg.node n).refcount ≠ 65535) ∧
    ∀ n, .release n ∈ s.base.tasks → (s.base.seg.node n).refcount = 1 →
      links s.base.destroyed s.base.seg n = 0 ∧ (s.base.tasks ++ s.base.deferred).count (.release n) = 1 := by
  have hinv : Live c s.base ∧ Roomy s.base := by
    apply h.invariant
    · intro s hi
      have hl := hi.base.live
      obtain ⟨hst, -, hfin⟩ := State.stores_none hi.base.2.1
      refine ⟨hl, fun x => ?_⟩
      have hle := links_le_count s.base x
      have hb := hl.bounded x
      rw [hfin] at hle
      rw [hst, writes]
      omega
    · rintro s t - ⟨hl, hr⟩ ⟨hn, hs⟩
      obtain hm | he := hn.base
      · obtain ⟨hb, hr'⟩ := hl.room hr hm hs
        exact ⟨hl.step hm hb, hr'⟩
      · rw [he]
        exact ⟨hl, hr⟩
  obtain ⟨hl, hr⟩ := hinv
  refine ⟨fun x => ?_, fun n q d hlock => hl.acquire_ne hlock, fun n ht hone => hl.last_link ht hone⟩
  have hx := hr x
  omega

end Runs

section Wrap

open Guard

variable {c : Config Nat} {s : State Unit Nat Nat} {q : List (Store Nat Nat)} {v : Option Nat}

/-- A map that nobody has used, and no records. -/
def unused : State Unit Nat Nat := ⟨fresh, fun _ => [], [], 0⟩

theorem init_unused : Init (oneShard Nat) unused := ⟨init_fresh, fun _ => rfl, rfl, rfl⟩

theorem retired_apply_eq (seg : SegmentT Nat Nat) {st : Store Nat Nat} (h : ∀ l, st ≠ .retire l) :
    (seg.apply st).retired = seg.retired := by
  cases st with
  | retire l => exact absurd rfl (h l)
  | write loc p => cases loc <;> rfl
  | _ => rfl

/-- A section without `retire` makes its stores and unlocks. -/
theorem reachable_stores {R : State Unit Nat Nat → State Unit Nat Nat → Prop} {seg : SegmentT Nat Nat} {d : List Task}
    (hR : ∀ s t, s.base.lock ≠ none → Next c s t → R s t) (hq : ∀ st ∈ q, ∀ l, st ≠ .retire l)
    (h : Reachable (Init c) R { s with base := ⟨seg, some (q, d), s.base.tasks, s.base.destroyed⟩ }) :
    Reachable (Init c) R { s with base := ⟨seg.applyAll q, none, s.base.tasks ++ d, s.base.destroyed⟩ } := by
  induction q generalizing seg with
  | nil => exact h.tail (hR _ _ (by simp) ⟨(), .write _ _ (.unlock _ _ rfl) rfl rfl⟩)
  | cons st q ih =>
    rw [List.forall_mem_cons] at hq
    exact ih hq.2 (h.tail (hR _ _ (by simp) ⟨(), .write _ _ (.store _ st q d rfl) (retired_apply_eq _ hq.1) rfl⟩))

theorem reachable_section (k value : Nat) (h : Reachable (Init c) (Next c) s) (hl : s.base.lock = none)
    (hs : insertSection c s.base.seg k value = some (q, v)) (hq : ∀ st ∈ q, ∀ l, st ≠ .retire l) :
    Reachable (Init c) (Next c)
      { s with base := ⟨s.base.seg.applyAll q, none, s.base.tasks ++ releaseOf v, s.base.destroyed⟩ } :=
  reachable_stores (fun _ _ _ hn => hn) hq (h.tail ⟨(), .write _ _ (.insert _ k value (q, v) hl hs) rfl rfl⟩)

theorem reachable_sparing (k value : Nat) (h : Reachable (Init c) (SparingStep c) s) (hl : s.base.lock = none)
    (hs : insertSection c s.base.seg k value = some (q, v)) (hq : ∀ st ∈ q, ∀ l, st ≠ .retire l)
    (hc : ∀ x < s.base.seg.nodeCount, (s.base.seg.node x).refcount ≠ 65535) :
    Reachable (Init c) (SparingStep c)
      { s with base := ⟨s.base.seg.applyAll q, none, s.base.tasks ++ releaseOf v, s.base.destroyed⟩ } :=
  reachable_stores (fun _ _ hne hn => ⟨hn, fun h0 => absurd h0 hne⟩) hq
    (h.tail ⟨⟨(), .write _ _ (.insert _ k value (q, v) hl hs) rfl rfl⟩, fun _ x hx _ => hc x hx⟩)

/-- The node with the key 1 is replaced in front of the node with the key 0, and released. -/
theorem release_only_last_replaced : ∃ s : State Unit Nat Nat,
    Reachable (Init (oneShard Nat)) (SparingStep (oneShard Nat)) s ∧ .release 1 ∈ s.base.tasks ∧
      (s.base.seg.node 1).refcount = 1 ∧ (s.base.seg.node 0).refcount = 2 ∧
      links s.base.destroyed s.base.seg 0 ≤ 65535 ∧ links s.base.destroyed s.base.seg 1 = 0 := by
  have h₀ : Reachable (Init (oneShard Nat)) (SparingStep (oneShard Nat)) unused := .of_init init_unused
  have h₁ := reachable_sparing (v := none) (q := [.newNode 0 0, .setSize 1, .write (.next 0) none,
    .write (.head 0 0) (some 0)]) 0 0 h₀ rfl rfl (by simp) (by decide)
  have h₂ := reachable_sparing (v := none) (q := [.newNode 1 0, .setSize 2, .write (.next 1) (some 0),
    .write (.head 0 0) (some 1)]) 1 0 h₁ rfl rfl (by simp) (by decide)
  have h₃ := reachable_sparing (v := some 1) (q := [.newNode 1 1, .acquire 0, .write (.next 2) (some 0),
    .write (.head 0 0) (some 2)]) 1 1 h₂ rfl rfl (by simp) (by decide)
  have hmem : Task.release 1 ∈ [Task.release 1] := List.mem_singleton_self _
  exact ⟨_, h₃, hmem, rfl, rfl, (release_only_last h₃).1 0, ((release_only_last h₃).2.2 1 hmem rfl).1⟩

theorem reachable_records (n : Nat) : Reachable (Init (oneShard Nat)) (Next (oneShard Nat))
    { unused with hazptrCount := n } := by
  induction n with
  | zero => exact .of_init init_unused
  | succ n ih =>
    have hh := ih.tail ⟨(), .newRecord _⟩
    simpa using hh

/-- `m` replaced nodes wait in the private list of the only thread. -/
structure Piled (m : Nat) (s : State Unit Nat Nat) : Prop where
  stacked : Stacked m s.base
  hazptrCount : s.hazptrCount = 32768
  length : (s.priv ()).length = m
  mem : ∀ i, 0 < i → i ≤ m → some (.node i) ∈ s.priv ()

theorem Piled.insert {m : Nat} (h : Piled m s) (hr : Reachable (Init (oneShard Nat)) (Next (oneShard Nat)) s) :
    ∃ b, Stacked (m + 1) b ∧ Reachable (Init (oneShard Nat)) (Next (oneShard Nat))
      ({ s with base := b }.push () (some (.node (m + 1)))) := by
  have hst := h.stacked
  have hdone := reachable_section 1 0 hr hst.lock hst.insertSection_eq (by simp)
  rw [hst.tasks, List.nil_append] at hdone
  refine ⟨_, hst.insert, hdone.tail ⟨(), ?_⟩⟩
  have hone : ((s.base.seg.applyAll [.newNode 1 0, .acquire 0, .write (.next (m + 2)) (some 0),
      .write (.head 0 0) (some (m + 2))]).node (m + 1)).refcount = 1 := by
    have hlt : m + 1 ≠ s.base.seg.nodeCount := by
      rw [hst.nodeCount]
      omega
    simp [applyAll, SegmentT.apply, SegmentT.write, hlt, hst.front]
  have hrel : Move (oneShard Nat) _ _ := .release
    ⟨s.base.seg.applyAll [.newNode 1 0, .acquire 0, .write (.next (m + 2)) (some 0),
      .write (.head 0 0) (some (m + 2))], none, releaseOf (some (m + 1)), s.base.destroyed⟩ (m + 1) List.mem_cons_self
  refine .retire _ _ (.node (m + 1)) ?_ ?_
  · simpa [releaseOf, SegmentT.perform] using hrel
  · simp [SegmentT.perform, SegmentT.release, hone]

theorem reachable_piled (m : Nat) (hm : m < 65536) :
    ∃ s : State Unit Nat Nat, Reachable (Init (oneShard Nat)) (Next (oneShard Nat)) s ∧ Piled m s := by
  induction m with
  | zero =>
    have h₀ := reachable_records 32768
    have h₁ := reachable_section (v := none) (q := [.newNode 0 0, .setSize 1, .write (.next 0) none,
      .write (.head 0 0) (some 0)]) 0 0 h₀ rfl rfl (by simp)
    have h₂ := reachable_section (v := none) (q := [.newNode 1 0, .setSize 2, .write (.next 1) (some 0),
      .write (.head 0 0) (some 1)]) 1 0 h₁ rfl rfl (by simp)
    refine ⟨_, h₂, ?_, rfl, rfl, fun i hi hle => by omega⟩
    constructor <;> try rfl
    · decide
    · intro i hi hle
      obtain rfl : i = 1 := by omega
      rfl
    · intro i hi hle
      omega
  | succ m ih =>
    obtain ⟨s, hr, hp⟩ := ih (by omega)
    obtain ⟨b, hb, hr'⟩ := hp.insert hr
    have hno : ¬ State.reachedThreshold { s with base := b } ((s.priv ()).length + 1) := by
      rintro ⟨-, hge⟩
      rw [hp.length, hp.hazptrCount, Hazptr.scanMult] at hge
      omega
    rw [State.push, if_neg hno] at hr'
    refine ⟨_, hr', hb, hp.hazptrCount, ?_, fun i hi hle => ?_⟩
    · simp [hp.length]
    · by_cases he : i = m + 1
      · simp [he]
      · simp [hp.mem i hi (by omega)]

theorem le_links_of_stacked {m : Nat} {b : Reclaim.State Nat Nat} (h : Stacked m b) :
    m ≤ links [.node 1] b.seg 0 := by
  have hcard : ((Finset.range m).image fun i => Loc.next (i + 2)).card = m := by
    rw [Finset.card_image_of_injective _ (fun i j hij => by simpa using hij), Finset.card_range]
  have hsub : (Finset.range m).image (fun i => Loc.next (i + 2)) ⊆ locs [.node 1] b.seg := by
    intro loc hloc
    obtain ⟨i, hi, rfl⟩ := Finset.mem_image.1 hloc
    rw [Finset.mem_range] at hi
    refine mem_locs.2 ⟨?_, by simp [Loc.owner]⟩
    rw [Allocated, h.nodeCount]
    omega
  have hle := card_le_tally (f := b.seg.read) (y := 0) hsub (by
    intro loc hloc
    obtain ⟨i, hi, rfl⟩ := Finset.mem_image.1 hloc
    rw [Finset.mem_range] at hi
    exact h.next (i + 2) (by omega) (by omega))
  exact hcard.symm.le.trans hle

/-- With 32768 records the list is flushed when 65536 nodes wait. The node
behind them then has 65537 links and the count one; the destructor of the first
of the nodes calls `release`, which finds that count. -/
theorem release_not_last : ∃ s : State Unit Nat Nat,
    Reachable (Init (oneShard Nat)) (Next (oneShard Nat)) s ∧ 65535 < links s.base.destroyed s.base.seg 0 ∧
      .release 0 ∈ s.base.tasks ∧ (s.base.seg.node 0).refcount = 1 := by
  obtain ⟨s, hr, hp⟩ := reachable_piled 65535 (by omega)
  obtain ⟨b, hb, hr'⟩ := hp.insert hr
  have hyes : State.reachedThreshold { s with base := b } ((s.priv ()).length + 1) := by
    rw [State.reachedThreshold, hp.length, hp.hazptrCount, Hazptr.scanMult, Hazptr.scanThreshold]
    omega
  rw [State.push, if_pos hyes] at hr'
  have hd : Move (oneShard Nat) b _ := .destroyNode b 1 (hb.retired 1 (by omega) (by omega)) (by simp [hb.destroyed])
  have h₁ := hr'.tail ⟨(), .delete _ _ (.node 1) hd rfl (by
    simp [State.pushAlltoDomain, List.reduceOption_mem_iff, hp.mem 1 (by omega) (by omega)])⟩
  refine ⟨_, h₁, ?_, ?_, ?_⟩
  · have hl := le_links_of_stacked hb
    change 65535 < links (.node 1 :: b.destroyed) b.seg 0
    rw [hb.destroyed]
    omega
  · change .release 0 ∈ b.tasks ++ releaseOf (b.seg.next 1)
    rw [hb.next 1 (by omega) (by omega)]
    simp [releaseOf]
  · change (b.seg.node 0).refcount = 1
    rw [hb.count]
    decide

end Wrap

end Refcount

end Wizard.HashMap
