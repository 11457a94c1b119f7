import Wizard.HashMapGuards

/-! Overlapping calls of `clear` and `insert` on one segment. A mutex section is
one step; `clear` also takes its list, makes the new one and retires the old
one in steps of their own. -/

namespace Wizard.HashMap

open SegmentT

variable {Key Value : Type}

section Effect

variable {c : Config Key} {s : SegmentT Key Value} {q : List (Store Key Value)}

/-- Stores that neither make, publish nor retire a bucket list. -/
theorem applyAll_plain (hq : ∀ st ∈ q, ∀ l, (∀ bl, st ≠ .newList bl) ∧ st ≠ .publish l ∧ st ≠ .retire l) :
    (s.applyAll q).bucketList = s.bucketList ∧ (s.applyAll q).listCount = s.listCount ∧
      (s.applyAll q).retired = s.retired := by
  induction q generalizing s with
  | nil => exact ⟨rfl, rfl, rfl⟩
  | cons st q ih =>
    rw [List.forall_mem_cons] at hq
    obtain ⟨h₁, h₂, h₃⟩ := ih (s := s.apply st) hq.2
    have hst : (s.apply st).bucketList = s.bucketList ∧ (s.apply st).listCount = s.listCount ∧
        (s.apply st).retired = s.retired := by
      cases st with
      | newList bl => exact absurd rfl ((hq.1 0).1 bl)
      | publish l => exact absurd rfl (hq.1 l).2.1
      | retire l => exact absurd rfl (hq.1 l).2.2
      | write loc p => cases loc <;> exact ⟨rfl, rfl, rfl⟩
      | _ => exact ⟨rfl, rfl, rfl⟩
    exact ⟨h₁.trans hst.1, h₂.trans hst.2.1, h₃.trans hst.2.2⟩

/-- A section that does not rehash leaves the bucket lists alone; one that does
retires the list that it replaces. -/
theorem growStores_effect {grow : List (Store Key Value)} (hg : growStores c s = some grow) :
    ((s.applyAll grow).bucketList = s.bucketList ∧ (s.applyAll grow).listCount = s.listCount ∧
      (s.applyAll grow).retired = s.retired) ∨
    ((s.applyAll grow).bucketList = s.listCount ∧ (s.applyAll grow).listCount = s.listCount + 1 ∧
      (s.applyAll grow).retired = .list s.bucketList :: s.retired) := by
  rw [growStores] at hg
  split at hg
  · obtain ⟨bl, -, -, rfl⟩ := rehashStores_eq hg
    rw [applyAll_append, fillStores, applyAll_append]
    set s₀ := s.applyAll [.setThreshold (c.threshold bl.bucketCount), .newList bl] with hs₀
    have hcopy : ∀ st ∈ copyStores c s.listCount s₀ s.sources, ∀ l,
        (∀ bl, st ≠ .newList bl) ∧ st ≠ .publish l ∧ st ≠ .retire l := by
      intro st hst l
      obtain ⟨k, value, rfl⟩ | ⟨loc, p, rfl⟩ := copyStores_shape _ _ hst <;> simp
    obtain ⟨-, hl, hr⟩ := applyAll_plain hcopy (s := s₀)
    exact .inr ⟨rfl, hl, congrArg (Obj.list s.bucketList :: ·) hr⟩
  · cases hg
    exact .inl ⟨rfl, rfl, rfl⟩

theorem insertSection_effect [DecidableEq Key] {k : Key} {value : Value}
    {sec : List (Store Key Value) × Option Nat} (hs : insertSection c s k value = some sec) :
    ((s.applyAll sec.1).bucketList = s.bucketList ∧ (s.applyAll sec.1).listCount = s.listCount ∧
      (s.applyAll sec.1).retired = s.retired) ∨
    ((s.applyAll sec.1).bucketList = s.listCount ∧ (s.applyAll sec.1).listCount = s.listCount + 1 ∧
      (s.applyAll sec.1).retired = .list s.bucketList :: s.retired) := by
  obtain ⟨grow, hg, rfl⟩ := Option.map_eq_some_iff.1 hs
  have hlink := linkStores_plain (c := c) ((s.apply (.newNode k value)).applyAll grow) k s.nodeCount
  have hfin : s.applyAll (.newNode k value :: grow ++
      (linkStores c ((s.apply (.newNode k value)).applyAll grow) k s.nodeCount).1) =
      ((s.apply (.newNode k value)).applyAll grow).applyAll
        (linkStores c ((s.apply (.newNode k value)).applyAll grow) k s.nodeCount).1 := applyAll_append grow _
  obtain ⟨hb, hl, hr⟩ := applyAll_plain hlink (s := (s.apply (.newNode k value)).applyAll grow)
  simp only [hfin, hb, hl, hr]
  exact growStores_effect hg

end Effect

namespace Clears

inductive Clearing where
  | idle
  | loaded (old : Nat)
  | made (old new : Nat)
  | published (old : Nat)

/-- `past` are the lists that `bucket_list_` has stopped pointing to. -/
structure State (Key Value : Type) where
  seg : SegmentT Key Value
  clears : Nat → Clearing
  releases : List Nat
  past : List Nat

section Machine

variable [DecidableEq Key] (c : Config Key)

inductive Step : State Key Value → State Key Value → Prop
  | insert (s k value sec) (hs : insertSection c s.seg k value = some sec) :
      Step s { s with
        seg := s.seg.applyAll sec.1, releases := sec.2.toList ++ s.releases,
        past := if (s.seg.applyAll sec.1).bucketList = s.seg.bucketList then s.past
          else s.seg.bucketList :: s.past }
  | release (s n) (hn : n ∈ s.releases) :
      Step s { s with seg := s.seg.release n, releases := s.releases.erase n }
  | load (s i) (hi : s.clears i = .idle) :
      Step s { s with clears := Function.update s.clears i (.loaded s.seg.bucketList) }
  | make (s i old) (hi : s.clears i = .loaded old) :
      Step s { s with
        seg := s.seg.apply (.newList { s.seg.list old with head := fun _ => none }),
        clears := Function.update s.clears i (.made old s.seg.listCount) }
  | exchange (s i old new) (hi : s.clears i = .made old new) :
      Step s { s with
        seg := s.seg.applyAll [.publish new, .setSize 0],
        clears := Function.update s.clears i (.published old), past := s.seg.bucketList :: s.past }
  | retire (s i old) (hi : s.clears i = .published old) :
      Step s { s with
        seg := s.seg.apply (.retire old), clears := Function.update s.clears i .idle }

/-- When a `clear` takes the mutex, `bucket_list_` is still the list that it
has loaded. -/
def Calm (s t : State Key Value) : Prop :=
  ∀ i old new, s.clears i = .made old new → t.clears i = .published old → s.seg.bucketList = old

def CalmStep (s t : State Key Value) : Prop := Step c s t ∧ Calm s t

def Init [Inhabited Key] [Inhabited Value] (s : State Key Value) : Prop :=
  (∃ count : BitVec 64, count.toNat ≤ 2 ^ 63 ∧ SegmentT.make c count = some s.seg) ∧
    (∀ i, s.clears i = .idle) ∧ s.releases = [] ∧ s.past = []

end Machine

/-- The lists that `bucket_list_` has stopped pointing to are retired once, and
no others. -/
structure Once (s : State Key Value) : Prop where
  once : ∀ l, s.seg.retired.count (.list l) ≤ 1
  after : ∀ l, .list l ∈ s.seg.retired → l ∈ s.past ∧ l ≠ s.seg.bucketList
  all : ∀ l ∈ s.past, .list l ∈ s.seg.retired ∨ ∃ i, s.clears i = .published l

section Inv

variable {c : Config Key} {s t : State Key Value}

structure Inv (s : State Key Value) : Prop where
  current : s.seg.bucketList < s.seg.listCount
  past : ∀ l ∈ s.past, l < s.seg.listCount ∧ l ≠ s.seg.bucketList
  once : ∀ l, s.seg.retired.count (.list l) ≤ 1
  done : ∀ l, .list l ∈ s.seg.retired → l ∈ s.past ∧ ∀ i, s.clears i ≠ .published l
  owed : ∀ l ∈ s.past, .list l ∈ s.seg.retired ∨ ∃ i, s.clears i = .published l
  published : ∀ i l, s.clears i = .published l → l ∈ s.past ∧ ∀ j, s.clears j = .published l → j = i
  made : ∀ i old new, s.clears i = .made old new →
    new < s.seg.listCount ∧ new ≠ s.seg.bucketList ∧ new ∉ s.past ∧ ∀ j o, s.clears j = .made o new → j = i

theorem Inv.spec (h : Inv s) : Once s :=
  ⟨h.once, fun l hl => ⟨(h.done l hl).1, (h.past l (h.done l hl).1).2⟩, h.owed⟩

theorem update_published {f : Nat → Clearing} {i j l : Nat} {x : Clearing} (hx : ∀ l, x ≠ .published l)
    (h : Function.update f i x j = .published l) : f j = .published l := by
  by_cases hj : j = i
  · subst hj
    rw [Function.update_self] at h
    exact absurd h (hx l)
  · rwa [Function.update_of_ne hj] at h

theorem update_made {f : Nat → Clearing} {i j old new : Nat} {x : Clearing} (hx : ∀ o n, x ≠ .made o n)
    (h : Function.update f i x j = .made old new) : f j = .made old new := by
  by_cases hj : j = i
  · subst hj
    rw [Function.update_self] at h
    exact absurd h (hx old new)
  · rwa [Function.update_of_ne hj] at h

theorem Inv.local {i : Nat} {x : Clearing} (h : Inv s) (hx : ∀ l, x ≠ .published l)
    (hm : ∀ o n, x ≠ .made o n) (hi : ∀ l, s.clears i ≠ .published l) :
    Inv { s with clears := Function.update s.clears i x } := by
  obtain ⟨hcur, hpast, honce, hdone, howed, hpub, hmade⟩ := h
  refine ⟨hcur, hpast, honce, fun l hl => ⟨(hdone l hl).1, fun j hj => ?_⟩, fun l hl => ?_, fun j l hj => ?_,
    fun j o n hj => ?_⟩
  · exact (hdone l hl).2 j (update_published hx hj)
  · refine (howed l hl).imp_right fun ⟨j, hj⟩ => ⟨j, ?_⟩
    have hne : j ≠ i := fun he => hi l (he ▸ hj)
    exact (Function.update_of_ne hne _ _).trans hj
  · obtain ⟨hl, hu⟩ := hpub j l (update_published hx hj)
    exact ⟨hl, fun j' hj' => hu j' (update_published hx hj')⟩
  · obtain ⟨h₁, h₂, h₃, hu⟩ := hmade j o n (update_made hm hj)
    exact ⟨h₁, h₂, h₃, fun j' o' hj' => hu j' o' (update_made hm hj')⟩

theorem Inv.grow {seg : SegmentT Key Value} {r : List Nat} (h : Inv s) (hb : seg.bucketList = s.seg.bucketList)
    (hl : s.seg.listCount ≤ seg.listCount)
    (hr : ∀ l, seg.retired.count (.list l) = s.seg.retired.count (.list l)) :
    Inv { s with seg := seg, releases := r } := by
  obtain ⟨hcur, hpast, honce, hdone, howed, hpub, hmade⟩ := h
  have hmem : ∀ l, .list l ∈ seg.retired ↔ .list l ∈ s.seg.retired := fun l => by
    rw [← List.count_pos_iff, hr, List.count_pos_iff]
  refine ⟨hb ▸ hcur.trans_le hl, fun l hp => ?_, fun l => (hr l).trans_le (honce l),
    fun l hm => hdone l ((hmem l).1 hm), fun l hp => (howed l hp).imp_left (hmem l).2, hpub,
    fun i o n hi => ?_⟩
  · obtain ⟨h₁, h₂⟩ := hpast l hp
    exact ⟨h₁.trans_le hl, hb ▸ h₂⟩
  · obtain ⟨h₁, h₂, h₃⟩ := hmade i o n hi
    exact ⟨h₁.trans_le hl, hb ▸ h₂, h₃⟩

theorem Inv.rehash {seg : SegmentT Key Value} {r : List Nat} (h : Inv s) (hb : seg.bucketList = s.seg.listCount)
    (hl : seg.listCount = s.seg.listCount + 1) (hr : seg.retired = .list s.seg.bucketList :: s.seg.retired) :
    Inv { s with seg := seg, releases := r, past := s.seg.bucketList :: s.past } := by
  obtain ⟨hcur, hpast, honce, hdone, howed, hpub, hmade⟩ := h
  have hnew : .list s.seg.bucketList ∉ s.seg.retired := fun hm => (hpast _ (hdone _ hm).1).2 rfl
  have hnone : ∀ i, s.clears i ≠ .published s.seg.bucketList := fun i hi => (hpast _ (hpub i _ hi).1).2 rfl
  constructor
  case current =>
    change seg.bucketList < seg.listCount
    omega
  case past =>
    intro l hp
    change l < seg.listCount ∧ l ≠ seg.bucketList
    obtain rfl | hp := List.mem_cons.1 hp
    · omega
    · have hlt := (hpast l hp).1
      omega
  case once =>
    intro l
    change seg.retired.count (.list l) ≤ 1
    rw [hr]
    by_cases he : s.seg.bucketList = l
    · subst he
      rw [List.count_cons_self, List.count_eq_zero.2 hnew]
    · rw [List.count_cons_of_ne (by simpa using he)]
      exact honce l
  case done =>
    intro l hm
    change .list l ∈ seg.retired at hm
    rw [hr] at hm
    obtain he | hm := List.mem_cons.1 hm
    · cases he
      exact ⟨List.mem_cons_self, hnone⟩
    · exact ⟨List.mem_cons_of_mem _ (hdone l hm).1, (hdone l hm).2⟩
  case owed =>
    intro l hp
    change .list l ∈ seg.retired ∨ _
    rw [hr]
    obtain rfl | hp := List.mem_cons.1 hp
    · exact .inl List.mem_cons_self
    · exact (howed l hp).imp_left (List.mem_cons_of_mem _)
  case published =>
    intro i l hi
    exact ⟨List.mem_cons_of_mem _ (hpub i l hi).1, (hpub i l hi).2⟩
  case made =>
    intro i o n hi
    obtain ⟨h₁, h₂, h₃, h₄⟩ := hmade i o n hi
    change n < seg.listCount ∧ n ≠ seg.bucketList ∧ _
    refine ⟨by omega, by omega, fun hm => ?_, h₄⟩
    obtain he | hm := List.mem_cons.1 hm
    · exact h₂ he
    · exact h₃ hm

theorem Inv.make {i old : Nat} (h : Inv s) (hi : s.clears i = .loaded old) (bl : BucketList) :
    Inv { s with
      seg := s.seg.apply (.newList bl),
      clears := Function.update s.clears i (.made old s.seg.listCount) } := by
  have hg : Inv { s with seg := s.seg.apply (.newList bl) } :=
    h.grow rfl (Nat.le_succ _) (fun _ => rfl)
  obtain ⟨hcur, hpast, honce, hdone, howed, hpub, hmade⟩ := hg
  have hx : ∀ l, Clearing.made old s.seg.listCount ≠ .published l := fun l => by simp
  refine ⟨hcur, hpast, honce, fun l hl => ⟨(hdone l hl).1, fun j hj => ?_⟩, fun l hl => ?_, fun j l hj => ?_,
    fun j o n hj => ?_⟩
  · exact (hdone l hl).2 j (update_published hx hj)
  · refine (howed l hl).imp_right fun ⟨j, hj⟩ => ⟨j, ?_⟩
    have hne : j ≠ i := by
      rintro rfl
      cases hi.symm.trans hj
    exact (Function.update_of_ne hne _ _).trans hj
  · obtain ⟨hl, hu⟩ := hpub j l (update_published hx hj)
    exact ⟨hl, fun j' hj' => hu j' (update_published hx hj')⟩
  · have hlt : ∀ j o, s.clears j ≠ .made o s.seg.listCount :=
      fun j o hj => (h.made j o _ hj).1.ne rfl
    by_cases hji : j = i
    · subst hji
      have hn : Clearing.made old s.seg.listCount = .made o n := (Function.update_self j _ _).symm.trans hj
      cases hn
      refine ⟨Nat.lt_succ_self _, fun he => ?_, fun hp => (h.past _ hp).1.ne rfl, fun j' o' hj' => ?_⟩
      · exact h.current.ne he.symm
      · by_contra hne
        exact hlt j' o' ((Function.update_of_ne hne _ _).symm.trans hj')
    · have hj' : s.clears j = .made o n := (Function.update_of_ne hji _ _).symm.trans hj
      obtain ⟨h₁, h₂, h₃, hu⟩ := hmade j o n hj'
      refine ⟨h₁, h₂, h₃, fun j' o' hj'' => ?_⟩
      by_cases hj'i : j' = i
      · subst hj'i
        have hn : Clearing.made old s.seg.listCount = .made o' n := (Function.update_self j' _ _).symm.trans hj''
        cases hn
        exact absurd hj' (hlt j o)
      · exact hu j' o' ((Function.update_of_ne hj'i _ _).symm.trans hj'')

/-- The section of a `clear` that still finds the list that it has loaded. -/
theorem Inv.exchange {i new : Nat} (h : Inv s) (hi : s.clears i = .made s.seg.bucketList new) :
    Inv { s with
      seg := s.seg.applyAll [.publish new, .setSize 0],
      clears := Function.update s.clears i (.published s.seg.bucketList),
      past := s.seg.bucketList :: s.past } := by
  obtain ⟨hcur, hpast, honce, hdone, howed, hpub, hmade⟩ := h
  have hnone : ∀ j, s.clears j ≠ .published s.seg.bucketList := fun j hj => (hpast _ (hpub j _ hj).1).2 rfl
  obtain ⟨hn₁, hn₂, hn₃, hn₄⟩ := hmade i _ new hi
  have hcase : ∀ j l, Function.update s.clears i (.published s.seg.bucketList) j = .published l →
      (j = i ∧ l = s.seg.bucketList) ∨ (j ≠ i ∧ s.clears j = .published l) := by
    intro j l hj
    by_cases hji : j = i
    · subst hji
      rw [Function.update_self] at hj
      cases hj
      exact .inl ⟨rfl, rfl⟩
    · rw [Function.update_of_ne hji] at hj
      exact .inr ⟨hji, hj⟩
  constructor
  case current => exact hn₁
  case past =>
    intro l hp
    change l < s.seg.listCount ∧ l ≠ new
    obtain rfl | hp := List.mem_cons.1 hp
    · exact ⟨hcur, hn₂.symm⟩
    · exact ⟨(hpast l hp).1, fun he => hn₃ (he ▸ hp)⟩
  case once => exact honce
  case done =>
    intro l hm
    refine ⟨List.mem_cons_of_mem _ (hdone l hm).1, fun j hj => ?_⟩
    obtain ⟨-, rfl⟩ | ⟨-, hj⟩ := hcase j l hj
    · exact (hpast _ (hdone _ hm).1).2 rfl
    · exact (hdone l hm).2 j hj
  case owed =>
    intro l hp
    obtain rfl | hp := List.mem_cons.1 hp
    · exact .inr ⟨i, Function.update_self i _ _⟩
    · refine (howed l hp).imp_right fun ⟨j, hj⟩ => ⟨j, ?_⟩
      have hne : j ≠ i := by
        rintro rfl
        cases hi.symm.trans hj
      exact (Function.update_of_ne hne _ _).trans hj
  case published =>
    intro j l hj
    obtain ⟨rfl, rfl⟩ | ⟨hji, hj⟩ := hcase j l hj
    · refine ⟨List.mem_cons_self, fun j' hj' => ?_⟩
      obtain ⟨rfl, -⟩ | ⟨-, hj'⟩ := hcase j' _ hj'
      · rfl
      · exact absurd hj' (hnone j')
    · refine ⟨List.mem_cons_of_mem _ (hpub j l hj).1, fun j' hj' => ?_⟩
      obtain ⟨-, rfl⟩ | ⟨-, hj'⟩ := hcase j' _ hj'
      · exact absurd hj (hnone j)
      · exact (hpub j l hj).2 j' hj'
  case made =>
    intro j o n hj
    have hji : j ≠ i := by
      rintro rfl
      cases (Function.update_self j _ _).symm.trans hj
    have hj' : s.clears j = .made o n := (Function.update_of_ne hji _ _).symm.trans hj
    obtain ⟨h₁, h₂, h₃, h₄⟩ := hmade j o n hj'
    have hnn : n ≠ new := by
      rintro rfl
      exact hji (hn₄ j o hj')
    refine ⟨h₁, hnn, fun hm => ?_, fun j' o' hj'' => h₄ j' o' (update_made (by simp) hj'')⟩
    obtain rfl | hm := List.mem_cons.1 hm
    · exact h₂ rfl
    · exact h₃ hm

theorem Inv.retire {i old : Nat} (h : Inv s) (hi : s.clears i = .published old) :
    Inv { s with seg := s.seg.apply (.retire old), clears := Function.update s.clears i .idle } := by
  obtain ⟨hcur, hpast, honce, hdone, howed, hpub, hmade⟩ := h
  have hnew : .list old ∉ s.seg.retired := fun hm => (hdone _ hm).2 i hi
  obtain ⟨hold, huniq⟩ := hpub i old hi
  have hx : ∀ l, Clearing.idle ≠ .published l := fun l => by simp
  have hm : ∀ o n, Clearing.idle ≠ .made o n := fun o n => by simp
  constructor
  case current => exact hcur
  case past => exact hpast
  case once =>
    intro l
    change (Obj.list old :: s.seg.retired).count (.list l) ≤ 1
    by_cases he : old = l
    · subst he
      rw [List.count_cons_self, List.count_eq_zero.2 hnew]
    · rw [List.count_cons_of_ne (by simpa using he)]
      exact honce l
  case done =>
    intro l hl
    obtain he | hl := List.mem_cons.1 hl
    · cases he
      refine ⟨hold, fun j hj => ?_⟩
      have hji := huniq j (update_published hx hj)
      subst hji
      cases (Function.update_self j _ _).symm.trans hj
    · exact ⟨(hdone l hl).1, fun j hj => (hdone l hl).2 j (update_published hx hj)⟩
  case owed =>
    intro l hp
    obtain hl | ⟨j, hj⟩ := howed l hp
    · exact .inl (List.mem_cons_of_mem _ hl)
    · by_cases hji : j = i
      · subst hji
        cases hi.symm.trans hj
        exact .inl List.mem_cons_self
      · exact .inr ⟨j, (Function.update_of_ne hji _ _).trans hj⟩
  case published =>
    intro j l hj
    obtain ⟨hl, hu⟩ := hpub j l (update_published hx hj)
    exact ⟨hl, fun j' hj' => hu j' (update_published hx hj')⟩
  case made =>
    intro j o n hj
    obtain ⟨h₁, h₂, h₃, hu⟩ := hmade j o n (update_made hm hj)
    exact ⟨h₁, h₂, h₃, fun j' o' hj' => hu j' o' (update_made hm hj')⟩

variable [DecidableEq Key]

theorem Inv.step (h : Inv s) (hs : CalmStep c s t) : Inv t := by
  obtain ⟨hst, hcalm⟩ := hs
  cases hst with
  | insert k value sec hs =>
    obtain ⟨hb, hl, hr⟩ | ⟨hb, hl, hr⟩ := insertSection_effect hs
    · rw [if_pos hb]
      exact h.grow hb hl.ge (fun l => by rw [hr])
    · have hne : ¬ (s.seg.applyAll sec.1).bucketList = s.seg.bucketList := by
        rw [hb]
        exact h.current.ne'
      rw [if_neg hne]
      exact h.rehash hb hl hr
  | release n hn =>
    refine h.grow rfl le_rfl (fun l => ?_)
    simp only [SegmentT.release]
    split
    · exact List.count_cons_of_ne (by simp)
    · rfl
  | load i hi => exact h.local (by simp) (by simp) (by simp [hi])
  | make i old hi => exact h.make hi _
  | exchange i old new hi =>
    obtain rfl := hcalm i old new hi (Function.update_self i _ _)
    exact h.exchange hi
  | retire i old hi => exact h.retire hi

variable [Inhabited Key] [Inhabited Value]

omit [DecidableEq Key] in
theorem Init.inv (h : Init c s) : Inv s := by
  obtain ⟨⟨count, -, hs⟩, hc, hr, hp⟩ := h
  obtain ⟨bl, -, hseg⟩ := Option.map_eq_some_iff.1 hs
  have hret : s.seg.retired = [] := by rw [← hseg]
  refine ⟨by rw [← hseg]; exact Nat.one_pos, ?_, ?_, ?_, ?_, ?_, ?_⟩ <;> simp [hp, hret, hc]

/-- When every `clear` finds the list that it has loaded, each list is retired
once, after `bucket_list_` has stopped pointing to it. -/
theorem lists_retired_once (h : Reachable (Init c) (CalmStep c) s) : Once s := by
  apply Inv.spec
  apply h.invariant
  · exact fun s hi => hi.inv
  · exact fun s t _ hi hst => hi.step hst

def fresh : State Nat Nat where
  seg := Reclaim.fresh.seg
  clears _ := .idle
  releases := []
  past := []

theorem init_fresh : Init (oneShard Nat) fresh := ⟨⟨4, by decide, rfl⟩, fun _ => rfl, rfl, rfl⟩

theorem calm_of_alone {s t : State Nat Nat} {x : Clearing} (hc : s.clears = Function.update (fun _ => .idle) 0 x)
    (hx : ∀ o n, x = .made o n → s.seg.bucketList = o) : Calm s t := by
  intro i old new hi _
  rw [hc] at hi
  by_cases h0 : i = 0
  · subst h0
    rw [Function.update_self] at hi
    exact hx old new hi
  · rw [Function.update_of_ne h0] at hi
    cases hi

/-- One `clear` alone. -/
theorem lists_retired_once_alone : ∃ s : State Nat Nat, Reachable (Init (oneShard Nat)) (CalmStep (oneShard Nat)) s ∧
    s.seg.retired = [.list 0] ∧ Once s := by
  have h₀ : Reachable (Init (oneShard Nat)) (CalmStep (oneShard Nat)) fresh := .of_init init_fresh
  have h₁ := h₀.tail ⟨.load _ 0 rfl, fun i o n hi _ => by cases hi⟩
  have h₂ := h₁.tail ⟨.make _ 0 0 rfl, calm_of_alone rfl (fun o n hx => by cases hx)⟩
  have h₃ := h₂.tail ⟨.exchange _ 0 0 1 rfl, calm_of_alone (x := .made 0 1) (Function.update_idem _ _ _)
    (fun o n hx => by cases hx; rfl)⟩
  have h₄ := h₃.tail ⟨.retire _ 0 0 rfl, calm_of_alone (x := .published 0)
    (by simp only [Function.update_idem]; rfl) (fun o n hx => by cases hx)⟩
  exact ⟨_, h₄, rfl, lists_retired_once h₄⟩

/-- Two calls of `clear` load the list 0. Both retire it, and neither retires
the list 1. -/
theorem lists_retired_twice : ∃ s : State Nat Nat, Reachable (Init (oneShard Nat)) (Step (oneShard Nat)) s ∧
    s.seg.retired = [.list 0, .list 0] ∧ 1 ∈ s.past ∧ ¬ Once s := by
  have h₀ : Reachable (Init (oneShard Nat)) (Step (oneShard Nat)) fresh := .of_init init_fresh
  have h₁ := h₀.tail (.load _ 0 rfl)
  have h₂ := h₁.tail (.load _ 1 rfl)
  have h₃ := h₂.tail (.make _ 0 0 rfl)
  have h₄ := h₃.tail (.make _ 1 0 rfl)
  have h₅ := h₄.tail (.exchange _ 0 0 1 rfl)
  have h₆ := h₅.tail (.exchange _ 1 0 2 rfl)
  have h₇ := h₆.tail (.retire _ 0 0 rfl)
  have h₈ := h₇.tail (.retire _ 1 0 rfl)
  refine ⟨_, h₈, rfl, by decide, fun hno => ?_⟩
  have hh := hno.once 0
  revert hh
  decide

end Inv

end Clears

end Wizard.HashMap
