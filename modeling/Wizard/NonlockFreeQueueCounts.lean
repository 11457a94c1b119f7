import Mathlib.Data.Fintype.Basic
import Mathlib.Tactic.Ring
import Wizard.NonlockFreeQueueLinks

/-! Counts and references. Every external counter that is not given up yet, and
every internal count, adds up to the references that threads hold; the node of
the constructor starts with two too few. -/

namespace Wizard.NonlockFreeQueue

variable {T Tid : Type} {s t : State T Tid} {p : Pc T} {i j : Tid} {a b n : Nat}

/-- What an external counter at `c` adds to the references to `a`. -/
def share (c : CountedNodePtr) (a : Nat) : BitVec 30 :=
  if c.ptr = some a then c.externalCount.setWidth 30 - 1 else 0

/-- The node whose external counter the thread has still to give up. -/
def Pc.owes (p : Pc T) : Option Nat := p.owed.bind CountedNodePtr.ptr

def Pc.share (p : Pc T) (a : Nat) : BitVec 30 := p.owed.elim 0 (NonlockFreeQueue.share · a)

theorem toNat_natCast (h : n < 2 ^ 30) : (n : BitVec 30).toNat = n := by
  rw [BitVec.natCast_eq_ofNat, BitVec.toNat_ofNat, Nat.mod_eq_of_lt h]

theorem share_first (n a : Nat) : share (.first n) a = 0 := by
  rw [share]
  split
  · change (1 : BitVec 32).setWidth 30 - 1 = 0
    decide
  · rfl

theorem share_increase (c : CountedNodePtr) (a : Nat) : share c.increase a = share c a + (hit c.ptr a : BitVec 30) := by
  by_cases hc : c.ptr = some a
  · simp only [share, CountedNodePtr.increase, hit, hc, if_true]
    rw [BitVec.setWidth_add _ _ (by decide)]
    grind
  · simp [share, CountedNodePtr.increase, hit, hc]

theorem Pc.share_eq_zero (h : p.owes ≠ some a) : p.share a = 0 := by
  rw [Pc.share]
  rw [Pc.owes] at h
  cases ho : p.owed with
  | none => rfl
  | some c =>
    rw [ho] at h
    exact if_neg h

/-- A thread that has a counter to give up holds a reference by it. -/
theorem Pc.held_of_owes (h : p.owes = some a) : p.held = some a := by
  cases p <;> first | exact h | cases h

namespace State

variable [Fintype Tid]

def refs (s : State T Tid) (a : Nat) : Nat := tally Finset.univ (fun i => (s.pc i).held) a

def news (s : State T Tid) (a : Nat) : Nat := tally Finset.univ (fun i => (s.pc i).newNode) a

def debts (s : State T Tid) (a : Nat) : Nat := tally Finset.univ (fun i => (s.pc i).owes) a

def shares (s : State T Tid) (a : Nat) : BitVec 30 := ∑ i, (s.pc i).share a

/-- What refers to the node. -/
def uses (s : State T Tid) (a : Nat) : Nat := s.front.count a + hit s.tail.ptr a + s.news a + s.refs a

theorem uses_pos [DecidableEq Tid] : 0 < s.uses a ↔ s.InUse a := by
  constructor
  · intro h
    by_cases hf : a ∈ s.front
    · exact .inl (.inl hf)
    · by_cases ht : s.tail.ptr = some a
      · exact .inl (.inr ht)
      · have hz : s.front.count a = 0 := List.count_eq_zero.2 hf
        have hh : hit s.tail.ptr a = 0 := if_neg ht
        rw [uses, hz, hh, Nat.zero_add] at h
        by_cases hn : 0 < s.news a
        · obtain ⟨i, -, hi⟩ := exists_of_tally_pos hn
          exact .inr (.inl ⟨i, hi⟩)
        · obtain ⟨i, -, hi⟩ := exists_of_tally_pos (show 0 < s.refs a by omega)
          exact .inr (.inr ⟨i, hi⟩)
  · intro h
    rw [uses]
    obtain (h | h) | ⟨i, h⟩ | ⟨i, h⟩ := h
    · have hc := List.count_pos_iff.2 h
      omega
    · rw [h, hit_self]
      omega
    · have hp : 0 < s.news a := tally_pos (Finset.mem_univ i) h
      omega
    · have hp : 0 < s.refs a := tally_pos (Finset.mem_univ i) h
      omega

theorem debts_le_refs (s : State T Tid) (a : Nat) : s.debts a ≤ s.refs a := by
  refine Finset.sum_le_sum (fun i _ => ?_)
  rw [hit]
  split
  case isTrue h =>
    have hheld : (s.pc i).held = some a := Pc.held_of_owes h
    exact (hit_pos.2 hheld)
  case isFalse => exact Nat.zero_le _

theorem shares_eq_zero [DecidableEq Tid] (h : s.debts a = 0) : s.shares a = 0 := by
  refine Finset.sum_eq_zero (fun i _ => Pc.share_eq_zero (fun hi => ?_))
  have hp : 0 < s.debts a := tally_pos (Finset.mem_univ i) hi
  omega

section Update

variable [DecidableEq Tid]

theorem sum_pc {M : Type} [AddCommMonoid M] (f : Pc T → M) (hpc : t.pc = Function.update s.pc i p) :
    ∑ j, f (t.pc j) + f (s.pc i) = ∑ j, f (s.pc j) + f p := by
  have hh := sum_change (S := Finset.univ) (u := fun j => f (s.pc j)) (v := fun j => f (t.pc j)) (Finset.mem_univ i)
    (fun j _ hj => by rw [hpc, Function.update_of_ne hj])
  rw [hpc, Function.update_self] at hh
  rw [hpc]
  exact hh

theorem refs_pc (hpc : t.pc = Function.update s.pc i p) (a : Nat) :
    t.refs a + hit (s.pc i).held a = s.refs a + hit p.held a :=
  sum_pc (fun q => hit q.held a) hpc

theorem news_pc (hpc : t.pc = Function.update s.pc i p) (a : Nat) :
    t.news a + hit (s.pc i).newNode a = s.news a + hit p.newNode a :=
  sum_pc (fun q => hit q.newNode a) hpc

theorem debts_pc (hpc : t.pc = Function.update s.pc i p) (a : Nat) :
    t.debts a + hit (s.pc i).owes a = s.debts a + hit p.owes a :=
  sum_pc (fun q => hit q.owes a) hpc

theorem shares_pc (hpc : t.pc = Function.update s.pc i p) (a : Nat) :
    t.shares a + (s.pc i).share a = s.shares a + p.share a :=
  sum_pc (fun q => q.share a) hpc

theorem refs_same (hpc : t.pc = Function.update s.pc i p) (hheld : p.held = (s.pc i).held) : t.refs = s.refs :=
  funext fun a => by
    have hh := refs_pc hpc a
    rw [hheld] at hh
    omega

theorem news_same (hpc : t.pc = Function.update s.pc i p) (hnew : p.newNode = (s.pc i).newNode) : t.news = s.news :=
  funext fun a => by
    have hh := news_pc hpc a
    rw [hnew] at hh
    omega

theorem debts_same (hpc : t.pc = Function.update s.pc i p) (howed : p.owed = (s.pc i).owed) : t.debts = s.debts :=
  funext fun a => by
    have hh := debts_pc hpc a
    rw [Pc.owes, Pc.owes, howed] at hh
    omega

theorem shares_same (hpc : t.pc = Function.update s.pc i p) (howed : p.owed = (s.pc i).owed) : t.shares = s.shares :=
  funext fun a => by
    have hh := shares_pc hpc a
    rw [Pc.share, Pc.share, howed] at hh
    exact add_right_cancel hh

end Update

/-- Head and tail have both left every node made at the address. -/
def Passed (s : State T Tid) (a : Nat) : Prop := s.headLeft a = s.made a ∧ s.tailLeft a = s.made a

instance (s : State T Tid) (a : Nat) : Decidable (s.Passed a) := inferInstanceAs (Decidable (_ ∧ _))

/-- The node that the thread is about to drop its reference to. -/
def drops (s : State T Tid) (i : Tid) : Option Nat :=
  match s.pc i with
  | .freeCas old c _ => old.ptr.filter fun a => (s.node a).count = c
  | .releaseCas a c _ => if (s.node a).count = c then some a else none
  | _ => none

/-- The thread is about to leave two references to the node of the constructor
when both its external counters are given up. -/
def Early (s : State T Tid) (i : Tid) : Prop :=
  s.drops i = some s.dummy ∧ s.refs s.dummy = 3 ∧ s.Passed s.dummy ∧ ∀ j, j ≠ i → (s.pc j).owes ≠ some s.dummy

instance [DecidableEq Tid] (s : State T Tid) (i : Tid) : Decidable (s.Early i) :=
  inferInstanceAs (Decidable (_ ∧ _ ∧ _ ∧ _))

structure Balanced (s : State T Tid) : Prop where
  life : ∀ a, s.gone a ≤ s.made a ∧ s.made a ≤ s.gone a + 1
  used : ∀ a, 0 < s.uses a → s.gone a < s.made a
  kept : ∀ a, a ≠ s.dummy → s.gone a < s.made a → 0 < s.uses a
  dummy : s.made s.dummy = 1 ∧ s.gone s.dummy = 0
  tailLeft : ∀ a, s.tailLeft a + hit s.tail.ptr a + s.news a = s.made a
  headLeft : ∀ a, s.headLeft a + s.front.count a + hit s.tail.ptr a + s.news a = s.made a
  external : ∀ a, s.gone a < s.made a → (s.node a).count.externalCounters.toNat =
    s.front.count a + 2 * hit s.tail.ptr a + 2 * s.news a + s.debts a
  internal : ∀ a, s.gone a < s.made a → (s.node a).count.internalCount + s.shares a + share s.head a + share s.tail a +
    (if a = s.dummy then 2 else 0) = (s.refs a : BitVec 30)

namespace Balanced

theorem shift (h : s.Balanced) (hmade : t.made = s.made) (hgone : t.gone = s.gone) (hdummy : t.dummy = s.dummy)
    (hcount : ∀ a, (t.node a).count = (s.node a).count) (huses : ∀ a, 0 < t.uses a ↔ 0 < s.uses a)
    (htail : ∀ a, t.tailLeft a + hit t.tail.ptr a + t.news a = s.tailLeft a + hit s.tail.ptr a + s.news a)
    (hhead : ∀ a, t.headLeft a + t.front.count a + hit t.tail.ptr a + t.news a =
      s.headLeft a + s.front.count a + hit s.tail.ptr a + s.news a)
    (hexternal : ∀ a, t.front.count a + 2 * hit t.tail.ptr a + 2 * t.news a + t.debts a =
      s.front.count a + 2 * hit s.tail.ptr a + 2 * s.news a + s.debts a)
    (hinternal : ∀ a, t.shares a + share t.head a + share t.tail a + (s.refs a : BitVec 30) =
      s.shares a + share s.head a + share s.tail a + (t.refs a : BitVec 30)) : t.Balanced := by
  refine ⟨fun a => ?_, fun a ha => ?_, fun a hne ha => ?_, ?_, fun a => ?_, fun a => ?_, fun a ha => ?_, fun a ha => ?_⟩
  · rw [hmade, hgone]
    exact h.life a
  · rw [hmade, hgone]
    exact h.used a ((huses a).1 ha)
  · rw [hmade, hgone] at ha
    rw [hdummy] at hne
    exact (huses a).2 (h.kept a hne ha)
  · rw [hmade, hgone, hdummy]
    exact h.dummy
  · rw [htail, hmade]
    exact h.tailLeft a
  · rw [hhead, hmade]
    exact h.headLeft a
  · rw [hmade, hgone] at ha
    rw [hcount, hexternal]
    exact h.external a ha
  · rw [hmade, hgone] at ha
    have hh := h.internal a ha
    have hi := hinternal a
    rw [hcount, hdummy]
    grind

variable [DecidableEq Tid]

theorem move (h : s.Balanced) (hpc : t.pc = Function.update s.pc i p) (hmade : t.made = s.made)
    (hgone : t.gone = s.gone) (hdummy : t.dummy = s.dummy) (hcount : ∀ a, (t.node a).count = (s.node a).count)
    (hhead : t.head = s.head) (htail : t.tail = s.tail) (hfront : t.front = s.front) (hleft : t.tailLeft = s.tailLeft)
    (hleft' : t.headLeft = s.headLeft) (hnew : p.newNode = (s.pc i).newNode) (hheld : p.held = (s.pc i).held)
    (howed : p.owed = (s.pc i).owed) : t.Balanced := by
  have hrefs := refs_same hpc hheld
  have hnews := news_same hpc hnew
  have hdebts := debts_same hpc howed
  have hshares := shares_same hpc howed
  refine h.shift hmade hgone hdummy hcount (fun a => ?_) (fun a => ?_) (fun a => ?_) (fun a => ?_) (fun a => ?_)
  · rw [uses, uses, hfront, htail, hnews, hrefs]
  · rw [hleft, htail, hnews]
  · rw [hleft', hfront, htail, hnews]
  · rw [hfront, htail, hnews, hdebts]
  · rw [hshares, hhead, htail, hrefs]

theorem take {o : Option Nat} (h : s.Balanced) (hpc : t.pc = Function.update s.pc i p) (hmade : t.made = s.made)
    (hgone : t.gone = s.gone) (hdummy : t.dummy = s.dummy) (hnode : t.node = s.node) (hptr : t.tail.ptr = s.tail.ptr)
    (hfront : t.front = s.front) (hleft : t.tailLeft = s.tailLeft) (hleft' : t.headLeft = s.headLeft)
    (hshare : ∀ a, share t.head a + share t.tail a = share s.head a + share s.tail a + (hit o a : BitVec 30))
    (huse : ∀ a, o = some a → 0 < s.uses a) (hnew : p.newNode = (s.pc i).newNode) (hnone : (s.pc i).held = none)
    (hheld : p.held = o) (howed : p.owed = (s.pc i).owed) : t.Balanced := by
  have hrefs : ∀ a, t.refs a = s.refs a + hit o a := fun a => by
    have hh := refs_pc hpc a
    rw [hnone, hheld, hit_none] at hh
    omega
  have hnews := news_same hpc hnew
  have hdebts := debts_same hpc howed
  have hshares := shares_same hpc howed
  refine h.shift hmade hgone hdummy (fun a => by rw [hnode]) (fun a => ?_) (fun a => ?_) (fun a => ?_) (fun a => ?_)
    (fun a => ?_)
  · have hpos : 0 < hit o a → 0 < s.uses a := fun hh => huse a (hit_pos.1 hh)
    rw [uses] at hpos
    rw [uses, uses, hfront, hptr, hnews, hrefs]
    omega
  · rw [hleft, hptr, hnews]
  · rw [hleft', hfront, hptr, hnews]
  · rw [hfront, hptr, hnews, hdebts]
  · have hh := hshare a
    rw [hshares, hrefs, Nat.cast_add]
    grind

/-- Tail leaves a node, and the thread owes its external counter. -/
theorem exchange {old : CountedNodePtr} (h : s.Balanced) (hl : s.Linked) (hi : s.pc i = .pushExchange n old)
    (hpc : t.pc = Function.update s.pc i (.freeLoad s.tail .done)) (hmade : t.made = s.made) (hgone : t.gone = s.gone)
    (hdummy : t.dummy = s.dummy) (hnode : t.node = s.node) (hhead : t.head = s.head) (htail : t.tail = .first n)
    (hfront : t.front = s.front ++ s.tail.ptr.toList) (hleft : t.tailLeft = bump s.tailLeft s.tail.ptr)
    (hleft' : t.headLeft = s.headLeft) : t.Balanced := by
  obtain ⟨z, hz, -⟩ := hl.chain.tail
  have hptr : t.tail.ptr = some n := by rw [htail]; rfl
  have hheld : (s.pc i).held = some z := ((hl.filled i (by rw [hi]; rfl)).1).trans hz
  have howed : (s.pc i).owed = none := by rw [hi]; rfl
  have hnew : (s.pc i).newNode = some n := by rw [hi]; rfl
  have hcount : ∀ a, t.front.count a = s.front.count a + hit (some z) a := fun a => by
    rw [hfront, hz, List.count_append]
    congr 1
    by_cases hza : z = a
    · simp [hza]
    · simp [hit, hza]
  have hrefs : t.refs = s.refs := refs_same hpc (hz.trans hheld.symm)
  have hnews : ∀ a, t.news a + hit (some n) a = s.news a := fun a => by
    have hh := news_pc hpc a
    rw [hnew] at hh
    exact hh
  have hdebts : ∀ a, t.debts a = s.debts a + hit (some z) a := fun a => by
    have hh := debts_pc hpc a
    rw [Pc.owes, Pc.owes, howed, Option.bind_none, hit_none] at hh
    rw [← hz]
    exact hh
  have hshares : ∀ a, t.shares a = s.shares a + share s.tail a := fun a => by
    have hh := shares_pc hpc a
    rw [Pc.share, howed, Option.elim_none, add_zero] at hh
    exact hh
  refine h.shift hmade hgone hdummy (fun a => by rw [hnode]) (fun a => ?_) (fun a => ?_) (fun a => ?_) (fun a => ?_)
    (fun a => ?_)
  · have hn := hnews a
    rw [uses, uses, hcount, hptr, hz, hrefs]
    omega
  · have hn := hnews a
    rw [hleft, hptr, hz, bump]
    omega
  · have hn := hnews a
    rw [hleft', hcount, hptr, hz]
    omega
  · have hn := hnews a
    rw [hcount, hptr, hz, hdebts]
    omega
  · rw [hshares, hhead, htail, share_first, hrefs]
    ring

theorem takeHead {k : Nat} (h : s.Balanced) (hl : s.Linked) (hi : s.pc i = .popHead s.head) (ha : s.head.ptr = some a)
    (hcons : s.front = a :: t.front) (hpc : t.pc = Function.update s.pc i (.popData s.head k))
    (hmade : t.made = s.made) (hgone : t.gone = s.gone) (hdummy : t.dummy = s.dummy) (hnode : t.node = s.node)
    (hhead : t.head = (s.node a).next) (htail : t.tail = s.tail) (hleft : t.tailLeft = s.tailLeft)
    (hleft' : t.headLeft = bump s.headLeft s.head.ptr) : t.Balanced := by
  have hheld : (s.pc i).held = some a := by rw [hi]; exact ha
  have howed : (s.pc i).owed = none := by rw [hi]; rfl
  have hnew : (s.pc i).newNode = none := by rw [hi]; rfl
  have hcount : ∀ b, s.front.count b = t.front.count b + hit (some a) b := fun b => by
    rw [hcons, List.count_cons]
    congr 1
    by_cases hab : a = b
    · simp [hab]
    · simp [hit, hab]
  have hrefs : t.refs = s.refs := refs_same hpc (ha.trans hheld.symm)
  have hnews : t.news = s.news := news_same hpc hnew.symm
  have hdebts : ∀ b, t.debts b = s.debts b + hit (some a) b := fun b => by
    have hh := debts_pc hpc b
    rw [Pc.owes, Pc.owes, howed, Option.bind_none, hit_none] at hh
    rw [← ha]
    exact hh
  have hshares : ∀ b, t.shares b = s.shares b + share s.head b := fun b => by
    have hh := shares_pc hpc b
    rw [Pc.share, howed, Option.elim_none, add_zero] at hh
    exact hh
  have hfirst : ∀ b, share t.head b = 0 := fun b => by
    have hone := hl.chain.counts a (by rw [hcons]; exact List.mem_cons_self)
    rw [hhead, share, hone]
    split
    · decide
    · rfl
  refine h.shift hmade hgone hdummy (fun b => by rw [hnode]) (fun b => ?_) (fun b => ?_) (fun b => ?_) (fun b => ?_)
    (fun b => ?_)
  · have hpos : 0 < hit (some a) b → 0 < s.refs b := fun hh => by
      have hab : some a = some b := hit_pos.1 hh
      exact tally_pos (Finset.mem_univ i) (hheld.trans hab)
    rw [uses, uses, hcount, htail, hnews, hrefs]
    omega
  · rw [hleft, htail, hnews]
  · rw [hleft', hcount, htail, hnews, ha, bump]
    omega
  · rw [hcount, htail, hnews, hdebts]
    omega
  · rw [hshares, hfirst, htail, hrefs]
    ring

theorem push {v : T} (h : s.Balanced) (hi : s.pc i = .idle) (hn : s.gone n = s.made n)
    (hpc : t.pc = Function.update s.pc i (.pushLoad v n)) (hmade : t.made = bump s.made (some n))
    (hgone : t.gone = s.gone) (hdummy : t.dummy = s.dummy) (hnode : t.node = Function.update s.node n .make)
    (hhead : t.head = s.head) (htail : t.tail = s.tail) (hfront : t.front = s.front) (hleft : t.tailLeft = s.tailLeft)
    (hleft' : t.headLeft = s.headLeft) (hl : s.Linked) : t.Balanced := by
  have huses : s.uses n = 0 := by
    by_contra hu
    have hlt := h.used n (by omega)
    omega
  have hun : ¬ s.InUse n := fun hu => by
    have hp := uses_pos.2 hu
    omega
  have hrefs : t.refs = s.refs := refs_same hpc (by rw [hi]; rfl)
  have hnews : ∀ a, t.news a = s.news a + hit (some n) a := fun a => by
    have hh := news_pc hpc a
    rw [hi] at hh
    exact hh
  have hdebts : t.debts = s.debts := debts_same hpc (by rw [hi]; rfl)
  have hshares : t.shares = s.shares := shares_same hpc (by rw [hi]; rfl)
  have hall : ∀ a, t.uses a = s.uses a + hit (some n) a := fun a => by
    rw [uses, uses, hfront, htail, hnews, hrefs]
    omega
  have hd : n ≠ s.dummy := by
    intro he
    have hdum := h.dummy
    rw [← he] at hdum
    omega
  rw [uses] at huses
  refine ⟨fun a => ?_, fun a ha => ?_, fun a hne ha => ?_, ?_, fun a => ?_, fun a => ?_, fun a ha => ?_, fun a ha => ?_⟩
  · have hlife := h.life a
    rw [hmade, hgone, bump]
    by_cases han : n = a
    · subst han
      rw [hit_self]
      omega
    · rw [hit_ne han]
      omega
  · rw [hall] at ha
    rw [hmade, hgone, bump]
    by_cases han : n = a
    · subst han
      rw [hit_self]
      omega
    · rw [hit_ne han] at ha ⊢
      have hlt := h.used a (by omega)
      omega
  · rw [hmade, hgone, bump] at ha
    rw [hall]
    by_cases han : n = a
    · subst han
      rw [hit_self]
      omega
    · rw [hit_ne han] at ha
      have hlt := h.kept a (by rwa [hdummy] at hne) (by omega)
      omega
  · rw [hmade, hgone, hdummy, bump, hit_ne hd]
    exact h.dummy
  · have hh := h.tailLeft a
    rw [hleft, htail, hnews, hmade, bump]
    omega
  · have hh := h.headLeft a
    rw [hleft', hfront, htail, hnews, hmade, bump]
    omega
  · rw [hfront, htail, hnews, hdebts, hnode]
    by_cases han : n = a
    · subst han
      have hle := debts_le_refs s n
      rw [Function.update_self, hit_self]
      change 2 = _
      omega
    · rw [hmade, hgone, bump, hit_ne han] at ha
      rw [Function.update_of_ne (Ne.symm han), hit_ne han]
      exact h.external a ha
  · rw [hshares, hhead, htail, hrefs, hnode, hdummy]
    by_cases han : n = a
    · subst han
      have hle := debts_le_refs s n
      have hzero : s.shares n = 0 := shares_eq_zero (by omega)
      have hzh : share s.head n = 0 := if_neg (fun he => hun (.inl (hl.chain.head_listed he)))
      have hzt : share s.tail n = 0 := if_neg (fun he => hun (.inl (.inr he)))
      have hzr : s.refs n = 0 := by omega
      rw [Function.update_self, hzero, hzh, hzt, hzr, if_neg hd]
      rfl
    · rw [hmade, hgone, bump, hit_ne han] at ha
      rw [Function.update_of_ne (Ne.symm han)]
      exact h.internal a ha

/-- The compare-and-swap of `release_ref` or `free_external_counter`. -/
theorem drop {c : NodeCounter} {k : After T} (h : s.Balanced) (hl : s.Linked) (hdrops : s.drops i = some a)
    (hheld : (s.pc i).held = some a) (hnew : (s.pc i).newNode = k.newNode)
    (howes : ∀ b, b ≠ a → (s.pc i).owes ≠ some b)
    (hext : c.externalCounters.toNat + hit (s.pc i).owes a = (s.node a).count.externalCounters.toNat)
    (hint : c.internalCount + 1 = (s.node a).count.internalCount + (s.pc i).share a) (hfew : s.refs a ≤ 2 ^ 30)
    (hearly : ¬ s.Early i) : ((s.setCount a c).go i k.pc).Balanced := by
  set t := (s.setCount a c).go i k.pc with ht
  have hpc : t.pc = Function.update s.pc i k.pc := rfl
  have hnone : k.pc.held = none := by cases k <;> rfl
  have hnone' : k.pc.owed = none := by cases k <;> rfl
  have hsame : k.pc.newNode = k.newNode := by cases k <;> rfl
  have hrefs : ∀ b, t.refs b + hit (some a) b = s.refs b := fun b => by
    have hh := refs_pc hpc b
    rwa [hheld, hnone, hit_none] at hh
  have hnews : t.news = s.news := news_same hpc (hsame.trans hnew.symm)
  have hdebts : ∀ b, t.debts b + hit (s.pc i).owes b = s.debts b := fun b => by
    have hh := debts_pc hpc b
    rwa [Pc.owes.eq_def k.pc, hnone', Option.bind_none, hit_none] at hh
  have hshares : ∀ b, t.shares b + (s.pc i).share b = s.shares b := fun b => by
    have hh := shares_pc hpc b
    rwa [Pc.share.eq_def k.pc, hnone', Option.elim_none, add_zero] at hh
  have hall : ∀ b, t.uses b = s.front.count b + hit s.tail.ptr b + s.news b + t.refs b := fun b => by
    rw [uses, hnews]
    rfl
  have huses : ∀ b, t.uses b + hit (some a) b = s.uses b := fun b => by
    have hr := hrefs b
    rw [hall, uses]
    omega
  have hpos : 0 < s.refs a := tally_pos (Finset.mem_univ i) hheld
  have hlive : s.gone a < s.made a := h.used a (by rw [uses]; omega)
  have hrefsa := hrefs a
  have husesa := huses a
  rw [hit_self] at hrefsa husesa
  have hexternal : c.externalCounters.toNat =
      s.front.count a + 2 * hit s.tail.ptr a + 2 * s.news a + t.debts a := by
    have hh := h.external a hlive
    have hd := hdebts a
    omega
  have hinternal : c.internalCount + t.shares a + share s.head a + share s.tail a + (if a = s.dummy then 2 else 0) =
      (t.refs a : BitVec 30) := by
    have hh := h.internal a hlive
    have hd := hshares a
    rw [← hrefsa, Nat.cast_add, Nat.cast_one] at hh
    grind
  -- Once nothing but references is left, the internal count is their number.
  have hplain : s.front.count a = 0 → hit s.tail.ptr a = 0 → t.debts a = 0 →
      c.internalCount + (if a = s.dummy then 2 else 0) = (t.refs a : BitVec 30) := by
    intro hf htl hd
    have hun : ¬ s.Listed a := by
      rintro (hm | hm)
      · exact (List.count_pos_iff.2 hm).ne' hf
      · rw [hm, hit_self] at htl
        cases htl
    have hzh : share s.head a = 0 := if_neg (fun he => hun (hl.chain.head_listed he))
    have hzt : share s.tail a = 0 := if_neg (fun he => hun (.inr he))
    rw [shares_eq_zero hd, hzh, hzt, add_zero, add_zero, add_zero] at hinternal
    exact hinternal
  have hzero : c.isZero = true → a ≠ s.dummy ∧ t.uses a = 0 := by
    intro hz
    rw [NodeCounter.isZero, Bool.and_eq_true, decide_eq_true_eq, decide_eq_true_eq] at hz
    obtain ⟨hzi, hze⟩ := hz
    rw [hze] at hexternal
    change 0 = _ at hexternal
    have hp := hplain (by omega) (by omega) (by omega)
    rw [hzi, zero_add] at hp
    have hr : t.refs a < 2 ^ 30 := by omega
    by_cases hd : a = s.dummy
    · exfalso
      rw [if_pos hd] at hp
      have htwo : t.refs a = 2 := by
        have hn := congrArg BitVec.toNat hp
        rw [toNat_natCast hr] at hn
        exact hn.symm
      refine hearly ⟨hd ▸ hdrops, ?_, ⟨?_, ?_⟩, fun j hj ho => ?_⟩
      · rw [← hd]
        omega
      · have hh := h.headLeft a
        rw [← hd]
        omega
      · have hh := h.tailLeft a
        rw [← hd]
        omega
      · have hsame' : t.pc j = s.pc j := by rw [hpc, Function.update_of_ne hj]
        have hpd : 0 < t.debts a := tally_pos (Finset.mem_univ j) (by rw [hsame', ho, hd])
        omega
    · rw [if_neg hd] at hp
      have hnil : t.refs a = 0 := by
        have hn := congrArg BitVec.toNat hp
        rw [toNat_natCast hr] at hn
        exact hn.symm
      refine ⟨hd, ?_⟩
      rw [hall]
      omega
  have hmore : c.isZero = false → a ≠ s.dummy → 0 < t.uses a := by
    intro hz hd
    by_contra hu
    rw [hall] at hu
    have hle := debts_le_refs t a
    have hp := hplain (by omega) (by omega) (by omega)
    have hr : t.refs a = 0 := by omega
    have he : c.externalCounters = 0 := BitVec.eq_of_toNat_eq (by change _ = 0; omega)
    rw [if_neg hd, hr, add_zero, Nat.cast_zero] at hp
    simp [NodeCounter.isZero, hp, he] at hz
  have hmade : t.made = s.made := rfl
  have hgone : ∀ b, t.gone b = s.gone b + if c.isZero then hit (some a) b else 0 := by
    intro b
    change (if c.isZero then bump s.gone (some a) else s.gone) b = _
    split <;> rfl
  have hother : ∀ b, b ≠ a → hit (some a) b = 0 := fun b hb => hit_ne (Ne.symm hb)
  have hnode : ∀ b, b ≠ a → (t.node b).count = (s.node b).count := by
    intro b hb
    change (Function.update s.node a _ b).count = _
    rw [Function.update_of_ne hb]
  have hself : (t.node a).count = c := by
    change (Function.update s.node a _ a).count = _
    rw [Function.update_self]
  refine ⟨fun b => ?_, fun b hb => ?_, fun b hne hb => ?_, ?_, fun b => ?_, fun b => ?_, fun b hb => ?_, fun b hb => ?_⟩
  · have hlife := h.life b
    rw [hgone, hmade]
    by_cases hba : b = a
    · rw [hba, hit_self]
      rw [hba] at hlife
      split <;> omega
    · rw [hother b hba, ite_self]
      exact hlife
  · rw [hgone, hmade]
    by_cases hba : b = a
    · subst hba
      cases hz : c.isZero with
      | false => exact hlive
      | true => exact absurd (hzero hz).2 hb.ne'
    · rw [hother b hba, ite_self]
      refine h.used b ?_
      have hu := huses b
      omega
  · rw [hgone, hmade] at hb
    by_cases hba : b = a
    · subst hba
      cases hz : c.isZero with
      | false => exact hmore hz hne
      | true =>
        have hlife := h.life b
        rw [hz, if_pos rfl, hit_self] at hb
        omega
    · rw [hother b hba, ite_self] at hb
      have hp := h.kept b hne hb
      have hu := huses b
      rw [hother b hba] at hu
      omega
  · change t.made s.dummy = 1 ∧ t.gone s.dummy = 0
    rw [hmade, hgone]
    cases hz : c.isZero with
    | false => exact h.dummy
    | true =>
      rw [hit_ne (hzero hz).1]
      exact h.dummy
  · rw [hnews]
    exact h.tailLeft b
  · rw [hnews]
    exact h.headLeft b
  · by_cases hba : b = a
    · rw [hba, hself, hnews]
      exact hexternal
    · rw [hgone, hmade, hother b hba, ite_self] at hb
      have hd := hdebts b
      have ho : hit (s.pc i).owes b = 0 := if_neg (howes b hba)
      rw [hnode b hba, hnews, show t.debts b = s.debts b by omega]
      exact h.external b hb
  · by_cases hba : b = a
    · rw [hba, hself]
      exact hinternal
    · rw [hgone, hmade, hother b hba, ite_self] at hb
      have hd := hshares b
      have hr := hrefs b
      rw [Pc.share_eq_zero (howes b hba), add_zero] at hd
      rw [hother b hba] at hr
      rw [hnode b hba, hd, show t.refs b = s.refs b by omega]
      exact h.internal b hb

end Balanced

end State

end Wizard.NonlockFreeQueue
