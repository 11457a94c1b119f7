import Wizard.NonlockFreeQueueCounts

/-! Reclamation. An address may be allocated again once every node made there is
deleted. -/

namespace Wizard.NonlockFreeQueue

variable {T Tid : Type} {s t : State T Tid} {i : Tid} {a : Nat} [Fintype Tid]

namespace State

theorem Balanced.make (dummy : Nat) : (make dummy : State T Tid).Balanced := by
  have hrefs : ∀ a, (State.make dummy : State T Tid).refs a = 0 := fun a => tally_eq_zero (fun _ _ h => nomatch h)
  have hnews : ∀ a, (State.make dummy : State T Tid).news a = 0 := fun a => tally_eq_zero (fun _ _ h => nomatch h)
  have hdebts : ∀ a, (State.make dummy : State T Tid).debts a = 0 := fun a => tally_eq_zero (fun _ _ h => nomatch h)
  have hshares : ∀ a, (State.make dummy : State T Tid).shares a = 0 :=
    fun a => Finset.sum_eq_zero (fun _ _ => rfl)
  have huses : ∀ a, (State.make dummy : State T Tid).uses a = hit (some dummy) a := fun a => by
    rw [uses, hrefs, hnews]
    change 0 + hit (some dummy) a + 0 + 0 = _
    omega
  have hlive : ∀ a, (State.make dummy : State T Tid).made a = hit (some dummy) a := fun a => by
    change 0 + hit (some dummy) a = _
    omega
  refine ⟨fun a => ?_, fun a ha => ?_, fun a _ ha => ?_, ⟨?_, rfl⟩, fun a => ?_, fun a => ?_, fun a ha => ?_,
    fun a ha => ?_⟩
  · rw [hlive]
    change 0 ≤ _ ∧ _ ≤ 0 + 1
    by_cases hd : dummy = a
    · rw [hd, hit_self]
      omega
    · rw [hit_ne hd]
      omega
  · rw [hlive]
    rwa [huses] at ha
  · rw [huses]
    rwa [hlive] at ha
  · rw [hlive]
    exact hit_self dummy
  · rw [hnews, hlive]
    change 0 + hit (some dummy) a + 0 = _
    omega
  · rw [hnews, hlive]
    change 0 + 0 + hit (some dummy) a + 0 = _
    omega
  · rw [hlive] at ha
    have hd : some dummy = some a := hit_pos.1 ha
    cases hd
    rw [hnews, hdebts]
    change 2 = 0 + 2 * hit (some dummy) dummy + 0 + 0
    rw [hit_self]
  · rw [hlive] at ha
    have hd : some dummy = some a := hit_pos.1 ha
    cases hd
    rw [hrefs, hshares]
    change (0 : BitVec 30) + 0 + share ⟨0, some dummy⟩ dummy + share ⟨0, some dummy⟩ dummy +
      (if dummy = dummy then 2 else 0) = _
    rw [share, if_pos rfl, if_pos rfl, Nat.cast_zero]
    change (0 : BitVec 30) + 0 + ((0 : BitVec 32).setWidth 30 - 1) + ((0 : BitVec 32).setWidth 30 - 1) + 2 = 0
    decide

variable [DecidableEq Tid]

/-- What every step must meet: values go only where tail is, no count can wrap
to zero, and the node of the constructor is not deleted early. -/
def Careful (s : State T Tid) (i : Tid) : Prop :=
  s.stale i = false ∧ (s.drops i).all (fun a => s.refs a ≤ 2 ^ 30) = true ∧ ¬ s.Early i

instance (s : State T Tid) (i : Tid) : Decidable (s.Careful i) := inferInstanceAs (Decidable (_ ∧ _ ∧ _))

/-- Every node made at the address is deleted. -/
def Dead (s : State T Tid) (n : Nat) : Prop := s.gone n = s.made n

omit [Fintype Tid] [DecidableEq Tid] in
instance (s : State T Tid) (n : Nat) : Decidable (s.Dead n) := inferInstanceAs (Decidable (_ = _))

/-- Every access keeps the counts. -/
theorem Balanced.effect {o : Option Nat} (h : s.Balanced) (hl : s.Linked) (he : s.Effect i o t) (hok : s.Careful i)
    (hnew : ∀ n, o = some n → s.Dead n) : t.Balanced := by
  have hfew : ∀ a, s.drops i = some a → s.refs a ≤ 2 ^ 30 := fun a ha => by
    have hh := hok.2.1
    rw [ha] at hh
    simpa using hh
  cases he with
  | move p hn hh ho _ _ _ _ => exact h.move rfl rfl rfl rfl (fun _ => rfl) rfl rfl rfl rfl rfl hn hh ho
  | look old b hi hb hat =>
    exact h.move rfl rfl rfl rfl (fun _ => rfl) rfl rfl rfl rfl rfl (by rw [hi]; rfl) (by rw [hi]; exact hb.symm)
      (by rw [hi]; rfl)
  | push v n hi => exact h.push hi (hnew n rfl) rfl rfl rfl rfl rfl rfl rfl rfl rfl rfl hl
  | increaseTail v n hi =>
    refine h.take (o := s.tail.ptr) rfl rfl rfl rfl rfl rfl rfl rfl rfl (fun a => ?_) (fun a ha => ?_) (by rw [hi]; rfl)
      (by rw [hi]; rfl) rfl (by rw [hi]; rfl)
    · change share s.head a + share s.tail.increase a = _
      rw [share_increase, add_assoc]
    · exact uses_pos.2 (.inl (.inr ha))
  | increaseHead hi =>
    refine h.take (o := s.head.ptr) rfl rfl rfl rfl rfl rfl rfl rfl rfl (fun a => ?_) (fun a ha => ?_) (by rw [hi]; rfl)
      (by rw [hi]; rfl) rfl (by rw [hi]; rfl)
    · change share s.head.increase a + share s.tail a = _
      rw [share_increase]
      ring
    · exact uses_pos.2 (.inl (hl.chain.head_listed ha))
  | fill v n old b hi hb hdata =>
    refine h.move rfl rfl rfl rfl (fun a => ?_) rfl rfl rfl rfl rfl (by rw [hi]; rfl) (by rw [hi]; rfl)
      (by rw [hi]; rfl)
    by_cases hab : a = b <;> simp [go, hab]
  | writeNext n old b hi hb =>
    refine h.move rfl rfl rfl rfl (fun a => ?_) rfl rfl rfl rfl rfl (by rw [hi]; rfl) (by rw [hi]; rfl)
      (by rw [hi]; rfl)
    by_cases hab : a = b <;> simp [go, hab]
  | exchange n old hi => exact h.exchange hl hi rfl rfl rfl rfl rfl rfl rfl rfl rfl rfl
  | takeHead b hi hb =>
    have hcons := And.left (hl.takeHead (k := s.popped.length) (t := { s with
        head := (s.node b).next
        headLeft := bump s.headLeft s.head.ptr
        front := s.front.tail
        popped := s.popped ++ [none] }.go i (.popData s.head s.popped.length)) hi hb rfl rfl rfl rfl rfl rfl)
    exact h.takeHead hl hi hb hcons rfl rfl rfl rfl rfl rfl rfl rfl rfl
  | takeData old turn b hi hb =>
    refine h.move rfl rfl rfl rfl (fun a => ?_) rfl rfl rfl rfl rfl (by rw [hi]; rfl) (by rw [hi]; rfl)
      (by rw [hi]; rfl)
    by_cases hab : a = b <;> simp [go, hab]
  | free old b k hi hb =>
    have howes : (s.pc i).owes = some b := by rw [hi]; exact hb
    have hheld : (s.pc i).held = some b := by rw [hi]; exact hb
    have hdrops : s.drops i = some b := by simp [drops, hi, hb]
    refine h.drop hl hdrops hheld (by rw [hi]; rfl) (fun c hc hh => ?_) ?_ ?_ (hfew b hdrops) hok.2.2
    · exact hc (Option.some.inj (hh.symm.trans howes))
    · have hpos : 0 < s.debts b := tally_pos (Finset.mem_univ i) howes
      have hrefs : 0 < s.refs b := tally_pos (Finset.mem_univ i) hheld
      have hext := h.external b (h.used b (by rw [uses]; omega))
      rw [howes, hit_self]
      change ((s.node b).count.externalCounters - 1).toNat + 1 = _
      rw [BitVec.toNat_sub_of_le (by rw [BitVec.le_def]; change 1 ≤ _; omega)]
      change _ - 1 + 1 = _
      omega
    · rw [Pc.share, hi]
      change (s.node b).count.internalCount + (NodeCounter.countIncrease old).setWidth 30 + 1 = _ + share old b
      rw [share, if_pos hb, NodeCounter.countIncrease, BitVec.sub_eq_add_neg, BitVec.setWidth_add _ _ (by decide)]
      have hneg : (-2 : BitVec 32).setWidth 30 = -2 := by decide
      rw [hneg]
      grind
  | release b k hi =>
    have howes : (s.pc i).owes = none := by rw [hi]; rfl
    have hheld : (s.pc i).held = some b := by rw [hi]; rfl
    have hdrops : s.drops i = some b := by simp [drops, hi]
    refine h.drop hl hdrops hheld (by rw [hi]; rfl) (fun c hc hh => ?_) ?_ ?_ (hfew b hdrops) hok.2.2
    · rw [howes] at hh
      cases hh
    · rw [howes, hit_none]
      rfl
    · rw [Pc.share, hi]
      change (s.node b).count.internalCount - 1 + 1 = _ + 0
      grind

structure Counted (s : State T Tid) : Prop where
  linked : s.Linked
  balanced : s.Balanced

theorem Counted.step (h : s.Counted) (hs : Step Dead Careful s t) : t.Counted := by
  obtain ⟨i, x, ht, hfree, hok⟩ := hs
  have he := act_effect ht
  refine ⟨h.linked.effect he hok.1 (fun n hn hu => ?_), h.balanced.effect h.linked he hok hfree⟩
  have hlive := h.balanced.used n (uses_pos.2 hu)
  have hdead : s.gone n = s.made n := hfree n hn
  omega

theorem Counted.reachable (h : Reachable Init (Step Dead Careful) s) : s.Counted :=
  h.invariant (fun s hs => by
    obtain ⟨dummy, hd⟩ := hs
    rw [hd]
    exact ⟨.make dummy, .make dummy⟩) (fun _ _ _ hs ht => hs.step ht)

/-- Deleted only when nothing refers to the node; deleted, and once, when head
and tail have left it and no thread holds a reference. -/
structure Reclaimed (s : State T Tid) (a : Nat) : Prop where
  once : s.gone a ≤ s.made a
  safe : s.Dead a → s.head.ptr ≠ some a ∧ s.tail.ptr ≠ some a ∧ ∀ i, (s.pc i).held ≠ some a
  done : s.Passed a → (∀ i, (s.pc i).held ≠ some a) → s.Dead a

omit [Fintype Tid] [DecidableEq Tid] in
theorem reclaimed_of_not_dead (hlive : s.gone a < s.made a) :
    s.Reclaimed a ↔ ¬ (s.Passed a ∧ ∀ i, (s.pc i).held ≠ some a) := by
  have hnot : ¬ s.Dead a := hlive.ne
  exact ⟨fun h hp => hnot (h.done hp.1 hp.2), fun h => ⟨hlive.le, fun hd => absurd hd hnot,
    fun hp hr => absurd ⟨hp, hr⟩ h⟩⟩

/-- All but the node of the constructor; that one is never deleted. -/
theorem nodes_reclaimed (h : Reachable Init (Step Dead Careful) s) : (∀ a, a ≠ s.dummy → s.Reclaimed a) ∧
    (s.Reclaimed s.dummy ↔ ¬ (s.Passed s.dummy ∧ ∀ i, (s.pc i).held ≠ some s.dummy)) := by
  obtain ⟨hl, hb⟩ := Counted.reachable h
  have hdum := hb.dummy
  refine ⟨fun a ha => ⟨(hb.life a).1, fun hd => ?_, fun hp hr => ?_⟩, reclaimed_of_not_dead (by omega)⟩
  · have hun : ¬ s.InUse a := fun hu => (hb.used a (uses_pos.2 hu)).ne hd
    exact ⟨fun he => hun (.inl (hl.chain.head_listed he)), fun he => hun (.inl (.inr he)),
      fun i hi => hun (.inr (.inr ⟨i, hi⟩))⟩
  · by_contra hd
    have hlive : s.gone a < s.made a := lt_of_le_of_ne (hb.life a).1 hd
    have huse := hb.kept a ha hlive
    have hrefs : s.refs a = 0 := tally_eq_zero (fun i _ => hr i)
    have hhead := hb.headLeft a
    have htail := hb.tailLeft a
    obtain ⟨hp, hp'⟩ := hp
    rw [uses] at huse
    omega

section Examples

def quietPush (i : Fin 3) (v n : Nat) : List (Fin 3 × Action Nat) := (i, .push v n) :: List.replicate 7 (i, .next)

def quietPop (i : Fin 3) : List (Fin 3 × Action Nat) := (i, .pop) :: List.replicate 7 (i, .next)

/-- A pop that holds a reference to the node of the constructor keeps it; the
next node is deleted and its address used again. -/
theorem nodes_reclaimed_reused : ∃ s : State Nat (Fin 3), Reachable Init (Step Dead Careful) s ∧
    (s.made 1, s.gone 1, s.gone 0) = (2, 1, 0) ∧ (∀ a, a ≠ s.dummy → s.Reclaimed a) ∧
      (s.Reclaimed s.dummy ↔ ¬ (s.Passed s.dummy ∧ ∀ i, (s.pc i).held ≠ some s.dummy)) := by
  have h : (exec Dead Careful (State.make 0) ([((2 : Fin 3), .pop), (2, .next), (2, .next)] ++ quietPush 0 5 1 ++
    quietPush 1 6 2 ++ quietPop 0 ++ quietPop 0 ++ quietPush 0 7 1)).map
      (fun s => (s.made 1, s.gone 1, s.gone 0)) = some (2, 1, 0) := by decide
  obtain ⟨s, hs, he⟩ := exec_make h
  exact ⟨s, hs, he, nodes_reclaimed hs⟩

/-- One push and one pop: the first node is left for good. With two more pops
that hold a reference to it, it is deleted under them. -/
theorem dummy_not_reclaimed :
    (∃ s : State Nat (Fin 3), Reachable Init (Step Dead fun _ _ => True) s ∧ ¬ s.Reclaimed s.dummy ∧
      s.Passed s.dummy ∧ (∀ i, (s.pc i).held ≠ some s.dummy) ∧ s.gone s.dummy = 0) ∧
    ∃ s : State Nat (Fin 3), Reachable Init (Step Dead fun _ _ => True) s ∧ ¬ s.Reclaimed s.dummy ∧
      s.Dead s.dummy ∧ (s.pc 1).held = some s.dummy ∧ (s.pc 2).held = some s.dummy := by
  constructor
  · have h : (exec Dead (fun _ _ => True) (State.make 0) (quietPush 0 5 1 ++ quietPop 0)).map
      (fun s => (decide (s.Passed s.dummy), decide (∀ i, (s.pc i).held ≠ some s.dummy), s.gone s.dummy,
        s.made s.dummy)) = some (true, true, 0, 1) := by decide
    obtain ⟨s, hs, he⟩ := exec_make h
    simp only [Prod.mk.injEq, decide_eq_true_eq] at he
    obtain ⟨hp, hr, hg, hm⟩ := he
    exact ⟨s, hs, fun hh => absurd (hh.done hp hr) (by rw [Dead, hg, hm]; decide), hp, hr, hg⟩
  · have h : (exec Dead (fun _ _ => True) (State.make 0) ([((1 : Fin 3), .pop), (1, .next), (1, .next), (2, .pop),
      (2, .next), (2, .next)] ++ quietPush 0 5 1 ++ quietPop 0)).map
        (fun s => (decide (s.Dead s.dummy), decide ((s.pc 1).held = some s.dummy),
          decide ((s.pc 2).held = some s.dummy))) = some (true, true, true) := by decide
    obtain ⟨s, hs, he⟩ := exec_make h
    simp only [Prod.mk.injEq, decide_eq_true_eq] at he
    obtain ⟨hd, h1, h2⟩ := he
    exact ⟨s, hs, fun hh => (hh.safe hd).2.2 1 h1, hd, h1, h2⟩

end Examples

end State

end Wizard.NonlockFreeQueue
