import Wizard.LockFreeQueuePops
import Wizard.LockFreeQueueTail

/-! The nodes that tail has been at, as the pushes of `lock_free_queue.h` go on. -/

namespace Wizard.LockFreeQueue

open Shared

variable {T Tid : Type*} [DecidableEq Tid] {s s' : State T Tid} {t : Tid} {front seen : List Nat} {last : Nat}
  {rest : Option Nat} {a i k : Nat}

theorem setPc_pc (s : State T Tid) (t : Tid) (p : Pc) : (s.setPc t p).pc t = p := Function.update_self ..

theorem Step.head_eq (hs : Step t s s') : s'.head = s.head := by
  cases hs <;> rfl

theorem Step.node_of_tail (hs : Step t s s') (h : s'.tail.ptr ≠ s.tail.ptr) : s'.node = s.node := by
  cases hs with
  | swingOk => rfl
  | increaseOk k n old ht he =>
    subst he
    exact absurd rfl h
  | _ => exact absurd rfl h

/-- A next that is not null stays. -/
theorem Step.next_eq (hs : Step t s s') (ha : s.live a) (hn : (s.node a).next.ptr ≠ none) :
    (s'.node a).next = (s.node a).next := by
  have hfresh : ∀ n, ¬ s.live n → ((s.setNode n .make).node a).next = (s.node a).next := fun n hl =>
    congrArg CountedNode.next (setNode_of_ne s _ fun h => hl (h ▸ ha))
  have hset : ∀ p x, (s.node p).next = ⟨0, none⟩ → ((s.setNode p x).node a).next = (s.node a).next := by
    refine fun p x he => congrArg CountedNode.next (setNode_of_ne s _ fun h => hn ?_)
    rw [h, he]
  have hsame : ∀ p x, x.next = (s.node p).next → ((s.setNode p x).node a).next = (s.node a).next :=
    fun p x hx => setNode_same CountedNode.next (s := s) (a := p) hx a
  cases hs with
  | push v n ht hl => exact hfresh n hl
  | renew k old p new n ht hl => exact hfresh n hl
  | dataOk k n old p ht hp he => exact hsame p _ rfl
  | nextOk n old p ht hp he => exact hset p _ he
  | helpOk k n old p ht hp he => exact hset p _ he
  | freeCasOk old c k p ht hp he => exact hsame p _ rfl
  | releaseCasOk p old c k ht he => exact hsame p _ rfl
  | _ => rfl

/-- An object is put into a node. -/
theorem Step.of_filled (hs : Step t s s') (hf : filled? (s.pc t) (s'.pc t) = some k) :
    ∃ n old p, s.pc t = .data k n old ∧ old.ptr = some p ∧ (s.node p).data = none ∧
      s' = (s.setNode p { s.node p with data := some k }).setPc t (.next n old) := by
  cases hs with
  | dataOk k' n old p ht hp he =>
    rw [ht, setPc_pc] at hf
    cases hf
    exact ⟨n, old, p, ht, hp, he, rfl⟩
  | dataFail k' n old p ht hp he =>
    rw [ht, setPc_pc] at hf
    cases hf
  | push _ _ ht | load _ _ ht | increaseOk _ _ _ ht | increaseFail _ _ _ ht | nextOk _ _ _ ht | nextFail _ _ _ ht
    | helpOk _ _ _ _ ht | helpFail _ _ _ _ ht | renew _ _ _ _ _ ht | swingOk _ _ _ _ ht | swingFail _ _ _ _ ht
    | freeLoad _ _ _ ht | freeCasOk _ _ _ _ ht | freeCasFail _ _ _ _ ht | releaseLoad _ _ _ ht
    | releaseCasOk _ _ _ _ ht | releaseCasFail _ _ _ _ ht =>
    rw [ht] at hf
    cases hf

theorem Step.data_eq (hs : Step t s s') (ha : s.live a)
    (hd : (s.node a).data ≠ none ∨ filled? (s.pc t) (s'.pc t) = none) : (s'.node a).data = (s.node a).data := by
  have hfresh : ∀ n, ¬ s.live n → ((s.setNode n .make).node a).data = (s.node a).data := fun n hl =>
    congrArg CountedNode.data (setNode_of_ne s _ fun h => hl (h ▸ ha))
  have hsame : ∀ p x, x.data = (s.node p).data → ((s.setNode p x).node a).data = (s.node a).data :=
    fun p x hx => setNode_same CountedNode.data (s := s) (a := p) hx a
  cases hs with
  | push v n ht hl => exact hfresh n hl
  | renew k old p new n ht hl => exact hfresh n hl
  | dataOk k n old p ht hp he =>
    refine congrArg CountedNode.data (setNode_of_ne s _ ?_)
    rintro rfl
    rcases hd with hd | hd
    · exact hd he
    · rw [ht, setPc_pc] at hd
      cases hd
  | nextOk n old p ht hp he => exact hsame p _ rfl
  | helpOk k n old p ht hp he => exact hsame p _ rfl
  | freeCasOk old c k p ht hp he => exact hsame p _ rfl
  | releaseCasOk p old c k ht he => exact hsame p _ rfl
  | _ => rfl

/-- What a step of a push does with the nodes `seen` that tail has been at: nothing, the object
goes into the last of them, or tail moves on. -/
inductive Grows (s s' : State T Tid) (seen : List Nat) : Option Nat → List Nat → Prop
  | same (ht : s'.tail.ptr = s.tail.ptr) (hd : ∀ a ∈ seen, (s'.node a).data = (s.node a).data) :
      Grows s s' seen none seen
  | fill (k last : Nat) (ht : s'.tail.ptr = s.tail.ptr) (hlast : s.tail.ptr = some last)
      (hnone : (s.node last).data = none) (hsome : (s'.node last).data = some k)
      (hd : ∀ a ∈ seen, a ≠ last → (s'.node a).data = (s.node a).data) :
      Grows s s' seen (some k) seen
  | swing (last next : Nat) (ht : s'.tail.ptr ≠ s.tail.ptr) (hlast : s.tail.ptr = some last)
      (hsome : (s.node last).data ≠ none) (hnone : (s'.node next).data = none)
      (hd : ∀ a ∈ seen, (s'.node a).data = (s.node a).data) : Grows s s' seen none (seen ++ [next])

omit [DecidableEq Tid] in
theorem Grows.congr {s₁ : State T Tid} {o : Option Nat} {seen' : List Nat} (h : Grows s s' seen o seen')
    (hn : s.node = s₁.node) (ht : s.tail = s₁.tail) : Grows s₁ s' seen o seen' := by
  cases h with
  | same hs hd =>
    rw [ht] at hs
    rw [hn] at hd
    exact .same hs hd
  | fill k last hs hl hnone hsome hd =>
    rw [ht] at hs hl
    rw [hn] at hnone hd
    exact .fill k last hs hl hnone hsome hd
  | swing last next hs hl hsome hnone hd =>
    rw [ht] at hs hl
    rw [hn] at hsome hd
    exact .swing last next hs hl hsome hnone hd

omit [DecidableEq Tid] in
theorem Grows.initial {o : Option Nat} {seen' : List Nat} (h : Grows s s' seen o seen') : seen <+: seen' := by
  cases h with
  | same | fill => exact List.prefix_rfl
  | swing => exact List.prefix_append ..

section Facts

omit [DecidableEq Tid]

variable (h : Inv s front last rest)
include h

theorem Inv.segment : Segment (fun a => (s.node a).next.ptr) s.head.ptr front (some last) := by
  obtain ⟨m, hm, hl⟩ := Segment.append_iff.1 h.linked
  rwa [hl.1] at hm

theorem Inv.seen_nodup : (front ++ [last]).Nodup := by
  refine h.nodup.sublist ?_
  simp

theorem Inv.next_front (ha : a ∈ front) : (s.node a).next.ptr ≠ none := by
  intro hn
  obtain ⟨rfl, -⟩ := h.eq_last_of_next (List.mem_append_left _ ha) hn
  exact (List.nodup_append.1 h.seen_nodup).2.2 a ha a (List.mem_singleton_self a) rfl

theorem Inv.front_eq {l : List Nat} (hl : Segment (fun a => (s.node a).next.ptr) s.head.ptr l (some last)) :
    front = l := h.linked.eq_of_mem hl

/-- The next of a node that tail has left is the one where tail has gone from there. -/
theorem Inv.next_seen (hi : i < front.length) (ha : (front ++ [last])[i]? = some a) :
    (s.node a).next.ptr = (front ++ [last])[i + 1]? := by
  have hl := h.linked
  rw [List.append_cons] at hl
  have hlt : i + 1 < (front ++ [last]).length := by
    rw [List.length_append, List.length_singleton]
    omega
  have ha' : (front ++ [last] ++ rest.toList)[i]? = some a := (List.getElem?_append_left (by omega)).trans ha
  rw [hl.next_getElem? ha', List.getElem?_append_left hlt]

end Facts

/-- The way over nodes that have a next stays. -/
theorem Step.segment (hs : Step t s s') {l : List Nat} {q : Option Nat}
    (hl : Segment (fun a => (s.node a).next.ptr) s.head.ptr l q)
    (hn : ∀ a ∈ l, s.live a ∧ (s.node a).next.ptr ≠ none) :
    Segment (fun a => (s'.node a).next.ptr) s'.head.ptr l q := by
  rw [hs.head_eq]
  exact hl.congr fun a ha => congrArg CountedNodePtr.ptr (hs.next_eq (hn a ha).1 (hn a ha).2)

theorem Inv.grows (h : Inv s front last rest) (hs : Step t s s') (hc : Careful t s s') :
    ∃ front' last' rest', Inv s' front' last' rest' ∧
      Grows s s' (front ++ [last]) (filled? (s.pc t) (s'.pc t)) (front' ++ [last']) := by
  obtain ⟨front', last', rest', h'⟩ := h.step hs hc
  refine ⟨front', last', rest', h', ?_⟩
  have hlive : ∀ a ∈ front ++ [last], s.live a := fun a ha => h.live_of_mem (mem_of_seen rest ha)
  have hfront : ∀ a ∈ front, s.live a ∧ (s.node a).next.ptr ≠ none := fun a ha =>
    ⟨hlive a (List.mem_append_left _ ha), h.next_front ha⟩
  rcases h.tail_step hs hc with ht | ⟨a, b, ha, hb, ht⟩
  · obtain rfl : last' = last := Option.some.inj (h'.tail.symm.trans (ht.trans h.tail))
    obtain rfl : front' = front := h'.front_eq (hs.segment h.segment hfront)
    cases hf : filled? (s.pc t) (s'.pc t) with
    | none => exact .same ht fun a ha => hs.data_eq (hlive a ha) (.inr hf)
    | some k =>
      obtain ⟨n, old, p, hpc, hp, hnone, rfl⟩ := hs.of_filled hf
      have hok := h.pcs t
      rw [hpc] at hok
      obtain ⟨p', hmem, hp'⟩ := hok
      obtain rfl : p' = p := Option.some.inj (hp'.symm.trans hp)
      obtain ⟨rfl, -⟩ := h.eq_last_of_data hmem hnone
      refine .fill k p' ht h.tail hnone ?_ fun a _ hne => congrArg CountedNode.data (setNode_of_ne s _ hne)
      simp [State.setPc, State.setNode]
  · obtain rfl : a = last := Option.some.inj (ha.symm.trans h.tail)
    obtain rfl : last' = b := Option.some.inj (h'.tail.symm.trans ht)
    have hrest : rest = some last' := h.next_last.symm.trans hb
    have hne : last' ≠ a := h.rest_ne (by simp) hrest
    have hseg : Segment (fun a => (s.node a).next.ptr) s.head.ptr (front ++ [a]) (some last') :=
      h.segment.append ⟨rfl, hb⟩
    obtain rfl : front' = front ++ [a] := by
      refine h'.front_eq (hs.segment hseg fun x hx => ⟨hlive x hx, ?_⟩)
      rcases List.mem_append.1 hx with hx | hx
      · exact h.next_front hx
      · rw [List.mem_singleton.1 hx, hb]
        simp
    have hmove : s'.tail.ptr ≠ s.tail.ptr := by
      rw [ht, ha]
      simpa using hne
    have hf : filled? (s.pc t) (s'.pc t) = none := by
      by_contra hf
      obtain ⟨k, hk⟩ := Option.ne_none_iff_exists'.1 hf
      obtain ⟨n, old, p, -, -, -, rfl⟩ := hs.of_filled hk
      exact hmove rfl
    rw [hf]
    have hempty : (s'.node last').data = none := by
      have hd := hs.data_eq (h.live_of_mem (a := last') (by simp [hrest])) (.inr hf)
      rw [hd, h.behind last' hrest]
      rfl
    exact .swing a last' hmove ha (h.taken (by simp [hrest])) hempty fun x hx => hs.data_eq (hlive x hx) (.inr hf)

end Wizard.LockFreeQueue
