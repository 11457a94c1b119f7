import Wizard.NonlockFreeQueueLinks

/-! First in, first out. Nodes are never used again. -/

namespace Wizard.NonlockFreeQueue

variable {T Tid : Type} {s t : State T Tid} {p : Pc T} {i j : Tid} {a n : Nat}

namespace State

/-- The values in the nodes against the pushes and pops. -/
structure Ledger (s : State T Tid) : Prop where
  length : s.popped.length + s.front.length = s.exchanged
  pending : s.exchanged ≤ s.pushed.length ∧ s.pushed.length ≤ s.exchanged + 1
  front : ∀ k a, s.front[k]? = some a → (s.node a).data = s.pushed[s.popped.length + k]?
  tail : ∀ a, s.tail.ptr = some a → (s.node a).data = s.pushed[s.exchanged]?
  turns : ∀ i k, (s.pc i).turn = some k → s.popped[k]? = some none ∧
    ∀ a, (s.pc i).held = some a → (s.node a).data = s.pushed[k]?
  apart : ∀ i j k l, (s.pc i).turn = some k → (s.pc j).turn = some l → i ≠ j → k ≠ l ∧
    ∀ a, (s.pc i).held = some a → (s.pc j).held ≠ some a
  taken : ∀ (k : Nat) (r : Option T), s.popped[k]? = some (some r) → r = s.pushed[k]?
  saw : ∀ i b, (s.pc i).saw = some b → b = true

namespace Ledger

variable [DecidableEq Tid]

theorem keep (h : s.Ledger) (hpc : t.pc = Function.update s.pc i p) (htail : t.tail.ptr = s.tail.ptr)
    (hfront : t.front = s.front) (hpushed : t.pushed = s.pushed) (hexchanged : t.exchanged = s.exchanged)
    (hpopped : t.popped = s.popped) (hdata : ∀ a, s.InUse a → (t.node a).data = (s.node a).data)
    (hturn : ∀ k, p.turn = some k → (s.pc i).turn = some k ∧ p.held = (s.pc i).held)
    (hsaw : ∀ b, p.saw = some b → b = true ∨ (s.pc i).saw = some b) : t.Ledger := by
  have hself : t.pc i = p := by rw [hpc, Function.update_self]
  have hother : ∀ j, j ≠ i → t.pc j = s.pc j := fun j hj => by rw [hpc, Function.update_of_ne hj]
  have hturns : ∀ j k, (t.pc j).turn = some k → (s.pc j).turn = some k ∧ (t.pc j).held = (s.pc j).held := by
    intro j k hk
    by_cases hj : j = i
    · rw [hj, hself] at hk ⊢
      exact hturn k hk
    · rw [hother j hj] at hk ⊢
      exact ⟨hk, rfl⟩
  refine ⟨?_, ?_, fun k a ha => ?_, fun a ha => ?_, fun j k hk => ?_, fun j l k m hk hm hjl => ?_, fun k r hr => ?_,
    fun j b hb => ?_⟩
  · rw [hpopped, hfront, hexchanged]
    exact h.length
  · rw [hexchanged, hpushed]
    exact h.pending
  · rw [hfront] at ha
    rw [hdata a (.inl (.inl (List.mem_of_getElem? ha))), hpushed, hpopped]
    exact h.front k a ha
  · rw [htail] at ha
    rw [hdata a (.inl (.inr ha)), hpushed, hexchanged]
    exact h.tail a ha
  · obtain ⟨hk', hh⟩ := hturns j k hk
    obtain ⟨hnone, hd⟩ := h.turns j k hk'
    rw [hpopped, hh, hpushed]
    refine ⟨hnone, fun a ha => ?_⟩
    rw [hdata a (.inr (.inr ⟨j, ha⟩))]
    exact hd a ha
  · obtain ⟨hk', hh⟩ := hturns j k hk
    obtain ⟨hm', hh'⟩ := hturns l m hm
    rw [hh, hh']
    exact h.apart j l k m hk' hm' hjl
  · rw [hpopped] at hr
    rw [hpushed]
    exact h.taken k r hr
  · by_cases hj : j = i
    · rw [hj, hself] at hb
      obtain hb | hb := hsaw b hb
      · exact hb
      · exact h.saw i b hb
    · rw [hother j hj] at hb
      exact h.saw j b hb

/-- Thread `i` alone is at another place. -/
theorem others_turn {k : Nat} (hpc : t.pc = Function.update s.pc i p) (hp : p.turn = none)
    (hk : (t.pc j).turn = some k) : j ≠ i ∧ t.pc j = s.pc j := by
  by_cases hj : j = i
  · rw [hj, hpc, Function.update_self, hp] at hk
    cases hk
  · exact ⟨hj, by rw [hpc, Function.update_of_ne hj]⟩

theorem apart_others (h : s.Ledger) (hpc : t.pc = Function.update s.pc i p) (hp : p.turn = none) (j l : Tid)
    (k m : Nat) (hk : (t.pc j).turn = some k) (hm : (t.pc l).turn = some m) (hjl : j ≠ l) :
    k ≠ m ∧ ∀ a, (t.pc j).held = some a → (t.pc l).held ≠ some a := by
  obtain ⟨-, he⟩ := others_turn hpc hp hk
  obtain ⟨-, he'⟩ := others_turn hpc hp hm
  rw [he] at hk ⊢
  rw [he'] at hm ⊢
  exact h.apart j l k m hk hm hjl

theorem saw_others (h : s.Ledger) (hpc : t.pc = Function.update s.pc i p) (hp : p.saw = none) (j : Tid) (b : Bool)
    (hb : (t.pc j).saw = some b) : b = true := by
  by_cases hj : j = i
  · rw [hj, hpc, Function.update_self, hp] at hb
    cases hb
  · rw [hpc, Function.update_of_ne hj] at hb
    exact h.saw j b hb

theorem fill {v : T} {old : CountedNodePtr} (h : s.Ledger) (hl : s.Linked) (hat : s.tail.ptr = some a)
    (hdata : (s.node a).data = none) (hpc : t.pc = Function.update s.pc i (.pushNext n old))
    (htail : t.tail = s.tail) (hfront : t.front = s.front)
    (hnode : t.node = Function.update s.node a { s.node a with data := some v }) (hpushed : t.pushed = s.pushed ++ [v])
    (hexchanged : t.exchanged = s.exchanged) (hpopped : t.popped = s.popped) : t.Ledger := by
  obtain ⟨z, hz, hout⟩ := hl.chain.tail
  have hza : z = a := Option.some.inj (hz.symm.trans hat)
  subst hza
  have hlen := h.length
  have hpend := h.pending
  have hfull : s.pushed.length = s.exchanged := by
    have hnone := h.tail z hat
    rw [hdata] at hnone
    have hle := List.getElem?_eq_none_iff.1 hnone.symm
    omega
  have hne : ∀ b, b ≠ z → (t.node b).data = (s.node b).data := by
    intro b hb
    rw [hnode, Function.update_of_ne hb]
  have hold : ∀ k, k < s.exchanged → t.pushed[k]? = s.pushed[k]? := by
    intro k hk
    rw [hpushed, List.getElem?_append_left (by omega)]
  refine ⟨?_, ?_, fun k b hb => ?_, fun b hb => ?_, fun j k hk => ?_, h.apart_others hpc rfl, fun k r hr => ?_,
    h.saw_others hpc rfl⟩
  · rw [hpopped, hfront, hexchanged]
    exact hlen
  · rw [hexchanged, hpushed, List.length_append, List.length_singleton]
    omega
  · rw [hfront] at hb
    have hkl : k < s.front.length := (List.getElem?_eq_some_iff.1 hb).1
    rw [hne b (ne_of_mem_of_not_mem (List.mem_of_getElem? hb) hout), hpopped, hold _ (by omega)]
    exact h.front k b hb
  · rw [htail] at hb
    have hbz : b = z := Option.some.inj (hb.symm.trans hat)
    rw [hbz, hnode, Function.update_self, hpushed, hexchanged, ← hfull, List.getElem?_concat_length]
  · obtain ⟨hj, he⟩ := others_turn hpc rfl hk
    rw [he] at hk ⊢
    obtain ⟨hnone, hd⟩ := h.turns j k hk
    have hkl : k < s.popped.length := (List.getElem?_eq_some_iff.1 hnone).1
    refine ⟨by rw [hpopped, hnone], fun b hb => ?_⟩
    have hbz : b ≠ z := by
      cases hq : s.pc j with
      | popData old' k' =>
        have hst := hl.stands j
        rw [hq] at hst hb
        exact fun hbz => hst b hb (.inr (hbz ▸ hat))
      | _ => rw [hq] at hk; cases hk
    rw [hne b hbz, hold k (by omega)]
    exact hd b hb
  · rw [hpopped] at hr
    have hkl : k < s.popped.length := (List.getElem?_eq_some_iff.1 hr).1
    rw [hold k (by omega)]
    exact h.taken k r hr

theorem exchange {old : CountedNodePtr} (h : s.Ledger) (hl : s.Linked) (hi : s.pc i = .pushExchange n old)
    (hpc : t.pc = Function.update s.pc i (.freeLoad s.tail .done)) (htail : t.tail = .first n)
    (hfront : t.front = s.front ++ s.tail.ptr.toList) (hnode : t.node = s.node) (hpushed : t.pushed = s.pushed)
    (hexchanged : t.exchanged = s.exchanged + 1) (hpopped : t.popped = s.popped) : t.Ledger := by
  obtain ⟨z, hz, hout⟩ := hl.chain.tail
  have hlen := h.length
  have hpend := h.pending
  have hfront' : t.front = s.front ++ [z] := by rw [hfront, hz]; rfl
  have hmore : s.pushed.length = s.exchanged + 1 := by
    have hsome := (hl.filled i (by rw [hi]; rfl)).2 z hz
    rw [h.tail z hz, Ne, List.getElem?_eq_none_iff] at hsome
    omega
  refine ⟨?_, ?_, fun k b hb => ?_, fun b hb => ?_, fun j k hk => ?_, h.apart_others hpc rfl, fun k r hr => ?_,
    h.saw_others hpc rfl⟩
  · rw [hpopped, hfront', hexchanged, List.length_append, List.length_singleton]
    omega
  · rw [hexchanged, hpushed]
    omega
  · rw [hfront'] at hb
    rw [hnode, hpushed, hpopped]
    by_cases hk : k < s.front.length
    · rw [List.getElem?_append_left hk] at hb
      exact h.front k b hb
    · have hkl := (List.getElem?_eq_some_iff.1 hb).1
      rw [List.length_append, List.length_singleton] at hkl
      have hke : k = s.front.length := by omega
      rw [hke, List.getElem?_concat_length] at hb
      cases hb
      rw [hke, hlen]
      exact h.tail z hz
  · rw [htail] at hb
    have hbn : n = b := Option.some.inj hb
    rw [← hbn, hnode, hpushed, hexchanged, (hl.fresh i n (by rw [hi]; rfl)).1, eq_comm, List.getElem?_eq_none_iff]
    omega
  · obtain ⟨-, he⟩ := others_turn hpc rfl hk
    rw [he] at hk ⊢
    rw [hpopped, hnode, hpushed]
    exact h.turns j k hk
  · rw [hpopped] at hr
    rw [hpushed]
    exact h.taken k r hr

theorem takeHead (h : s.Ledger) (hl : s.Linked) (ha : s.head.ptr = some a)
    (hcons : s.front = a :: t.front) (hpc : t.pc = Function.update s.pc i (.popData s.head s.popped.length))
    (htail : t.tail = s.tail) (hnode : t.node = s.node) (hpushed : t.pushed = s.pushed)
    (hexchanged : t.exchanged = s.exchanged) (hpopped : t.popped = s.popped ++ [none]) : t.Ledger := by
  have hlen := h.length
  have hself : t.pc i = .popData s.head s.popped.length := by rw [hpc, Function.update_self]
  have hother : ∀ j, j ≠ i → t.pc j = s.pc j := fun j hj => by rw [hpc, Function.update_of_ne hj]
  have hlt : ∀ j k, (s.pc j).turn = some k → k < s.popped.length :=
    fun j k hk => (List.getElem?_eq_some_iff.1 (h.turns j k hk).1).1
  have hout : ∀ j k, (s.pc j).turn = some k → (s.pc j).held ≠ some a := by
    intro j k hk hheld
    cases hq : s.pc j with
    | popData old' k' =>
      have hst := hl.stands j
      rw [hq] at hst hheld
      exact hst a hheld (hl.chain.head_listed ha)
    | _ => rw [hq] at hk; cases hk
  refine ⟨?_, ?_, fun k b hb => ?_, fun b hb => ?_, fun j k hk => ?_, fun j l k m hk hm hjl => ?_, fun k r hr => ?_,
    h.saw_others hpc rfl⟩
  · rw [hcons, List.length_cons] at hlen
    rw [hpopped, hexchanged, List.length_append, List.length_singleton]
    omega
  · rw [hexchanged, hpushed]
    exact h.pending
  · have hh := h.front (k + 1) b (by rw [hcons]; exact hb)
    rw [hnode, hpushed, hpopped, List.length_append, List.length_singleton, Nat.add_assoc, Nat.add_comm 1 k]
    exact hh
  · rw [htail] at hb
    rw [hnode, hpushed, hexchanged]
    exact h.tail b hb
  · rw [hnode, hpushed, hpopped]
    by_cases hj : j = i
    · rw [hj, hself] at hk ⊢
      cases hk
      refine ⟨List.getElem?_concat_length, fun b hb => ?_⟩
      have hba : a = b := Option.some.inj (ha.symm.trans hb)
      have hh := h.front 0 a (by rw [hcons]; rfl)
      rw [← hba]
      exact hh
    · rw [hother j hj] at hk ⊢
      rw [List.getElem?_append_left (hlt j k hk)]
      exact h.turns j k hk
  · by_cases hj : j = i <;> by_cases hli : l = i
    · exact absurd (hj.trans hli.symm) hjl
    · rw [hj, hself] at hk ⊢
      rw [hother l hli] at hm ⊢
      cases hk
      exact ⟨(hlt l m hm).ne', fun b hb hb' => hout l m hm (hb'.trans (hb.symm.trans ha))⟩
    · rw [hli, hself] at hm ⊢
      rw [hother j hj] at hk ⊢
      cases hm
      exact ⟨(hlt j k hk).ne, fun b hb hb' => hout j k hk (hb.trans (hb'.symm.trans ha))⟩
    · rw [hother j hj] at hk ⊢
      rw [hother l hli] at hm ⊢
      exact h.apart j l k m hk hm hjl
  · rw [hpushed]
    rw [hpopped] at hr
    by_cases hkl : k < s.popped.length
    · rw [List.getElem?_append_left hkl] at hr
      exact h.taken k r hr
    · have hle := (List.getElem?_eq_some_iff.1 hr).1
      rw [List.length_append, List.length_singleton] at hle
      have hke : k = s.popped.length := by omega
      rw [hke, List.getElem?_concat_length] at hr
      cases hr

theorem takeData {old : CountedNodePtr} {turn : Nat} (h : s.Ledger) (hl : s.Linked)
    (hi : s.pc i = .popData old turn) (ha : old.ptr = some a)
    (hpc : t.pc = Function.update s.pc i (.freeLoad old .done)) (htail : t.tail = s.tail) (hfront : t.front = s.front)
    (hnode : t.node = Function.update s.node a { s.node a with data := none }) (hpushed : t.pushed = s.pushed)
    (hexchanged : t.exchanged = s.exchanged) (hpopped : t.popped = s.popped.set turn (some (s.node a).data)) :
    t.Ledger := by
  have hmine : (s.pc i).turn = some turn := by rw [hi]; rfl
  have hheld : (s.pc i).held = some a := by rw [hi]; exact ha
  have hout : ¬ s.Listed a := by
    have hst := hl.stands i
    rw [hi] at hst
    exact hst a ha
  have hne : ∀ b, b ≠ a → (t.node b).data = (s.node b).data := by
    intro b hb
    rw [hnode, Function.update_of_ne hb]
  refine ⟨?_, ?_, fun k b hb => ?_, fun b hb => ?_, fun j k hk => ?_, h.apart_others hpc rfl, fun k r hr => ?_,
    h.saw_others hpc rfl⟩
  · rw [hpopped, hfront, hexchanged, List.length_set]
    exact h.length
  · rw [hexchanged, hpushed]
    exact h.pending
  · rw [hfront] at hb
    have hba : b ≠ a := fun he => hout (.inl (he ▸ List.mem_of_getElem? hb))
    rw [hne b hba, hpushed, hpopped, List.length_set]
    exact h.front k b hb
  · rw [htail] at hb
    have hba : b ≠ a := fun he => hout (.inr (he ▸ hb))
    rw [hne b hba, hpushed, hexchanged]
    exact h.tail b hb
  · obtain ⟨hj, he⟩ := others_turn hpc rfl hk
    rw [he] at hk ⊢
    obtain ⟨hnone, hd⟩ := h.turns j k hk
    obtain ⟨hkt, hap⟩ := h.apart i j turn k hmine hk (Ne.symm hj)
    rw [hpopped, List.getElem?_set_ne hkt, hpushed]
    refine ⟨hnone, fun b hb => ?_⟩
    have hba : b ≠ a := fun he => hap a hheld (he ▸ hb)
    rw [hne b hba]
    exact hd b hb
  · rw [hpushed]
    rw [hpopped] at hr
    by_cases hkt : turn = k
    · obtain ⟨hnone, hd⟩ := h.turns i turn hmine
      have hlt := (List.getElem?_eq_some_iff.1 hnone).1
      rw [← hkt, List.getElem?_set_self hlt] at hr
      cases hr
      rw [← hkt]
      exact hd a hheld
    · rw [List.getElem?_set_ne hkt] at hr
      exact h.taken k r hr

omit [DecidableEq Tid] in
theorem make (dummy : Nat) : (make dummy : State T Tid).Ledger where
  length := rfl
  pending := ⟨Nat.le_refl 0, Nat.zero_le 1⟩
  front k a h := by cases h
  tail a _ := rfl
  turns i k h := by cases h
  apart i j k l h := by cases h
  taken k r h := by cases h
  saw i b h := by cases h

/-- Every access keeps the ledger. -/
theorem effect {o : Option Nat} (h : s.Ledger) (hl : s.Linked) (he : s.Effect i o t) (hold : s.stale i = false)
    (hnew : ∀ n, o = some n → ¬ s.InUse n) : t.Ledger := by
  cases he with
  | move p _ hheld _ hsaw hturn _ _ =>
    exact h.keep rfl rfl rfl rfl rfl rfl (fun _ _ => rfl) (fun k hk => ⟨hturn ▸ hk, hheld⟩)
      (fun b hb => .inr (hsaw ▸ hb))
  | look old a hi ha hat =>
    refine h.keep rfl rfl rfl rfl rfl rfl (fun _ _ => rfl) (fun k hk => by cases hk) (fun b hb => .inl ?_)
    have hhead : s.head.ptr = some a := by
      have hst := hl.stands i
      rw [hi] at hst
      exact hst a ha (.inr hat)
    have hnil : s.front = [] := by
      have hs := hl.chain.segment
      obtain ⟨z, hz, hout⟩ := hl.chain.tail
      cases hf : s.front with
      | nil => rfl
      | cons b l =>
        rw [hf] at hs hout
        have hab : a = b := Option.some.inj (hhead.symm.trans hs.1)
        have hza : z = a := Option.some.inj (hz.symm.trans hat)
        exact absurd (hza ▸ hab ▸ List.mem_cons_self) hout
    have hlen := h.length
    rw [hnil, List.length_nil] at hlen
    cases hb
    simp [drained, ← hlen]
  | push v n hi =>
    refine h.keep rfl rfl rfl rfl rfl rfl (fun a ha => ?_) (fun k hk => by cases hk) (fun b hb => by cases hb)
    have hne : a ≠ n := fun he => hnew n rfl (he ▸ ha)
    dsimp only
    rw [Function.update_of_ne hne]
  | increaseTail v n hi =>
    exact h.keep rfl rfl rfl rfl rfl rfl (fun _ _ => rfl) (fun k hk => by cases hk) (fun b hb => by cases hb)
  | increaseHead hi =>
    exact h.keep rfl rfl rfl rfl rfl rfl (fun _ _ => rfl) (fun k hk => by cases hk) (fun b hb => by cases hb)
  | fill v n old a hi ha hdata =>
    exact h.fill hl (Linked.fill_tail hold hi ha hdata) hdata rfl rfl rfl rfl rfl rfl rfl
  | writeNext n old a hi ha =>
    refine h.keep rfl rfl rfl rfl rfl rfl (fun b _ => ?_) (fun k hk => by cases hk) (fun b hb => by cases hb)
    by_cases hb : b = a
    · rw [hb]
      simp [go]
    · simp [go, hb]
  | exchange n old hi => exact h.exchange hl hi rfl rfl rfl rfl rfl rfl rfl
  | takeHead a hi ha =>
    have hcons := And.left (hl.takeHead (k := s.popped.length) (t := { s with
        head := (s.node a).next
        headLeft := bump s.headLeft s.head.ptr
        front := s.front.tail
        popped := s.popped ++ [none] }.go i (.popData s.head s.popped.length)) hi ha rfl rfl rfl rfl rfl rfl)
    exact h.takeHead hl ha hcons rfl rfl rfl rfl rfl rfl
  | takeData old turn a hi ha => exact h.takeData hl hi ha rfl rfl rfl rfl rfl rfl rfl
  | free old a k hi ha =>
    refine h.keep rfl rfl rfl rfl rfl rfl (fun b _ => (Linked.setCount_node s a b _).1)
      (fun m hm => ?_) (fun b hb => ?_)
    · cases k <;> cases hm
    · cases k <;> cases hb
  | release a k hi =>
    refine h.keep rfl rfl rfl rfl rfl rfl (fun b _ => (Linked.setCount_node s a b _).1)
      (fun m hm => ?_) (fun b hb => ?_)
    · cases k <;> cases hm
    · cases k <;> cases hb

end Ledger

section Runs

/-- No address is allocated twice. -/
def Unused (s : State T Tid) (n : Nat) : Prop := s.made n = 0

instance (s : State T Tid) (n : Nat) : Decidable (s.Unused n) := inferInstanceAs (Decidable (_ = _))

/-- Values go only where tail is. -/
def Steady (s : State T Tid) (i : Tid) : Prop := s.stale i = false

instance (s : State T Tid) (i : Tid) : Decidable (s.Steady i) := inferInstanceAs (Decidable (_ = _))

structure InOrder (s : State T Tid) : Prop where
  linked : s.Linked
  ledger : s.Ledger
  made : ∀ a, s.InUse a → 0 < s.made a

theorem InOrder.make (dummy : Nat) : (make dummy : State T Tid).InOrder where
  linked := .make dummy
  ledger := .make dummy
  made a ha := by
    obtain (ha | ha) | ⟨i, hi⟩ | ⟨i, hi⟩ := ha
    · cases ha
    · cases ha
      simp [State.make, bump]
    · cases hi
    · cases hi

variable [DecidableEq Tid]

theorem InOrder.step (h : s.InOrder) (hs : Step Unused Steady s t) : t.InOrder := by
  obtain ⟨i, x, ht, hfree, hold⟩ := hs
  have he := act_effect ht
  have hnew : ∀ n, x.node = some n → ¬ s.InUse n := fun n hn hu => (h.made n hu).ne' (hfree n hn)
  refine ⟨h.linked.effect he hold hnew, h.ledger.effect h.linked he hold hnew, fun a ha => ?_⟩
  rw [Linked.made_effect he]
  obtain hu | hx := h.linked.inUse he ha
  · exact Nat.add_pos_left (h.made a hu) _
  · rw [hx, hit_self]
    exact Nat.succ_pos _

/-- What pops have taken is in order the beginning of what was pushed, and empty
is returned only when all that was linked had been taken. -/
theorem pops_follow_pushes (h : Reachable Init (Step Unused Steady) s) : s.popped.length ≤ s.pushed.length ∧
    (∀ (k : Nat) (r : Option T), s.popped[k]? = some (some r) → ∃ v, r = some v ∧ s.pushed[k]? = some v) ∧
      ∀ i b, (s.pc i).saw = some b → b = true := by
  have hinv : s.InOrder := h.invariant (fun s hs => by
    obtain ⟨dummy, hd⟩ := hs
    rw [hd]
    exact .make dummy) (fun _ _ _ hs ht => hs.step ht)
  have hlen := hinv.ledger.length
  have hpend := hinv.ledger.pending
  refine ⟨by omega, fun k r hr => ?_, hinv.ledger.saw⟩
  have hk := (List.getElem?_eq_some_iff.1 hr).1
  have hlt : k < s.pushed.length := by omega
  exact ⟨s.pushed[k], by rw [hinv.ledger.taken k r hr, List.getElem?_eq_getElem hlt], List.getElem?_eq_getElem hlt⟩

end Runs

section Examples

/-- A push of thread `i` from its call to its return, nobody in its way. -/
def wholePush (i : Fin 2) (v n : Nat) : List (Fin 2 × Action Nat) := (i, .push v n) :: List.replicate 7 (i, .next)

def wholePop (i : Fin 2) : List (Fin 2 × Action Nat) := (i, .pop) :: List.replicate 7 (i, .next)

theorem pops_follow_pushes_two : ∃ s : State Nat (Fin 2), Reachable Init (Step Unused Steady) s ∧
    (s.pushed, s.popped) = ([5, 6], [some (some 5)]) ∧ s.popped.length ≤ s.pushed.length ∧
      (∀ (k : Nat) (r : Option Nat), s.popped[k]? = some (some r) → ∃ v, r = some v ∧ s.pushed[k]? = some v) ∧
        ∀ i b, (s.pc i).saw = some b → b = true := by
  have h : (exec Unused Steady (State.make 0) (wholePush 0 5 1 ++ wholePush 1 6 2 ++ wholePop 0)).map
    (fun s => (s.pushed, s.popped)) = some ([5, 6], [some (some 5)]) := by decide
  obtain ⟨s, hs, he⟩ := exec_make h
  exact ⟨s, hs, he, pops_follow_pushes hs⟩

/-- Thread 0 has its reference to the first node when thread 1 pushes and pops
there; its own data CAS comes after the pop has cleared the data. -/
theorem pop_takes_null : ∃ s : State Nat (Fin 2), Reachable Init (Step Unused fun _ _ => True) s ∧
    (s.pushed, s.popped) = ([5, 6], [some (some 5), some none]) := by
  have h : (exec Unused (fun _ _ => True) (State.make 0) ([(0, .push 6 1), (0, .next), (0, .next)] ++ wholePush 1 5 2 ++
    wholePop 1 ++ List.replicate 5 (0, .next) ++ (wholePop 1).take 6)).map
      (fun s => (s.pushed, s.popped)) = some ([5, 6], [some (some 5), some none]) := by decide
  exact exec_make h

end Examples

end State

end Wizard.NonlockFreeQueue
