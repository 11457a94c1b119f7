import Wizard.RetireList

/-! Where the nodes are. A compare-and-exchange that finds an old word again finds the
node that the word points to on top, whether or not it is the node it was. -/

namespace Wizard.RetireList

variable {Tid Obj : Type*}

/-- The node that a thread is about to push. -/
def Pc.mine? : Pc → Option Ptr
  | .idle => none
  | .gcLoad _ after | .gcCas _ after _ | .deleting _ after _ => after
  | .pushLoad _ n | .pushLink _ n _ | .pushCas _ n _ => some n

/-- The rest of the list that a thread has dropped. -/
def Pc.dropped? : Pc → Option Ptr
  | .deleting _ _ n => some n
  | _ => none

/-- The node to push points to the head that the exchange expects. -/
def Pc.Aimed (next : Ptr → Option Ptr) : Pc → Prop
  | .pushCas _ n oldHead => next n = getPtr oldHead
  | _ => True

theorem Pc.Aimed.congr {next next' : Ptr → Option Ptr} {pc : Pc} (h : pc.Aimed next)
    (he : ∀ n, pc.mine? = some n → next' n = next n) : pc.Aimed next' := by
  cases pc with
  | pushCas now n oldHead => exact (he n rfl).trans h
  | _ => trivial

inductive Place (Tid : Type*)
  | list
  | dropped (t : Tid)
  | mine (t : Tid)

def At (s : State Tid Obj) (list : List Ptr) (drop : Tid → List Ptr) (p : Ptr) : Place Tid → Prop
  | .list => p ∈ list
  | .dropped t => p ∈ drop t
  | .mine t => (s.pc t).mine? = some p

structure Kept (s : State Tid Obj) (list : List Ptr) (drop : Tid → List Ptr) : Prop where
  place : OnePlace s.live (At s list drop)
  linked : Segment s.next (getPtr s.head) list none
  dropped : ∀ t, Segment s.next (s.pc t).dropped? (drop t) none
  small : ∀ p, s.live p → p ≠ 0 ∧ p.toNat < 2 ^ 48
  aimed : ∀ t, (s.pc t).Aimed s.next

variable {s s' : State Tid Obj} {list : List Ptr} {drop : Tid → List Ptr} {t : Tid}

theorem Kept.drop_nil (h : Kept s list drop) (hd : (s.pc t).dropped? = none) : drop t = [] := by
  have hh := h.dropped t
  rw [hd] at hh
  exact hh.eq_nil

variable [DecidableEq Tid]

theorem at_setPc {pc : Pc} (hm : pc.mine? = (s.pc t).mine?) (p : Ptr) (pl : Place Tid) :
    At (s.setPc t pc) list drop p pl ↔ At s list drop p pl := by
  cases pl with
  | list => rfl
  | dropped u => rfl
  | mine u =>
    by_cases hu : u = t
    · simp [At, State.setPc, hu, hm]
    · simp [At, State.setPc, hu]

theorem Kept.setPc (h : Kept s list drop) {pc : Pc} (hm : pc.mine? = (s.pc t).mine?)
    (hd : pc.dropped? = (s.pc t).dropped?) (ha : pc.Aimed s.next) : Kept (s.setPc t pc) list drop := by
  constructor
  · exact h.place.congr (at_setPc hm)
  · exact h.linked
  · exact (Function.forall_update_iff s.pc (p := fun u x => Segment s.next x.dropped? (drop u) none)).2
      ⟨hd ▸ h.dropped t, fun u _ => h.dropped u⟩
  · exact h.small
  · exact (Function.forall_update_iff s.pc (p := fun _ x => x.Aimed s.next)).2 ⟨ha, fun u _ => h.aimed u⟩

theorem finishGc_eq (s : State Tid Obj) (t : Tid) (now : Nat) (after : Option Ptr) :
    ∃ pc, s.finishGc t now after = s.setPc t pc ∧ pc.mine? = after ∧ pc.dropped? = none ∧ ∀ next, pc.Aimed next := by
  cases after with
  | none => exact ⟨.idle, rfl, rfl, rfl, fun _ => trivial⟩
  | some n => exact ⟨.pushLoad now n, rfl, rfl, rfl, fun _ => trivial⟩

theorem deleteAt_eq (s : State Tid Obj) (t : Tid) (now : Nat) (after q : Option Ptr) :
    ∃ pc, s.deleteAt t now after q = s.setPc t pc ∧ pc.mine? = after ∧ pc.dropped? = q ∧ ∀ next, pc.Aimed next := by
  cases q with
  | none => exact finishGc_eq s t now after
  | some n => exact ⟨.deleting now after n, rfl, rfl, rfl, fun _ => trivial⟩

theorem Kept.finishGc (h : Kept s list drop) {now : Nat} {after : Option Ptr} (hm : (s.pc t).mine? = after)
    (hd : (s.pc t).dropped? = none) : Kept (s.finishGc t now after) list drop := by
  obtain ⟨pc, he, hm', hd', ha⟩ := finishGc_eq s t now after
  rw [he]
  exact h.setPc (hm'.trans hm.symm) (hd'.trans hd.symm) (ha s.next)

omit [DecidableEq Tid] in
theorem Kept.setClock (h : Kept s list drop) (c : Nat) : Kept { s with clock := c } list drop :=
  ⟨h.place, h.linked, h.dropped, h.small, h.aimed⟩

theorem Kept.gcLoad (h : Kept s list drop) {now : Nat} {after : Option Ptr} (ht : s.pc t = .gcLoad now after) :
    Kept (if expire s.head (BitVec.ofNat 16 now) then s.setPc t (.gcCas now after s.head)
      else s.finishGc t now after) list drop := by
  have hm : (s.pc t).mine? = after := by
    rw [ht]
    rfl
  have hd : (s.pc t).dropped? = none := by
    rw [ht]
    rfl
  split
  · exact h.setPc hm.symm hd.symm trivial
  · exact h.finishGc hm hd

theorem Kept.retire (h : Kept s list drop) {p : Ptr} {d : Obj} (ht : s.pc t = .idle) (hp : ¬ s.live p) (h0 : p ≠ 0)
    (h48 : p.toNat < 2 ^ 48) : Kept ({ s with
      live := fun q => q = p ∨ s.live q
      next := Function.update s.next p none
      data := Function.update s.data p (some d)
      stamp := Function.update s.stamp p s.clock }.setPc t (.gcLoad s.clock (some p))) list drop := by
  have hne : ∀ q pl, At s list drop q pl → q ≠ p := fun q pl hq he => hp (he ▸ h.place.mem q pl hq)
  have hnext : ∀ q pl, At s list drop q pl → Function.update s.next p none q = s.next q :=
    fun q pl hq => Function.update_of_ne (hne q pl hq) _ _
  constructor
  · apply h.place.insert p (.mine t)
    · intro q
      rfl
    · intro pl
      cases pl with
      | list => simpa [At] using fun hq => hne p .list hq rfl
      | dropped u => simpa [At] using fun hq => hne p (.dropped u) hq rfl
      | mine u =>
        by_cases hu : u = t
        · simp [At, State.setPc, hu, Pc.mine?]
        · simpa [At, State.setPc, hu] using fun hq => hne p (.mine u) hq rfl
    · intro q pl hq
      cases pl with
      | list => rfl
      | dropped u => rfl
      | mine u =>
        by_cases hu : u = t
        · simpa [At, State.setPc, hu, ht, Pc.mine?] using hq.symm
        · simp [At, State.setPc, hu]
  · exact h.linked.congr fun q hq => hnext q .list hq
  · refine (Function.forall_update_iff s.pc (p := fun u x => Segment _ x.dropped? (drop u) none)).2 ⟨?_, fun u _ => ?_⟩
    · rw [h.drop_nil (t := t) (by rw [ht]; rfl)]
      rfl
    · exact (h.dropped u).congr fun q hq => hnext q (.dropped u) hq
  · intro q hq
    rcases hq with rfl | hq
    · exact ⟨h0, h48⟩
    · exact h.small q hq
  · refine (Function.forall_update_iff s.pc (p := fun _ x => x.Aimed _)).2 ⟨trivial, fun u _ => ?_⟩
    exact (h.aimed u).congr fun q hq => hnext q (.mine u) hq

/-- Where things are after thread `t` has taken the list. -/
def moved (t : Tid) (_ : Ptr) : Place Tid → Place Tid
  | .list => .dropped t
  | pl => pl

theorem Kept.gcCasOk (h : Kept s list drop) {now : Nat} {after : Option Ptr} {oldHead : TaggedPtr}
    (ht : s.pc t = .gcCas now after oldHead) (he : s.head = oldHead) :
    Kept ({ s with head := 0 }.deleteAt t now after (getPtr oldHead)) [] (Function.update drop t list) := by
  have hnil := h.drop_nil (t := t) (by rw [ht]; rfl)
  obtain ⟨pc, hpc, hmine, hdrop, ha⟩ := deleteAt_eq { s with head := 0 } t now after (getPtr oldHead)
  have hmine' : ∀ u, (Function.update s.pc t pc u).mine? = (s.pc u).mine? := by
    refine (Function.forall_update_iff s.pc (p := fun u x => x.mine? = (s.pc u).mine?)).2 ⟨?_, fun u _ => rfl⟩
    rw [ht]
    exact hmine
  have hnull : getPtr 0 = none := rfl
  rw [hpc]
  constructor
  · apply h.place.map (moved t)
    intro p pl
    cases pl with
    | list =>
      constructor
      · rintro ⟨⟩
      · rintro ⟨_ | u | u, hq, ⟨⟩⟩
    | dropped u =>
      change p ∈ Function.update drop t list u ↔ _
      by_cases hu : u = t
      · subst hu
        rw [Function.update_self]
        constructor
        · intro hp
          exact ⟨.list, hp, rfl⟩
        · rintro ⟨_ | v | v, hq, ⟨⟩⟩
          · exact hq
          · change p ∈ drop _ at hq
            rw [hnil] at hq
            cases hq
      · rw [Function.update_of_ne hu]
        constructor
        · intro hp
          exact ⟨.dropped u, hp, rfl⟩
        · rintro ⟨_ | v | v, hq, ⟨⟩⟩
          · exact absurd rfl hu
          · exact hq
    | mine u =>
      change (Function.update s.pc t pc u).mine? = some p ↔ _
      rw [hmine']
      constructor
      · intro hp
        exact ⟨.mine u, hp, rfl⟩
      · rintro ⟨_ | v | v, hq, ⟨⟩⟩
        exact hq
  · exact hnull
  · intro u
    change Segment s.next (Function.update s.pc t pc u).dropped? (Function.update drop t list u) none
    by_cases hu : u = t
    · rw [hu, Function.update_self, Function.update_self, hdrop, ← he]
      exact h.linked
    · rw [Function.update_of_ne hu, Function.update_of_ne hu]
      exact h.dropped u
  · exact h.small
  · exact (Function.forall_update_iff s.pc (p := fun _ x => x.Aimed s.next)).2 ⟨ha s.next, fun u _ => h.aimed u⟩

theorem Kept.gcCasFail (h : Kept s list drop) {now : Nat} {after : Option Ptr} {oldHead : TaggedPtr}
    (ht : s.pc t = .gcCas now after oldHead) : Kept (s.finishGc t now after) list drop := by
  apply h.finishGc
  · rw [ht]
    rfl
  · rw [ht]
    rfl

/-- A node leaves the memory before the others that were dropped with it. -/
theorem Kept.delete (h : Kept s list drop) {now : Nat} {after : Option Ptr} {n : Ptr}
    (ht : s.pc t = .deleting now after n) :
    ∃ rest, drop t = n :: rest ∧ Kept ({ s with
      live := fun q => q ≠ n ∧ s.live q
      freed := ⟨s.data n, s.stamp n, now⟩ :: s.freed }.deleteAt t now after (s.next n)) list
        (Function.update drop t rest) := by
  have hseg := h.dropped t
  rw [ht] at hseg
  cases hdrop : drop t with
  | nil =>
    rw [hdrop] at hseg
    cases hseg
  | cons a rest =>
    have hnodup := hseg.nodup
    rw [hdrop] at hseg hnodup
    obtain ⟨⟨⟩, hseg⟩ := hseg
    rw [List.nodup_cons] at hnodup
    have hn : At s list drop n (.dropped t) := by
      change n ∈ drop t
      rw [hdrop]
      exact List.mem_cons_self
    have hplace : ∀ q pl, At s list drop q pl → pl ≠ .dropped t → q ≠ n := by
      intro q pl hpl hne he
      exact hne (h.place.unique n pl (.dropped t) (he ▸ hpl) hn)
    obtain ⟨pc, hpc, hmine, hdropped, ha⟩ := deleteAt_eq { s with
      live := fun q => q ≠ n ∧ s.live q
      freed := ⟨s.data n, s.stamp n, now⟩ :: s.freed } t now after (s.next n)
    have hmine' : ∀ u, (Function.update s.pc t pc u).mine? = (s.pc u).mine? := by
      refine (Function.forall_update_iff s.pc (p := fun u x => x.mine? = (s.pc u).mine?)).2 ⟨?_, fun u _ => rfl⟩
      rw [ht]
      exact hmine
    refine ⟨rest, rfl, ?_⟩
    rw [hpc]
    constructor
    · apply h.place.remove n
      · intro q
        rfl
      · intro q pl
        cases pl with
        | list =>
          change q ∈ list ↔ q ≠ n ∧ q ∈ list
          refine ⟨fun hq => ⟨hplace q .list hq ?_, hq⟩, And.right⟩
          rintro ⟨⟩
        | dropped u =>
          change q ∈ Function.update drop t rest u ↔ q ≠ n ∧ q ∈ drop u
          by_cases hu : u = t
          · rw [hu, Function.update_self, hdrop, List.mem_cons]
            constructor
            · intro hq
              exact ⟨ne_of_mem_of_not_mem hq hnodup.1, .inr hq⟩
            · rintro ⟨hqn, hq⟩
              exact hq.resolve_left hqn
          · rw [Function.update_of_ne hu]
            refine ⟨fun hq => ⟨hplace q (.dropped u) hq ?_, hq⟩, And.right⟩
            rintro ⟨⟩
            exact hu rfl
        | mine u =>
          change (Function.update s.pc t pc u).mine? = some q ↔ q ≠ n ∧ (s.pc u).mine? = some q
          rw [hmine']
          refine ⟨fun hq => ⟨hplace q (.mine u) hq ?_, hq⟩, And.right⟩
          rintro ⟨⟩
    · exact h.linked
    · intro u
      change Segment s.next (Function.update s.pc t pc u).dropped? (Function.update drop t rest u) none
      by_cases hu : u = t
      · rw [hu, Function.update_self, Function.update_self, hdropped]
        exact hseg
      · rw [Function.update_of_ne hu, Function.update_of_ne hu]
        exact h.dropped u
    · intro q hq
      exact h.small q hq.2
    · exact (Function.forall_update_iff s.pc (p := fun _ x => x.Aimed s.next)).2 ⟨ha s.next, fun u _ => h.aimed u⟩

theorem Kept.pushLoad (h : Kept s list drop) {now : Nat} {n : Ptr} (ht : s.pc t = .pushLoad now n) :
    Kept (s.setPc t (.pushLink now n s.head)) list drop := by
  apply h.setPc
  · rw [ht]
    rfl
  · rw [ht]
    rfl
  · trivial

theorem Kept.pushCasFail (h : Kept s list drop) {now : Nat} {n : Ptr} {oldHead : TaggedPtr}
    (ht : s.pc t = .pushCas now n oldHead) :
    Kept (s.setPc t (.pushLink now n s.head)) list drop := by
  apply h.setPc
  · rw [ht]
    rfl
  · rw [ht]
    rfl
  · trivial

theorem Kept.pushLink (h : Kept s list drop) {now : Nat} {n : Ptr} {oldHead : TaggedPtr}
    (ht : s.pc t = .pushLink now n oldHead) :
    Kept ({ s with next := Function.update s.next n (getPtr oldHead) }.setPc t (.pushCas now n oldHead)) list drop := by
  have hn : At s list drop n (.mine t) := by
    change (s.pc t).mine? = some n
    rw [ht]
    rfl
  have hnext : ∀ q pl, At s list drop q pl → pl ≠ .mine t →
      Function.update s.next n (getPtr oldHead) q = s.next q := by
    intro q pl hpl hne
    refine Function.update_of_ne (fun he => ?_) _ _
    exact hne (h.place.unique n pl (.mine t) (he ▸ hpl) hn)
  constructor
  · exact h.place.congr (at_setPc (by rw [ht]; rfl))
  · exact h.linked.congr fun q hq => hnext q .list hq (by rintro ⟨⟩)
  · refine (Function.forall_update_iff s.pc (p := fun u x => Segment _ x.dropped? (drop u) none)).2 ⟨?_, fun u _ => ?_⟩
    · rw [h.drop_nil (t := t) (by rw [ht]; rfl)]
      rfl
    · exact (h.dropped u).congr fun q hq => hnext q (.dropped u) hq (by rintro ⟨⟩)
  · exact h.small
  · refine (Function.forall_update_iff s.pc (p := fun _ x => x.Aimed _)).2 ⟨Function.update_self _ _ _, fun u hu => ?_⟩
    refine (h.aimed u).congr fun q hq => hnext q (.mine u) hq ?_
    rintro ⟨⟩
    exact hu rfl

theorem Kept.pushCasOk (h : Kept s list drop) {now : Nat} {n : Ptr} {oldHead : TaggedPtr}
    (ht : s.pc t = .pushCas now n oldHead)
    (he : s.head = oldHead) :
    Kept ({ s with head := makeTaggedPtr n (BitVec.ofNat 16 now) }.setPc t .idle) (n :: list) drop := by
  have hmine : At s list drop n (.mine t) := by
    change (s.pc t).mine? = some n
    rw [ht]
    rfl
  have haimed := h.aimed t
  rw [ht, Pc.Aimed] at haimed
  obtain ⟨h0, h48⟩ := h.small n (h.place.mem n _ hmine)
  constructor
  · apply h.place.move .list hmine
    · intro pl
      cases pl with
      | list => simp [At]
      | dropped u =>
        refine ⟨fun hu => ?_, fun hu => by cases hu⟩
        cases h.place.unique n (.dropped u) (.mine t) hu hmine
      | mine u =>
        refine ⟨fun hu => ?_, fun hu => by cases hu⟩
        change (Function.update s.pc t .idle u).mine? = some n at hu
        by_cases hut : u = t
        · rw [hut, Function.update_self] at hu
          cases hu
        · rw [Function.update_of_ne hut] at hu
          cases h.place.unique n (.mine u) (.mine t) hu hmine
          exact absurd rfl hut
    · intro q pl hq
      cases pl with
      | list => simp [At, hq]
      | dropped u => rfl
      | mine u =>
        change (Function.update s.pc t .idle u).mine? = some q ↔ (s.pc u).mine? = some q
        by_cases hut : u = t
        · rw [hut, Function.update_self, ht]
          simpa [Pc.mine?] using hq.symm
        · rw [Function.update_of_ne hut]
  · refine ⟨getPtr_makeTaggedPtr h0 h48 _, ?_⟩
    change Segment s.next (s.next n) list none
    rw [haimed, ← he]
    exact h.linked
  · refine (Function.forall_update_iff s.pc (p := fun u x => Segment _ x.dropped? (drop u) none)).2 ⟨?_, fun u _ =>
      h.dropped u⟩
    rw [h.drop_nil (t := t) (by rw [ht]; rfl)]
    rfl
  · exact h.small
  · exact (Function.forall_update_iff s.pc (p := fun _ x => x.Aimed s.next)).2 ⟨trivial, fun u _ => h.aimed u⟩

omit [DecidableEq Tid] in
theorem Kept.init {start : Nat} (h : Init start s) : Kept s [] (fun _ => []) := by
  have hat : ∀ p pl, ¬ At s [] (fun _ => []) p pl := by
    intro p pl hp
    cases pl with
    | list => cases hp
    | dropped t => cases hp
    | mine t =>
      change (s.pc t).mine? = some p at hp
      rw [h.pc t] at hp
      cases hp
  constructor
  · constructor
    · intro p pl hp
      exact absurd hp (hat p pl)
    · intro p hp
      exact absurd hp (h.live p)
    · intro p pl pl' hp
      exact absurd hp (hat p pl)
  · change getPtr s.head = none
    rw [h.head]
    rfl
  · intro t
    rw [h.pc t]
    rfl
  · intro p hp
    exact absurd hp (h.live p)
  · intro t
    rw [h.pc t]
    trivial

end Wizard.RetireList
