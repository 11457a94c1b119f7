import Mathlib.Tactic
import Wizard.Places
import Wizard.Runs
import Wizard.Segment

/-! The stack of `hazptr_stack.h`. A pop reads the successor of the head before its
compare-exchange and deletes the node after it, and nothing protects the node. -/

namespace Wizard.HazptrStack

structure Node (A T : Type*) where
  data : T
  next : Option A

/-- Where a thread stands in `push` or `pop`, with the node it has made or its `old_head`. -/
inductive Pc (A T : Type*)
  | idle
  | loadHead (a : A)
  | pushCas (a : A)
  | popRead (a : A)
  | popCas (a : A) (p : Option A)
  | popData (a : A)
  | popDelete (a : A) (k : Nat) (v : T)

/-- Pushes are numbered by their place in `pushed`, and `ticket` is the number of the push
that has made a node. -/
structure State (Tid A T : Type*) where
  head : Option A
  node : A → Node A T
  live : A → Prop
  pc : Tid → Pc A T
  ticket : A → Nat
  pushed : List T
  popped : List (Nat × T)

variable {Tid A T : Type*}

structure Init (s : State Tid A T) : Prop where
  head : s.head = none
  live : ∀ a, ¬ s.live a
  pc : ∀ t, s.pc t = .idle
  pushed : s.pushed = []
  popped : s.popped = []

section Moves

variable [DecidableEq Tid] [DecidableEq A]

def State.setPc (s : State Tid A T) (t : Tid) (pc : Pc A T) : State Tid A T :=
  { s with pc := Function.update s.pc t pc }

def State.setNext (s : State Tid A T) (a : A) (p : Option A) : State Tid A T :=
  { s with node := Function.update s.node a { s.node a with next := p } }

/-- The turn of the loop of `pop` with `old_head`. -/
def State.popLoop (s : State Tid A T) (t : Tid) : Option A → State Tid A T
  | none => s.setPc t .idle
  | some a => s.setPc t (.popRead a)

/-- The steps of thread `t`. The address of a deleted node can come back, and a
compare-exchange can fail for no reason. -/
inductive Step (t : Tid) : State Tid A T → State Tid A T → Prop
  | push (s v a) (ht : s.pc t = .idle) (ha : ¬ s.live a) :
      Step t s ({ s with
        node := Function.update s.node a { s.node a with data := v }
        live := fun b => b = a ∨ s.live b
        ticket := Function.update s.ticket a s.pushed.length
        pushed := s.pushed ++ [v] }.setPc t (.loadHead a))
  | loadHead (s a) (ht : s.pc t = .loadHead a) : Step t s ((s.setNext a s.head).setPc t (.pushCas a))
  | pushCasOk (s a) (ht : s.pc t = .pushCas a) (he : s.head = (s.node a).next) :
      Step t s ({ s with head := some a }.setPc t .idle)
  | pushCasFail (s a) (ht : s.pc t = .pushCas a) : Step t s (s.setNext a s.head)
  | pop (s) (ht : s.pc t = .idle) : Step t s (s.popLoop t s.head)
  | popRead (s a) (ht : s.pc t = .popRead a) : Step t s (s.setPc t (.popCas a (s.node a).next))
  | popCasOk (s a p) (ht : s.pc t = .popCas a p) (he : s.head = some a) :
      Step t s ({ s with head := p }.setPc t (.popData a))
  | popCasFail (s a p) (ht : s.pc t = .popCas a p) : Step t s (s.popLoop t s.head)
  | popData (s a) (ht : s.pc t = .popData a) : Step t s (s.setPc t (.popDelete a (s.ticket a) (s.node a).data))
  | popDelete (s a k v) (ht : s.pc t = .popDelete a k v) :
      Step t s ({ s with
        live := fun b => b ≠ a ∧ s.live b
        popped := s.popped ++ [(k, v)] }.setPc t .idle)

def Next (s s' : State Tid A T) : Prop := ∃ t, Step t s s'

/-- No node is deleted while another pop is about to read its successor, and a
compare-exchange that succeeds finds the successor that was read before it. -/
structure Careful (t : Tid) (s s' : State Tid A T) : Prop where
  delete : ∀ a k v, s.pc t = .popDelete a k v → ∀ u, s.pc u ≠ .popRead a
  reuse : ∀ a p, s.pc t = .popCas a p → s'.pc t = .popData a → (s.node a).next = p

def CarefulStep (s s' : State Tid A T) : Prop := ∃ t, Step t s s' ∧ Careful t s s'

end Moves

/-- The node of which a thread is about to use a field. -/
def Pc.uses? : Pc A T → Option A
  | .loadHead a | .pushCas a | .popRead a | .popData a => some a
  | _ => none

/-- The node that a thread has made and not linked, or unlinked and not deleted. -/
def Pc.own? : Pc A T → Option A
  | .loadHead a | .pushCas a | .popData a | .popDelete a _ _ => some a
  | _ => none

inductive Place (Tid : Type*)
  | stack
  | own (t : Tid)

def At (s : State Tid A T) (l : List A) (a : A) : Place Tid → Prop
  | .stack => a ∈ l
  | .own t => (s.pc t).own? = some a

inductive Spot (A : Type*)
  | node (a : A)
  | popped (i : Nat)

/-- Where the value of a push is. -/
def TicketAt (s : State Tid A T) (k : Nat) : Spot A → Prop
  | .node a => s.live a ∧ s.ticket a = k
  | .popped i => (s.popped.map Prod.fst)[i]? = some k

def Pc.Ok (s : State Tid A T) : Pc A T → Prop
  | .popRead a => s.live a
  | .popDelete a k v => k = s.ticket a ∧ v = (s.node a).data
  | _ => True

/-- `l` are the nodes on the stack. -/
structure Inv (s : State Tid A T) (l : List A) : Prop where
  linked : Segment (fun a => (s.node a).next) s.head l none
  place : OnePlace s.live (At s l)
  tickets : OnePlace (fun k => k < s.pushed.length) (TicketAt s)
  values : ∀ a, s.live a → s.pushed[s.ticket a]? = some (s.node a).data
  popped : ∀ k v, (k, v) ∈ s.popped → s.pushed[k]? = some v
  pcs : ∀ t, (s.pc t).Ok s

variable {s s' : State Tid A T} {l : List A} {t : Tid} {a : A}

theorem Inv.live_own (h : Inv s l) (ha : (s.pc t).own? = some a) : s.live a := h.place.mem a (.own t) ha

theorem Inv.not_mem_own (h : Inv s l) (ha : (s.pc t).own? = some a) : a ∉ l := by
  intro hm
  cases h.place.unique a .stack (.own t) hm ha

theorem Inv.own_unique (h : Inv s l) {u : Tid} (ha : (s.pc t).own? = some a) (hu : (s.pc u).own? = some a) : u = t := by
  cases h.place.unique a (.own u) (.own t) hu ha
  rfl

theorem Inv.live_head (h : Inv s l) (ha : s.head = some a) : s.live a := by
  have hl := h.linked
  rw [ha] at hl
  exact h.place.mem a .stack hl.mem_of_some

section Steps

variable [DecidableEq Tid]

@[simp] theorem setPc_pc (s : State Tid A T) (t : Tid) (pc : Pc A T) :
    (s.setPc t pc).pc = Function.update s.pc t pc := rfl

theorem at_own_setPc {pc : Pc A T} {u : Tid} {b : A} :
    At (s.setPc t pc) l b (.own u) ↔ if u = t then pc.own? = some b else At s l b (.own u) := by
  by_cases hu : u = t
  · simp [At, hu]
  · simp [At, hu]

theorem Inv.goOn (h : Inv s l) {pc : Pc A T} (ho : pc.own? = (s.pc t).own?) (hok : pc.Ok s) : Inv (s.setPc t pc) l := by
  refine ⟨h.linked, ?_, h.tickets, h.values, h.popped, ?_⟩
  · apply h.place.congr
    intro b p
    cases p with
    | stack => rfl
    | own u =>
      rw [at_own_setPc]
      by_cases hu : u = t
      · rw [hu, if_pos rfl, At, ho]
      · rw [if_neg hu]
  · rw [setPc_pc, Function.forall_update_iff s.pc (p := fun _ pc => pc.Ok _)]
    exact ⟨hok, fun u _ => h.pcs u⟩

theorem Inv.popLoop (h : Inv s l) (ho : (s.pc t).own? = none) : Inv (s.popLoop t s.head) l := by
  cases hh : s.head with
  | none => exact h.goOn ho.symm trivial
  | some a => exact h.goOn ho.symm (h.live_head hh)

theorem Inv.link (h : Inv s l) (ha : (s.pc t).own? = some a) (he : s.head = (s.node a).next) :
    Inv ({ s with head := some a }.setPc t .idle) (a :: l) := by
  have hlinked := h.linked
  rw [he] at hlinked
  refine ⟨⟨rfl, hlinked⟩, ?_, h.tickets, h.values, h.popped, ?_⟩
  · have hown : At s l a (.own t) := ha
    apply h.place.move .stack hown
    · intro p
      cases p with
      | stack => exact iff_of_true List.mem_cons_self rfl
      | own u =>
        rw [at_own_setPc]
        refine iff_of_false (fun hu => ?_) nofun
        split at hu
        · cases hu
        · next hne => exact hne (h.own_unique ha hu)
    · intro b p hb
      cases p with
      | stack => simp [At, hb]
      | own u =>
        rw [at_own_setPc]
        split
        · next hu =>
          rw [hu, At, ha]
          exact iff_of_false nofun fun he => hb (Option.some.inj he).symm
        · rfl
  · rw [setPc_pc, Function.forall_update_iff s.pc (p := fun _ pc => pc.Ok _)]
    exact ⟨trivial, fun u _ => h.pcs u⟩

theorem Inv.unlink (h : Inv s l) (ho : (s.pc t).own? = none) (ha : s.head = some a) :
    ∃ l', Inv ({ s with head := (s.node a).next }.setPc t (.popData a)) l' := by
  have hlinked := h.linked
  have hnodup := hlinked.nodup
  cases l with
  | nil =>
    rw [ha] at hlinked
    cases hlinked
  | cons b l' =>
    obtain ⟨hb, hlinked⟩ := hlinked
    rw [ha] at hb
    cases hb
    have hal : a ∉ l' := (List.nodup_cons.1 hnodup).1
    have hstack : At s (a :: l') a .stack := List.mem_cons_self
    refine ⟨l', hlinked, ?_, h.tickets, h.values, h.popped, ?_⟩
    · apply h.place.move (.own t) hstack
      · intro p
        cases p with
        | stack => exact iff_of_false hal nofun
        | own u =>
          rw [at_own_setPc]
          split
          · next hu =>
            rw [hu]
            exact iff_of_true rfl rfl
          · next hu =>
            refine iff_of_false (fun ho => ?_) (fun he => hu (Place.own.inj he))
            cases h.place.unique a .stack (.own u) hstack ho
      · intro c p hc
        cases p with
        | stack => simp [At, hc]
        | own u =>
          rw [at_own_setPc]
          split
          · next hu =>
            rw [hu, At, ho]
            exact iff_of_false (fun he => hc (Option.some.inj he).symm) nofun
          · rfl
    · rw [setPc_pc, Function.forall_update_iff s.pc (p := fun _ pc => pc.Ok _)]
      exact ⟨trivial, fun u _ => h.pcs u⟩

theorem Inv.delete (h : Inv s l) {k : Nat} {v : T} (ht : s.pc t = .popDelete a k v) (hr : ∀ u, s.pc u ≠ .popRead a) :
    Inv ({ s with
      live := fun b => b ≠ a ∧ s.live b
      popped := s.popped ++ [(k, v)] }.setPc t .idle) l := by
  have ho : (s.pc t).own? = some a := by
    rw [ht]
    rfl
  obtain ⟨rfl, rfl⟩ : k = s.ticket a ∧ v = (s.node a).data := by
    have hok := h.pcs t
    rw [ht] at hok
    exact hok
  have hlive := h.live_own ho
  have hnode : TicketAt s (s.ticket a) (.node a) := ⟨hlive, rfl⟩
  refine ⟨h.linked, ?_, ?_, fun b hb => h.values b hb.2, ?_, ?_⟩
  · apply h.place.remove a (fun b => Iff.rfl)
    intro b p
    cases p with
    | stack => exact ⟨fun hb => ⟨ne_of_mem_of_not_mem hb (h.not_mem_own ho), hb⟩, And.right⟩
    | own u =>
      rw [at_own_setPc]
      split
      · next hu =>
        rw [hu, At, ho]
        exact iff_of_false nofun fun he => he.1 (Option.some.inj he.2).symm
      · next hu =>
        refine ⟨fun hb => ⟨?_, hb⟩, And.right⟩
        rintro rfl
        exact hu (h.own_unique ho hb)
  · apply h.tickets.move (.popped s.popped.length) hnode
    · intro p
      cases p with
      | node b =>
        refine iff_of_false (fun hb => ?_) nofun
        cases h.tickets.unique _ (.node b) (.node a) ⟨hb.1.2, hb.2⟩ hnode
        exact hb.1.1 rfl
      | popped i =>
        simp only [TicketAt, State.setPc, List.map_append, List.map_cons, List.map_nil, List.getElem?_append,
          List.length_map, Spot.popped.injEq]
        split
        · next hi =>
          refine iff_of_false (fun hp => ?_) hi.ne
          cases h.tickets.unique _ (.popped i) (.node a) hp hnode
        · next hi =>
          rw [List.getElem?_singleton]
          constructor
          · intro hp
            split at hp
            · omega
            · cases hp
          · rintro rfl
            simp
    · intro j p hj
      cases p with
      | node b =>
        refine ⟨fun hb => ⟨hb.1.2, hb.2⟩, fun hb => ⟨⟨?_, hb.1⟩, hb.2⟩⟩
        rintro rfl
        exact hj hb.2.symm
      | popped i =>
        simp only [TicketAt, State.setPc, List.map_append, List.map_cons, List.map_nil, List.getElem?_append]
        split
        · rfl
        · next hi =>
          rw [List.getElem?_singleton, List.getElem?_eq_none (not_lt.1 hi)]
          refine iff_of_false (fun hp => ?_) nofun
          split at hp
          · exact hj (Option.some.inj hp).symm
          · cases hp
  · intro j w hm
    rcases List.mem_append.1 hm with hm | hm
    · exact h.popped j w hm
    · cases List.mem_singleton.1 hm
      exact h.values a hlive
  · rw [setPc_pc, Function.forall_update_iff s.pc (p := fun _ pc => pc.Ok _)]
    refine ⟨trivial, fun u _ => ?_⟩
    have hok := h.pcs u
    cases hu : s.pc u with
    | popRead b =>
      rw [hu] at hok
      refine ⟨?_, hok⟩
      rintro rfl
      exact hr u hu
    | popDelete b j w =>
      rw [hu] at hok
      exact hok
    | _ => trivial

variable [DecidableEq A]

omit [DecidableEq Tid] in
theorem setNext_data (s : State Tid A T) (a b : A) (p : Option A) :
    ((s.setNext a p).node b).data = (s.node b).data := by
  by_cases hb : b = a
  · simp [State.setNext, hb]
  · simp [State.setNext, hb]

omit [DecidableEq Tid] in
theorem Inv.setNext (h : Inv s l) (ha : (s.pc t).own? = some a) (p : Option A) : Inv (s.setNext a p) l := by
  refine ⟨?_, h.place, h.tickets, ?_, h.popped, ?_⟩
  · refine h.linked.congr fun b hb => ?_
    exact congrArg Node.next (Function.update_of_ne (ne_of_mem_of_not_mem hb (h.not_mem_own ha)) _ _)
  · intro b hb
    rw [setNext_data]
    exact h.values b hb
  · intro u
    have hok := h.pcs u
    change (s.pc u).Ok (s.setNext a p)
    cases hu : s.pc u with
    | popDelete b k v =>
      rw [hu] at hok
      refine ⟨hok.1, ?_⟩
      rw [setNext_data]
      exact hok.2
    | _ =>
      rw [hu] at hok
      exact hok

theorem Inv.make (h : Inv s l) (v : T) (ho : s.pc t = .idle) (ha : ¬ s.live a) :
    Inv ({ s with
      node := Function.update s.node a { s.node a with data := v }
      live := fun b => b = a ∨ s.live b
      ticket := Function.update s.ticket a s.pushed.length
      pushed := s.pushed ++ [v] }.setPc t (.loadHead a)) l := by
  have hne : ∀ b, s.live b → b ≠ a := fun b hb he => ha (he ▸ hb)
  have hlt : ∀ b, s.live b → s.ticket b < s.pushed.length := fun b hb => h.tickets.mem _ (.node b) ⟨hb, rfl⟩
  refine ⟨?_, ?_, ?_, ?_, ?_, ?_⟩
  · refine h.linked.congr fun b hb => ?_
    exact congrArg Node.next (Function.update_of_ne (hne b (h.place.mem b .stack hb)) _ _)
  · apply h.place.insert a (.own t) (fun b => Iff.rfl)
    · intro p
      cases p with
      | stack => exact iff_of_false (fun hm => ha (h.place.mem a .stack hm)) nofun
      | own u =>
        rw [at_own_setPc]
        split
        · next hu =>
          rw [hu]
          exact iff_of_true rfl rfl
        · next hu => exact iff_of_false (fun ho => ha (h.place.mem a (.own u) ho)) (fun he => hu (Place.own.inj he))
    · intro b p hb
      cases p with
      | stack => rfl
      | own u =>
        rw [at_own_setPc]
        split
        · next hu =>
          rw [hu, At, ho]
          exact iff_of_false (fun he => hb (Option.some.inj he).symm) nofun
        · rfl
  · apply h.tickets.insert s.pushed.length (.node a)
    · intro k
      simp only [State.setPc, List.length_append, List.length_singleton]
      omega
    · intro p
      cases p with
      | node b =>
        rw [TicketAt, Spot.node.injEq]
        refine ⟨fun hb => ?_, fun he => ?_⟩
        · refine hb.1.resolve_right fun hlive => ?_
          have hticket : s.ticket b = s.pushed.length := (Function.update_of_ne (hne b hlive) _ _).symm.trans hb.2
          exact (hlt b hlive).ne hticket
        · rw [he]
          exact ⟨.inl rfl, Function.update_self _ _ _⟩
      | popped i => exact iff_of_false (fun hp => (h.tickets.mem _ (.popped i) hp).false) nofun
    · intro k p hk
      cases p with
      | node b =>
        constructor
        · rintro ⟨rfl | hb, hkb⟩
          · exact absurd (hkb.symm.trans (Function.update_self _ _ _)) hk
          · exact ⟨hb, (Function.update_of_ne (hne b hb) _ _).symm.trans hkb⟩
        · rintro ⟨hb, hkb⟩
          exact ⟨.inr hb, (Function.update_of_ne (hne b hb) _ _).trans hkb⟩
      | popped i => rfl
  · rintro b (rfl | hb)
    · simp [State.setPc]
    · simp only [State.setPc, Function.update_of_ne (hne b hb)]
      rw [List.getElem?_append_left (hlt b hb)]
      exact h.values b hb
  · intro k w hm
    have hk := h.popped k w hm
    simp only [State.setPc]
    rw [List.getElem?_append_left (List.getElem?_eq_some_iff.1 hk).1]
    exact hk
  · rw [setPc_pc, Function.forall_update_iff s.pc (p := fun _ pc => pc.Ok _)]
    refine ⟨trivial, fun u _ => ?_⟩
    have hok := h.pcs u
    cases hu : s.pc u with
    | popRead b =>
      rw [hu] at hok
      exact .inr hok
    | popDelete b k w =>
      have hb : b ≠ a := by
        refine hne b (h.live_own (t := u) ?_)
        rw [hu]
        rfl
      rw [hu] at hok
      simpa [Pc.Ok, State.setPc, Function.update_of_ne hb] using hok
    | _ => trivial

theorem Inv.step (h : Inv s l) (hs : Step t s s') (hc : Careful t s s') : ∃ l', Inv s' l' := by
  cases hs with
  | push v a ht ha => exact ⟨l, h.make v ht ha⟩
  | loadHead a ht =>
    have ho : (s.pc t).own? = some a := by
      rw [ht]
      rfl
    exact ⟨l, (h.setNext ho s.head).goOn ho.symm trivial⟩
  | pushCasOk a ht he =>
    refine ⟨a :: l, h.link ?_ he⟩
    rw [ht]
    rfl
  | pushCasFail a ht =>
    refine ⟨l, h.setNext (t := t) ?_ s.head⟩
    rw [ht]
    rfl
  | pop ht =>
    refine ⟨l, h.popLoop ?_⟩
    rw [ht]
    rfl
  | popRead a ht =>
    refine ⟨l, h.goOn ?_ trivial⟩
    rw [ht]
    rfl
  | popCasOk a p ht he =>
    obtain rfl := hc.reuse a p ht (Function.update_self _ _ _)
    apply h.unlink _ he
    rw [ht]
    rfl
  | popCasFail a p ht =>
    refine ⟨l, h.popLoop ?_⟩
    rw [ht]
    rfl
  | popData a ht =>
    refine ⟨l, h.goOn ?_ ⟨rfl, rfl⟩⟩
    rw [ht]
    rfl
  | popDelete a k v ht => exact ⟨l, h.delete ht (hc.delete a k v ht)⟩

omit [DecidableEq Tid] [DecidableEq A] in
theorem Inv.init (h : Init s) : Inv s [] := by
  obtain ⟨hhead, hlive, hpc, hpushed, hpopped⟩ := h
  have hat : ∀ b p, ¬ At s [] b p := by
    intro b p hb
    cases p with
    | stack => cases hb
    | own u =>
      rw [At, hpc] at hb
      cases hb
  have hticket : ∀ k p, ¬ TicketAt s k p := by
    intro k p hk
    cases p with
    | node b => exact hlive b hk.1
    | popped i =>
      rw [TicketAt, hpopped] at hk
      cases hk
  refine ⟨hhead,
    ⟨fun b p hb => absurd hb (hat b p), fun b hb => absurd hb (hlive b), fun b p _ hb => absurd hb (hat b p)⟩,
    ⟨fun k p hk => absurd hk (hticket k p), fun k hk => ?_, fun k p _ hk => absurd hk (hticket k p)⟩,
    fun b hb => absurd hb (hlive b), fun k v hm => ?_, fun u => ?_⟩
  · rw [hpushed] at hk
    cases hk
  · rw [hpopped] at hm
    cases hm
  · rw [hpc]
    trivial

omit [DecidableEq Tid] [DecidableEq A] in
theorem Inv.live_uses (h : Inv s l) (ha : (s.pc t).uses? = some a) : s.live a := by
  have hok := h.pcs t
  have hown := h.live_own (t := t) (a := a)
  cases ht : s.pc t with
  | popRead b =>
    rw [ht] at ha hok
    cases ha
    exact hok
  | idle | popCas | popDelete =>
    rw [ht] at ha
    cases ha
  | _ =>
    rw [ht] at ha hown
    exact hown ha

omit [DecidableEq Tid] [DecidableEq A] in
/-- No push is returned twice. -/
theorem Inv.nodup_popped (h : Inv s l) : (s.popped.map Prod.fst).Nodup := by
  rw [List.nodup_iff_getElem?_ne_getElem?]
  intro i j hij hj he
  have hjk := List.getElem?_eq_getElem hj
  cases h.tickets.unique _ (.popped i) (.popped j) (he.trans hjk) hjk
  exact hij.false

omit [DecidableEq Tid] [DecidableEq A] in
/-- Between calls every value is popped or on the stack. -/
theorem Inv.all_kept (h : Inv s l) (hi : ∀ t, s.pc t = .idle) {k : Nat} {v : T} (hk : s.pushed[k]? = some v) :
    (k, v) ∈ s.popped ∨ ∃ a ∈ l, s.ticket a = k ∧ (s.node a).data = v := by
  obtain ⟨p, hp⟩ := h.tickets.exists_place k (List.getElem?_eq_some_iff.1 hk).1
  cases p with
  | node a =>
    obtain ⟨ha, rfl⟩ := hp
    obtain ⟨q, hq⟩ := h.place.exists_place a ha
    refine .inr ⟨a, ?_, rfl, Option.some.inj ((h.values a ha).symm.trans hk)⟩
    cases q with
    | stack => exact hq
    | own u =>
      rw [At, hi] at hq
      cases hq
  | popped i =>
    obtain ⟨⟨j, w⟩, hjw, rfl⟩ := List.mem_map.1 (List.mem_of_getElem? hp)
    obtain rfl := Option.some.inj ((h.popped j w hjw).symm.trans hk)
    exact .inl hjw

theorem inv_of_reachable (h : Reachable Init CarefulStep s) : ∃ l, Inv s l := by
  apply h.invariant
  · intro s hi
    exact ⟨[], Inv.init hi⟩
  · rintro s s' - ⟨l, h⟩ ⟨t, hs, hc⟩
    exact h.step hs hc

theorem deleted_not_used (h : Reachable Init CarefulStep s) :
    (∀ t a, (s.pc t).uses? = some a → s.live a) ∧
    (s.popped.map Prod.fst).Nodup ∧ (∀ k v, (k, v) ∈ s.popped → s.pushed[k]? = some v) ∧
    ((∀ t, s.pc t = .idle) → ∃ l, Segment (fun a => (s.node a).next) s.head l none ∧
      ∀ k v, s.pushed[k]? = some v → (k, v) ∈ s.popped ∨ ∃ a ∈ l, s.ticket a = k ∧ (s.node a).data = v) := by
  obtain ⟨l, h⟩ := inv_of_reachable h
  refine ⟨fun t a ha => h.live_uses ha, h.nodup_popped, h.popped, fun hi => ?_⟩
  exact ⟨l, h.linked, fun k v hk => h.all_kept hi hk⟩

/-- One value is pushed and popped. -/
theorem deleted_not_used_one : ∃ s : State Unit Unit Bool, Reachable Init CarefulStep s ∧ s.popped = [(0, true)] ∧
    (s.popped.map Prod.fst).Nodup := by
  have h0 : Reachable Init CarefulStep
    (⟨none, fun _ => ⟨false, none⟩, fun _ => False, fun _ => .idle, fun _ => 0, [], []⟩ :
      State Unit Unit Bool) :=
    Reachable.of_init ⟨rfl, fun _ => id, fun _ => rfl, rfl, rfl⟩
  have h1 := h0.tail ⟨(), .push _ true () rfl id, ⟨nofun, nofun⟩⟩
  have h2 := h1.tail ⟨(), .loadHead _ () rfl, ⟨nofun, nofun⟩⟩
  have h3 := h2.tail ⟨(), .pushCasOk _ () rfl rfl, ⟨nofun, nofun⟩⟩
  have h4 := h3.tail ⟨(), .pop _ rfl, ⟨nofun, nofun⟩⟩
  have h5 := h4.tail ⟨(), .popRead _ () rfl, ⟨nofun, nofun⟩⟩
  have h6 := h5.tail ⟨(), .popCasOk _ () none rfl rfl, ⟨nofun, fun _ _ he _ => by cases he; rfl⟩⟩
  have h7 := h6.tail ⟨(), .popData _ () rfl, ⟨nofun, nofun⟩⟩
  have h8 := h7.tail ⟨(), .popDelete _ () 0 true rfl, ⟨fun _ _ _ _ _ => nofun, nofun⟩⟩
  obtain ⟨s, hs, hpopped⟩ : ∃ s : State Unit Unit Bool, Reachable Init CarefulStep s ∧ s.popped = [(0, true)] :=
    ⟨_, h8, rfl⟩
  exact ⟨s, hs, hpopped, (deleted_not_used hs).2.1⟩

/-- Two pops load the same head; one deletes the node and the other goes on to read it. -/
theorem deleted_read : ¬ ∀ s : State Bool Unit Unit, Reachable Init Next s → ∀ t a, (s.pc t).uses? = some a →
    s.live a := by
  intro hclaim
  have h0 : Reachable Init Next (⟨none, fun _ => ⟨(), none⟩, fun _ => False, fun _ => .idle, fun _ => 0, [], []⟩ :
      State Bool Unit Unit) :=
    Reachable.of_init ⟨rfl, fun _ => id, fun _ => rfl, rfl, rfl⟩
  have h1 := h0.tail ⟨true, .push _ () () rfl id⟩
  have h2 := h1.tail ⟨true, .loadHead _ () rfl⟩
  have h3 := h2.tail ⟨true, .pushCasOk _ () rfl rfl⟩
  have h4 := h3.tail ⟨false, .pop _ rfl⟩
  have h5 := h4.tail ⟨true, .pop _ rfl⟩
  have h6 := h5.tail ⟨true, .popRead _ () rfl⟩
  have h7 := h6.tail ⟨true, .popCasOk _ () none rfl rfl⟩
  have h8 := h7.tail ⟨true, .popData _ () rfl⟩
  have h9 := h8.tail ⟨true, .popDelete _ () 0 () rfl⟩
  exact (hclaim _ h9 false () rfl).1 rfl

end Steps

end Wizard.HazptrStack
