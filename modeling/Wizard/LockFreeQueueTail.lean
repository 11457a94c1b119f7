import Mathlib.Tactic
import Wizard.LockFreeQueue
import Wizard.Owners
import Wizard.Segment

/-! How tail follows the nodes while the compare-exchange in `set_new_tail` succeeds
where it should and nowhere else. -/

namespace Wizard.LockFreeQueue

variable {T Tid : Type*}

/-- The node that the push has made and not linked. -/
def After.node? : After → Option Nat
  | .done => none
  | .again _ n => some n

/-- The object that the push has made and not put into a node. -/
def After.newData? : After → Option Nat
  | .done => none
  | .again k _ => some k

def Pc.node? : Pc → Option Nat
  | .load _ n | .increase _ n _ | .data _ n _ | .next n _ | .help _ n _ => some n
  | .swing _ _ _ k | .freeLoad _ k | .freeCas _ _ k | .releaseLoad _ _ k | .releaseCas _ _ _ k => k.node?
  | _ => none

def Pc.newData? : Pc → Option Nat
  | .load k _ | .increase k _ _ | .data k _ _ | .help k _ _ | .renew k _ _ _ => some k
  | .swing _ _ _ k | .freeLoad _ k | .freeCas _ _ k | .releaseLoad _ _ k | .releaseCas _ _ _ k => k.newData?
  | _ => none

/-- The node whose external counter the thread is going to give up. -/
def Pc.freeing? : Pc → Option Nat
  | .freeLoad old _ | .freeCas old _ _ => old.ptr
  | _ => none

/-- The node from which the thread is going to move tail. -/
def Pc.swinging? : Pc → Option Nat
  | .renew _ _ p _ | .swing _ p _ _ => some p
  | _ => none

/-- What a thread knows, where `seen` are the nodes that tail has been at. -/
def Pc.Ok (s : State T Tid) (seen : List Nat) : Pc → Prop
  | .data _ _ old => ∃ p ∈ seen, old.ptr = some p
  | .next _ old | .help _ _ old => ∃ p ∈ seen, old.ptr = some p ∧ (s.node p).data ≠ none
  | .renew _ _ p new | .swing _ p new _ => p ∈ seen ∧ (s.node p).next = new ∧ new.ptr ≠ none
  | .releaseLoad p _ _ | .releaseCas p _ _ _ => p ∈ seen
  | _ => True

/-- The objects that the nodes of `l` hold. -/
def State.held (s : State T Tid) (l : List Nat) : List Nat := l.filterMap fun a => (s.node a).data

/-- Tail is at `last`, after the nodes of `front`, and the node of `rest` is linked
behind it. -/
structure Inv (s : State T Tid) (front : List Nat) (last : Nat) (rest : Option Nat) : Prop where
  linked : Segment (fun a => (s.node a).next.ptr) s.head.ptr (front ++ last :: rest.toList) none
  tail : s.tail.ptr = some last
  ends : ∀ a, s.live a → (s.node a).next.ptr = none → (s.node a).next = ⟨0, none⟩
  full : ∀ a ∈ front, (s.node a).data ≠ none
  taken : rest ≠ none → (s.node last).data ≠ none
  behind : ∀ b ∈ rest, s.node b = .make
  carried : rest ≠ none → ∃ t, (s.pc t).swinging? = some last
  fresh : ∀ t a, (s.pc t).node? = some a → s.node a = .make
  nodes : Owned s.live (· ∈ front ++ last :: rest.toList) fun t => (s.pc t).node?
  objects : Owned (· < s.values.length) (· ∈ s.held (front ++ last :: rest.toList)) fun t => (s.pc t).newData?
  once : (s.held (front ++ last :: rest.toList)).Nodup
  counters : Owned (· ∈ front) (fun a => s.freed a ≠ 0) fun t => (s.pc t).freeing?
  freed : ∀ a, s.freed a ≤ 1
  left : ∀ a, s.left a = if a ∈ front then 1 else 0
  external : ∀ a ∈ front ++ last :: rest.toList,
    (s.node a).count.externalCounters = if s.freed a = 0 then 2 else 1
  pcs : ∀ t, (s.pc t).Ok s (front ++ [last])

variable {s s' : State T Tid} {t : Tid} {front : List Nat} {last : Nat} {rest : Option Nat} {p : Pc} {a b n k : Nat}

theorem Pc.Ok.mono {seen seen' : List Nat} (h : p.Ok s seen) (hseen : ∀ a ∈ seen, a ∈ seen')
    (hdata : ∀ a ∈ seen, (s.node a).data ≠ none → (s'.node a).data ≠ none)
    (hnext : ∀ a ∈ seen, (s.node a).next.ptr ≠ none → (s'.node a).next = (s.node a).next) : p.Ok s' seen' := by
  cases p with
  | data k n old =>
    obtain ⟨p, hp, ho⟩ := h
    exact ⟨p, hseen p hp, ho⟩
  | next n old =>
    obtain ⟨p, hp, ho, hd⟩ := h
    exact ⟨p, hseen p hp, ho, hdata p hp hd⟩
  | help k n old =>
    obtain ⟨p, hp, ho, hd⟩ := h
    exact ⟨p, hseen p hp, ho, hdata p hp hd⟩
  | renew k old p new =>
    obtain ⟨hp, rfl, hn⟩ := h
    exact ⟨hseen p hp, hnext p hp hn, hn⟩
  | swing old p new k =>
    obtain ⟨hp, rfl, hn⟩ := h
    exact ⟨hseen p hp, hnext p hp hn, hn⟩
  | releaseLoad p old k => exact hseen p h
  | releaseCas p old c k => exact hseen p h
  | _ => trivial

theorem mem_of_seen (rest : Option Nat) (ha : a ∈ front ++ [last]) : a ∈ front ++ last :: rest.toList := by
  simp only [List.mem_append, List.mem_cons, List.not_mem_nil, or_false] at ha ⊢
  tauto

section Facts

variable (h : Inv s front last rest)
include h

theorem Inv.nodup : (front ++ last :: rest.toList).Nodup := h.linked.nodup

theorem Inv.live_of_mem (ha : a ∈ front ++ last :: rest.toList) : s.live a := h.nodes.mem_shared a ha

theorem Inv.node_ne (ha : a ∈ front ++ [last]) (hb : (s.pc t).node? = some b) : b ≠ a := by
  rintro rfl
  exact h.nodes.apart t b hb (mem_of_seen rest ha)

theorem Inv.rest_ne (ha : a ∈ front ++ [last]) (hb : b ∈ rest) : b ≠ a := by
  rintro rfl
  have hn := h.nodup
  cases hb
  simp only [Option.toList_some, List.nodup_append, List.nodup_cons] at hn
  simp only [List.mem_append, List.mem_singleton] at ha
  rcases ha with ha | rfl
  · exact hn.2.2 b ha b (by simp) rfl
  · simp at hn

theorem Inv.next_last : (s.node last).next.ptr = rest := by
  have hh := h.linked.next_eq_head?
  cases rest with
  | none => exact hh
  | some b => exact hh

theorem Inv.eq_last_of_next (ha : a ∈ front ++ [last]) (hn : (s.node a).next.ptr = none) : a = last ∧ rest = none := by
  rcases List.mem_append.1 ha with ha | ha
  · obtain ⟨pre, post, rfl⟩ := List.append_of_mem ha
    have hl := h.linked
    rw [List.append_assoc, List.cons_append] at hl
    have hh := hl.next_eq_head?
    rw [hn] at hh
    cases post <;> cases hh
  · obtain rfl := List.mem_singleton.1 ha
    exact ⟨rfl, h.next_last.symm.trans hn⟩

theorem Inv.eq_last_of_data (ha : a ∈ front ++ [last]) (hd : (s.node a).data = none) : a = last ∧ rest = none := by
  rcases List.mem_append.1 ha with ha | ha
  · exact absurd hd (h.full a ha)
  · obtain rfl := List.mem_singleton.1 ha
    refine ⟨rfl, ?_⟩
    by_contra hr
    exact h.taken hr hd

theorem Inv.freed_eq_zero (ha : a ∉ front) : s.freed a = 0 := by
  by_contra hf
  exact ha (h.counters.mem_shared a hf)

end Facts

theorem State.held_congr {l : List Nat} (h : ∀ a ∈ l, (s'.node a).data = (s.node a).data) : s'.held l = s.held l :=
  List.filterMap_congr h

theorem Inv.retail (h : Inv s front last rest) {c : CountedNodePtr} (hc : c.ptr = s.tail.ptr) :
    Inv { s with tail := c } front last rest :=
  { h with tail := hc.trans h.tail }

theorem setNode_of_ne (s : State T Tid) (x : CountedNode Nat) (hb : b ≠ a) : (s.setNode a x).node b = s.node b := by
  simp [State.setNode, hb]

theorem setNode_same {β : Type*} (g : CountedNode Nat → β) {x : CountedNode Nat} (hx : g x = g (s.node a)) (b : Nat) :
    g ((s.setNode a x).node b) = g (s.node b) := by
  by_cases hb : b = a
  · subst hb
    simp [State.setNode, hx]
  · rw [setNode_of_ne s x hb]

section Moves

variable [DecidableEq Tid]

theorem setPc_self (g : Pc → Option Nat) (s : State T Tid) (t : Tid) (p : Pc) : g ((s.setPc t p).pc t) = g p := by
  simp [State.setPc]

theorem setPc_of_ne (g : Pc → Option Nat) (s : State T Tid) {t u : Tid} (p : Pc) (hu : u ≠ t) :
    g ((s.setPc t p).pc u) = g (s.pc u) := by
  simp [State.setPc, hu]

theorem setPc_same (g : Pc → Option Nat) (hp : g p = g (s.pc t)) (u : Tid) :
    g ((s.setPc t p).pc u) = g (s.pc u) := by
  by_cases hu : u = t
  · rw [hu, ← hp]
    exact setPc_self g s t p
  · exact setPc_of_ne g s p hu

theorem exists_setPc (g : Pc → Option Nat) {x : Option Nat} (hp : g (s.pc t) = x → g p = x)
    (h : ∃ u, g (s.pc u) = x) : ∃ u, g ((s.setPc t p).pc u) = x := by
  obtain ⟨u, hu⟩ := h
  refine ⟨u, ?_⟩
  by_cases hut : u = t
  · subst hut
    exact (setPc_self g s u p).trans (hp hu)
  · exact (setPc_of_ne g s p hut).trans hu

theorem Inv.goOn (h : Inv s front last rest) (hn : p.node? = (s.pc t).node?) (hd : p.newData? = (s.pc t).newData?)
    (hf : p.freeing? = (s.pc t).freeing?) (hs : (s.pc t).swinging? = some last → p.swinging? = some last)
    (hok : p.Ok s (front ++ [last])) : Inv (s.setPc t p) front last rest where
  linked := h.linked
  tail := h.tail
  ends := h.ends
  full := h.full
  taken := h.taken
  behind := h.behind
  carried hr := exists_setPc Pc.swinging? hs (h.carried hr)
  fresh u a ha := h.fresh u a ((setPc_same Pc.node? hn u).symm.trans ha)
  nodes := h.nodes.congr (fun _ => Iff.rfl) (fun _ => Iff.rfl) (setPc_same Pc.node? hn)
  objects := h.objects.congr (fun _ => Iff.rfl) (fun _ => Iff.rfl) (setPc_same Pc.newData? hd)
  once := h.once
  counters := h.counters.congr (fun _ => Iff.rfl) (fun _ => Iff.rfl) (setPc_same Pc.freeing? hf)
  freed := h.freed
  left := h.left
  external := h.external
  pcs := (Function.forall_update_iff s.pc fun _ p => p.Ok s (front ++ [last])).2 ⟨hok, fun u _ => h.pcs u⟩

/-- The count of a node that tail has been at changes. -/
theorem Inv.count (h : Inv s front last rest) (ha : a ∈ front ++ [last]) {c : NodeCounter} {F : Nat → Nat}
    (hn : p.node? = (s.pc t).node?) (hd : p.newData? = (s.pc t).newData?)
    (hs : (s.pc t).swinging? = some last → p.swinging? = some last) (hok : p.Ok s (front ++ [last]))
    (hF : ∀ b, b ≠ a → F b = s.freed b) (hle : F a ≤ 1) (hc : c.externalCounters = if F a = 0 then 2 else 1)
    (hcounters : Owned (· ∈ front) (fun b => F b ≠ 0) fun u => ((s.setPc t p).pc u).freeing?) :
    Inv ({ s.setCount a c with freed := F }.setPc t p) front last rest := by
  have hzero : c.isZero = false := by
    have hne : c.externalCounters ≠ 0 := by
      rw [hc]
      split <;> decide
    rw [NodeCounter.isZero, decide_eq_false hne, Bool.and_false]
  have hlive : (s.setCount a c).live = s.live := by simp [State.setCount, hzero]
  have hnode : ∀ b, b ≠ a → (s.setCount a c).node b = s.node b := fun b hb => setNode_of_ne s _ hb
  have hdata : ∀ b, ((s.setCount a c).node b).data = (s.node b).data := setNode_same CountedNode.data rfl
  have hnext : ∀ b, ((s.setCount a c).node b).next = (s.node b).next := setNode_same CountedNode.next rfl
  have hpcs : ∀ {q : Pc}, q.Ok s (front ++ [last]) →
      q.Ok ({ s.setCount a c with freed := F }.setPc t p) (front ++ [last]) := by
    intro q hq
    refine hq.mono (fun b hb => hb) (fun b _ hb => ?_) (fun b _ _ => hnext b)
    rw [← hdata] at hb
    exact hb
  have hheld : ∀ l, ({ s.setCount a c with freed := F }.setPc t p).held l = s.held l :=
    fun l => State.held_congr fun b _ => hdata b
  constructor
  case linked =>
    refine h.linked.congr fun b _ => ?_
    exact congrArg CountedNodePtr.ptr (hnext b)
  case tail => exact h.tail
  case ends =>
    intro b hb hnone
    have hb' : (s.setCount a c).live b := hb
    have hnone' : ((s.setCount a c).node b).next.ptr = none := hnone
    rw [hlive] at hb'
    rw [hnext] at hnone'
    exact (hnext b).trans (h.ends b hb' hnone')
  case full =>
    intro b hb
    have hh := h.full b hb
    rwa [← hdata] at hh
  case taken =>
    intro hr
    have hh := h.taken hr
    rwa [← hdata] at hh
  case behind => exact fun b hb => (hnode b (h.rest_ne ha hb)).trans (h.behind b hb)
  case carried => exact fun hr => exists_setPc Pc.swinging? hs (h.carried hr)
  case fresh =>
    intro u b hb
    have hb' := (setPc_same Pc.node? hn u).symm.trans hb
    exact (hnode b (h.node_ne ha hb')).trans (h.fresh u b hb')
  case nodes => exact h.nodes.congr (fun b => iff_of_eq (congrFun hlive b)) (fun _ => Iff.rfl) (setPc_same Pc.node? hn)
  case objects =>
    rw [hheld]
    exact h.objects.congr (fun _ => Iff.rfl) (fun _ => Iff.rfl) (setPc_same Pc.newData? hd)
  case once =>
    rw [hheld]
    exact h.once
  case counters => exact hcounters
  case freed =>
    intro b
    by_cases hb : b = a
    · rw [hb]
      exact hle
    · exact (hF b hb).trans_le (h.freed b)
  case left => exact h.left
  case external =>
    intro b hb
    by_cases hba : b = a
    · subst hba
      refine Eq.trans ?_ hc
      simp [State.setPc, State.setCount, State.setNode]
    · refine (congrArg (fun x => x.count.externalCounters) (hnode b hba)).trans ((h.external b hb).trans ?_)
      change _ = if F b = 0 then _ else _
      rw [hF b hba]
  case pcs => exact (Function.forall_update_iff s.pc fun _ q => q.Ok _ (front ++ [last])).2 ⟨hpcs hok,
    fun u _ => hpcs (h.pcs u)⟩

theorem Inv.fill (h : Inv s front last none) (hempty : (s.node last).data = none)
    (hn : p.node? = (s.pc t).node?) (hk : (s.pc t).newData? = some k) (hd : p.newData? = none)
    (hf : p.freeing? = (s.pc t).freeing?)
    (hok : p.Ok (s.setNode last { s.node last with data := some k }) (front ++ [last])) :
    Inv ((s.setNode last { s.node last with data := some k }).setPc t p) front last none := by
  set s' := (s.setNode last { s.node last with data := some k }).setPc t p
  have hlast : last ∈ front ++ [last] := List.mem_append_right _ (List.mem_singleton_self last)
  have hnot : last ∉ front := fun hm => h.full last hm hempty
  have hself : (s'.node last).data = some k := by simp [s', State.setPc, State.setNode]
  have hnode : ∀ b, b ≠ last → s'.node b = s.node b := fun b hb => setNode_of_ne s _ hb
  have hnext : ∀ b, (s'.node b).next = (s.node b).next := setNode_same CountedNode.next rfl
  have hcount : ∀ b, (s'.node b).count = (s.node b).count := setNode_same CountedNode.count rfl
  have hdata : ∀ b, (s.node b).data ≠ none → (s'.node b).data ≠ none := by
    intro b hb
    by_cases hbl : b = last
    · rw [hbl, hself]
      simp
    · rwa [hnode b hbl]
  have hheld : s'.held (front ++ [last]) = s.held (front ++ [last]) ++ [k] := by
    have hfront : s'.held front = s.held front :=
      State.held_congr fun b hb => congrArg CountedNode.data (hnode b (ne_of_mem_of_not_mem hb hnot))
    rw [State.held, List.filterMap_append, State.held, List.filterMap_append]
    change s'.held front ++ [last].filterMap _ = s.held front ++ [last].filterMap _ ++ [k]
    rw [hfront]
    simp [hself, hempty]
  have hpcs : ∀ {q : Pc}, q.Ok s (front ++ [last]) → q.Ok s' (front ++ [last]) :=
    fun hq => hq.mono (fun b hb => hb) (fun b _ => hdata b) (fun b _ _ => hnext b)
  have hnotheld : k ∉ s.held (front ++ [last]) := h.objects.apart t k hk
  constructor
  case linked => exact h.linked.congr fun b _ => congrArg CountedNodePtr.ptr (hnext b)
  case tail => exact h.tail
  case ends =>
    intro b hb hnone
    rw [hnext] at hnone ⊢
    exact h.ends b hb hnone
  case full => exact fun b hb => hdata b (h.full b hb)
  case taken => exact fun hr => absurd rfl hr
  case behind => exact fun b hb => absurd hb (by simp)
  case carried => exact fun hr => absurd rfl hr
  case fresh =>
    intro u b hb
    have hb' := (setPc_same Pc.node? hn u).symm.trans hb
    exact (hnode b (h.node_ne hlast hb')).trans (h.fresh u b hb')
  case nodes => exact h.nodes.congr (fun _ => Iff.rfl) (fun _ => Iff.rfl) (setPc_same Pc.node? hn)
  case objects =>
    refine h.objects.give hk (fun _ => Iff.rfl) (fun y => ?_) ((setPc_self Pc.newData? s t p).trans hd)
      (fun u hu => setPc_of_ne Pc.newData? s p hu)
    change y ∈ s'.held (front ++ [last]) ↔ _
    rw [hheld, List.mem_append, List.mem_singleton, or_comm]
    rfl
  case once =>
    change (s'.held (front ++ [last])).Nodup
    rw [hheld]
    exact List.Nodup.append h.once (List.nodup_singleton k) (by simpa using hnotheld)
  case counters => exact h.counters.congr (fun _ => Iff.rfl) (fun _ => Iff.rfl) (setPc_same Pc.freeing? hf)
  case freed => exact h.freed
  case left => exact h.left
  case external =>
    intro b hb
    rw [hcount]
    exact h.external b hb
  case pcs =>
    exact (Function.forall_update_iff s.pc fun _ q => q.Ok s' (front ++ [last])).2 ⟨hok, fun u _ => hpcs (h.pcs u)⟩

theorem Inv.link (h : Inv s front last none) (hfull : (s.node last).data ≠ none)
    (hn : (s.pc t).node? = some n) (hn' : p.node? = none) (hd : p.newData? = (s.pc t).newData?)
    (hf : p.freeing? = (s.pc t).freeing?) (hs : p.swinging? = some last)
    (hok : p.Ok (s.setNode last { s.node last with next := .first n }) (front ++ [last])) :
    Inv ((s.setNode last { s.node last with next := .first n }).setPc t p) front last (some n) := by
  set s' := (s.setNode last { s.node last with next := .first n }).setPc t p
  have hlast : last ∈ front ++ [last] := List.mem_append_right _ (List.mem_singleton_self last)
  have hnl : n ≠ last := h.node_ne hlast hn
  have hself : (s'.node last).next = .first n := by simp [s', State.setPc, State.setNode]
  have hnode : ∀ b, b ≠ last → s'.node b = s.node b := fun b hb => setNode_of_ne s _ hb
  have hnew : s'.node n = .make := (hnode n hnl).trans (h.fresh t n hn)
  have hdata : ∀ b, (s'.node b).data = (s.node b).data := setNode_same CountedNode.data rfl
  have hcount : ∀ b, (s'.node b).count = (s.node b).count := setNode_same CountedNode.count rfl
  have hheld : s'.held (front ++ last :: [n]) = s.held (front ++ [last]) := by
    have hh : s'.held (front ++ last :: [n]) = s'.held (front ++ [last]) := by
      have hnone : (s'.node n).data = none := by rw [hnew]; rfl
      simp [State.held, List.filterMap_append, List.filterMap_cons, hnone]
    rw [hh]
    exact State.held_congr fun b _ => hdata b
  have hpcs : ∀ {q : Pc}, q.Ok s (front ++ [last]) → q.Ok s' (front ++ [last]) := by
    intro q hq
    refine hq.mono (fun b hb => hb) (fun b _ hb => ?_) (fun b _ hb => ?_)
    · rwa [hdata]
    · have hbl : b ≠ last := by
        rintro rfl
        exact hb h.next_last
      rw [hnode b hbl]
  constructor
  case linked =>
    have hl := h.linked
    obtain ⟨m, hfront, hm, -⟩ := Segment.append_iff.1 hl
    have hnot : last ∉ front := by
      have hh := h.nodup
      rw [List.nodup_append] at hh
      exact fun hm => hh.2.2 last hm last (by simp) rfl
    refine Segment.append (hfront.congr fun b hb => ?_) ⟨hm, ?_, ?_⟩
    · exact congrArg (fun x => x.next.ptr) (hnode b (ne_of_mem_of_not_mem hb hnot))
    · exact congrArg CountedNodePtr.ptr hself
    · exact congrArg (fun x => x.next.ptr) hnew
  case tail => exact h.tail
  case ends =>
    intro b hb hnone
    by_cases hbl : b = last
    · rw [hbl, hself] at hnone
      cases hnone
    · rw [hnode b hbl] at hnone ⊢
      exact h.ends b hb hnone
  case full =>
    intro b hb
    rw [hdata]
    exact h.full b hb
  case taken =>
    intro _
    rwa [hdata]
  case behind =>
    intro b hb
    cases hb
    exact hnew
  case carried => exact fun _ => ⟨t, (setPc_self Pc.swinging? s t p).trans hs⟩
  case fresh =>
    intro u b hb
    have hu : u ≠ t := by
      rintro rfl
      have hh := (setPc_self Pc.node? (s.setNode last { s.node last with next := .first n }) u p).symm.trans hb
      rw [hn'] at hh
      cases hh
    have hb' : (s.pc u).node? = some b := (setPc_of_ne Pc.node? s p hu).symm.trans hb
    exact (hnode b (h.node_ne hlast hb')).trans (h.fresh u b hb')
  case nodes =>
    refine h.nodes.give hn (fun _ => Iff.rfl) (fun y => ?_) ((setPc_self Pc.node? s t p).trans hn')
      (fun u hu => setPc_of_ne Pc.node? s p hu)
    simp only [Option.toList_some, Option.toList_none, List.mem_append, List.mem_cons, List.not_mem_nil, or_false]
    tauto
  case objects =>
    change Owned _ (· ∈ s'.held (front ++ last :: [n])) _
    rw [hheld]
    exact h.objects.congr (fun _ => Iff.rfl) (fun _ => Iff.rfl) (setPc_same Pc.newData? hd)
  case once =>
    change (s'.held (front ++ last :: [n])).Nodup
    rw [hheld]
    exact h.once
  case counters => exact h.counters.congr (fun _ => Iff.rfl) (fun _ => Iff.rfl) (setPc_same Pc.freeing? hf)
  case freed => exact h.freed
  case left => exact h.left
  case external =>
    intro b hb
    rw [hcount]
    by_cases hbn : b = n
    · have hnf : n ∉ front := fun hm => h.node_ne (List.mem_append_left _ hm) hn rfl
      change _ = if s.freed b = 0 then _ else _
      rw [hbn, if_pos (h.freed_eq_zero hnf), h.fresh t n hn]
      rfl
    · have hb' : b ∈ front ++ [last] := by
        simp only [Option.toList_some, List.mem_append, List.mem_cons, List.not_mem_nil, or_false] at hb ⊢
        tauto
      exact h.external b hb'
  case pcs =>
    exact (Function.forall_update_iff s.pc fun _ q => q.Ok s' (front ++ [last])).2 ⟨hok, fun u _ => hpcs (h.pcs u)⟩

theorem Inv.drop (h : Inv s front last rest) (hn : (s.pc t).node? = some n) (hn' : p.node? = none)
    (hd : p.newData? = (s.pc t).newData?) (hf : p.freeing? = (s.pc t).freeing?)
    (hs : (s.pc t).swinging? = some last → p.swinging? = some last) (hok : p.Ok s (front ++ [last])) :
    Inv ({ s with live := fun a => a ≠ n ∧ s.live a }.setPc t p) front last rest where
  linked := h.linked
  tail := h.tail
  ends a ha hnone := h.ends a ha.2 hnone
  full := h.full
  taken := h.taken
  behind := h.behind
  carried hr := exists_setPc Pc.swinging? hs (h.carried hr)
  fresh u a ha := by
    have hu : u ≠ t := by
      rintro rfl
      have hh := (setPc_self Pc.node? s u p).symm.trans ha
      rw [hn'] at hh
      cases hh
    exact h.fresh u a ((setPc_of_ne Pc.node? s p hu).symm.trans ha)
  nodes := h.nodes.drop hn (fun _ => Iff.rfl) (fun _ => Iff.rfl) ((setPc_self Pc.node? s t p).trans hn')
    (fun u hu => setPc_of_ne Pc.node? s p hu)
  objects := h.objects.congr (fun _ => Iff.rfl) (fun _ => Iff.rfl) (setPc_same Pc.newData? hd)
  once := h.once
  counters := h.counters.congr (fun _ => Iff.rfl) (fun _ => Iff.rfl) (setPc_same Pc.freeing? hf)
  freed := h.freed
  left := h.left
  external := h.external
  pcs := (Function.forall_update_iff s.pc fun _ p => p.Ok s (front ++ [last])).2 ⟨hok, fun u _ => h.pcs u⟩

theorem Inv.allocate (h : Inv s front last rest) (hfree : ¬ s.live n) {vs : List T} (hn : (s.pc t).node? = none)
    (hn' : p.node? = some n) (hf : p.freeing? = (s.pc t).freeing?)
    (hs : (s.pc t).swinging? = some last → p.swinging? = some last) (hok : p.Ok s (front ++ [last]))
    (hobjects : Owned (· < vs.length) (· ∈ s.held (front ++ last :: rest.toList))
      fun u => ((s.setPc t p).pc u).newData?) :
    Inv ({ s.setNode n .make with
      live := fun a => a = n ∨ s.live a
      values := vs }.setPc t p) front last rest := by
  have hchain : ∀ b ∈ front ++ last :: rest.toList, (s.setNode n .make).node b = s.node b := by
    intro b hb
    refine setNode_of_ne s _ ?_
    rintro rfl
    exact hfree (h.live_of_mem hb)
  have hself : (s.setNode n .make).node n = .make := by simp [State.setNode]
  have hlast : last ∈ front ++ last :: rest.toList := by simp
  have hheld : ({ s.setNode n .make with
      live := fun a => a = n ∨ s.live a
      values := vs }.setPc t p).held (front ++ last :: rest.toList) = s.held (front ++ last :: rest.toList) :=
    State.held_congr fun b hb => congrArg CountedNode.data (hchain b hb)
  have hpcs : ∀ {q : Pc}, q.Ok s (front ++ [last]) → q.Ok ({ s.setNode n .make with
      live := fun a => a = n ∨ s.live a
      values := vs }.setPc t p) (front ++ [last]) := by
    intro q hq
    refine hq.mono (fun b hb => hb) (fun b hb hbd => ?_) (fun b hb _ => ?_)
    · rw [← hchain b (mem_of_seen rest hb)] at hbd
      exact hbd
    · exact congrArg CountedNode.next (hchain b (mem_of_seen rest hb))
  constructor
  case linked => exact h.linked.congr fun b hb => congrArg (fun x => x.next.ptr) (hchain b hb)
  case tail => exact h.tail
  case ends =>
    intro b hb hnone
    by_cases hbn : b = n
    · rw [hbn]
      exact congrArg CountedNode.next hself
    · have he := setNode_of_ne s .make hbn
      have hnone' : ((s.setNode n .make).node b).next.ptr = none := hnone
      rw [he] at hnone'
      exact (congrArg CountedNode.next he).trans (h.ends b (hb.resolve_left hbn) hnone')
  case full =>
    intro b hb
    have hh := h.full b hb
    rw [← hchain b (List.mem_append_left _ hb)] at hh
    exact hh
  case taken =>
    intro hr
    have hh := h.taken hr
    rw [← hchain last hlast] at hh
    exact hh
  case behind =>
    intro b hb
    have hb' : b ∈ front ++ last :: rest.toList := by
      cases hb
      simp
    exact (hchain b hb').trans (h.behind b hb)
  case carried => exact fun hr => exists_setPc Pc.swinging? hs (h.carried hr)
  case fresh =>
    intro u b hb
    by_cases hu : u = t
    · subst hu
      have hh := (setPc_self Pc.node? s u p).symm.trans hb
      rw [hn'] at hh
      cases hh
      exact hself
    · have hb' : (s.pc u).node? = some b := (setPc_of_ne Pc.node? s p hu).symm.trans hb
      have hbn : b ≠ n := by
        rintro rfl
        exact hfree (h.nodes.mem_own u b hb')
      exact (setNode_of_ne s _ hbn).trans (h.fresh u b hb')
  case nodes =>
    exact h.nodes.appear hfree hn (fun _ => Iff.rfl) (fun _ => Iff.rfl) ((setPc_self Pc.node? s t p).trans hn')
      (fun u hu => setPc_of_ne Pc.node? s p hu)
  case objects =>
    rw [hheld]
    exact hobjects
  case once =>
    rw [hheld]
    exact h.once
  case counters => exact h.counters.congr (fun _ => Iff.rfl) (fun _ => Iff.rfl) (setPc_same Pc.freeing? hf)
  case freed => exact h.freed
  case left => exact h.left
  case external =>
    intro b hb
    exact (congrArg (fun x => x.count.externalCounters) (hchain b hb)).trans (h.external b hb)
  case pcs => exact (Function.forall_update_iff s.pc fun _ q => q.Ok _ (front ++ [last])).2 ⟨hpcs hok,
    fun u _ => hpcs (h.pcs u)⟩

theorem Inv.swing (h : Inv s front last (some b)) {c : CountedNodePtr} (hc : c.ptr = some b)
    (hn : p.node? = (s.pc t).node?) (hd : p.newData? = (s.pc t).newData?) (hf : (s.pc t).freeing? = none)
    (hf' : p.freeing? = some last) (hok : p.Ok s (front ++ [last])) :
    Inv ((s.setTail c).setPc t p) (front ++ [last]) b none := by
  have hnodup := h.nodup
  have hnot : last ∉ front := by
    rw [List.nodup_append] at hnodup
    exact fun hm => hnodup.2.2 last hm last (by simp) rfl
  have hbl : b ≠ last := h.rest_ne (a := last) (by simp) (by simp)
  have hchain : (front ++ [last]) ++ b :: (none : Option Nat).toList = front ++ last :: (some b).toList := by simp
  have hpcs : ∀ {q : Pc}, q.Ok s (front ++ [last]) → q.Ok ((s.setTail c).setPc t p) (front ++ [last] ++ [b]) :=
    fun hq => hq.mono (fun a ha => List.mem_append_left _ ha) (fun a _ ha => ha) (fun _ _ _ => rfl)
  constructor
  case linked =>
    rw [hchain]
    exact h.linked
  case tail => exact hc
  case ends => exact h.ends
  case full =>
    intro a ha
    rcases List.mem_append.1 ha with ha | ha
    · exact h.full a ha
    · obtain rfl := List.mem_singleton.1 ha
      exact h.taken (by simp)
  case taken => exact fun hr => absurd rfl hr
  case behind => exact fun a ha => absurd ha (by simp)
  case carried => exact fun hr => absurd rfl hr
  case fresh => exact fun u a ha => h.fresh u a ((setPc_same Pc.node? hn u).symm.trans ha)
  case nodes =>
    rw [hchain]
    exact h.nodes.congr (fun _ => Iff.rfl) (fun _ => Iff.rfl) (setPc_same Pc.node? hn)
  case objects =>
    rw [hchain]
    exact h.objects.congr (fun _ => Iff.rfl) (fun _ => Iff.rfl) (setPc_same Pc.newData? hd)
  case once =>
    rw [hchain]
    exact h.once
  case counters =>
    refine h.counters.appear hnot hf (fun y => ?_) (fun _ => Iff.rfl) ((setPc_self Pc.freeing? s t p).trans hf')
      (fun u hu => setPc_of_ne Pc.freeing? s p hu)
    rw [List.mem_append, List.mem_singleton, or_comm]
  case freed => exact h.freed
  case left =>
    intro a
    change (if s.tail.ptr = some a ∧ c.ptr ≠ some a then s.left a + 1 else s.left a) = _
    rw [h.tail, hc, h.left]
    by_cases ha : a = last
    · subst ha
      simp [hnot, hbl]
    · simp [ha, Ne.symm ha]
  case external =>
    rw [hchain]
    exact h.external
  case pcs => exact (Function.forall_update_iff s.pc fun _ q => q.Ok _ (front ++ [last] ++ [b])).2 ⟨hpcs hok,
    fun u _ => hpcs (h.pcs u)⟩

@[simp] theorem node?_pc (k : After) (old : CountedNodePtr) : (k.pc old).node? = k.node? := by
  cases k <;> rfl

@[simp] theorem newData?_pc (k : After) (old : CountedNodePtr) : (k.pc old).newData? = k.newData? := by
  cases k <;> rfl

@[simp] theorem freeing?_pc (k : After) (old : CountedNodePtr) : (k.pc old).freeing? = none := by
  cases k <;> rfl

omit [DecidableEq Tid] in
theorem ok_pc (k : After) (old : CountedNodePtr) (seen : List Nat) : (k.pc old).Ok s seen := by
  cases k <;> trivial

omit [DecidableEq Tid] in
/-- A next that is not null has a pointer. -/
theorem Inv.next_ne (h : Inv s front last rest) (ha : a ∈ front ++ [last]) (hne : (s.node a).next ≠ ⟨0, none⟩) :
    (s.node a).next.ptr ≠ none :=
  fun hn => hne (h.ends a (h.live_of_mem (mem_of_seen rest ha)) hn)

omit [DecidableEq Tid] in
theorem setTail_same (s : State T Tid) {c : CountedNodePtr} (hc : c.ptr = s.tail.ptr) :
    s.setTail c = { s with tail := c } := by
  have hl : (fun a => if s.tail.ptr = some a ∧ c.ptr ≠ some a then s.left a + 1 else s.left a) = s.left := by
    funext a
    rw [hc, if_neg (fun hh => hh.2 hh.1)]
  rw [State.setTail, hl]

omit [DecidableEq Tid] in
/-- The compare-exchange succeeds where tail is at `current_tail_ptr`. -/
theorem Inv.swung (h : Inv s front last rest) {c new : CountedNodePtr} {k : After} (ht : s.pc t = .swing c a new k)
    (ha : s.tail.ptr = some a) : a = last ∧ ∃ b, rest = some b ∧ new.ptr = some b := by
  have hok := h.pcs t
  rw [ht] at hok
  obtain ⟨-, hnext, hne⟩ := hok
  obtain rfl : a = last := Option.some.inj (ha.symm.trans h.tail)
  have hr := h.next_last
  rw [hnext] at hr
  obtain ⟨b, hb⟩ := Option.ne_none_iff_exists'.1 hne
  exact ⟨rfl, b, hr.symm.trans hb, hb⟩

theorem Inv.step (h : Inv s front last rest) (hs : Step t s s') (hc : Careful t s s') :
    ∃ front last rest, Inv s' front last rest := by
  have hok := h.pcs t
  cases hs with
  | push v n ht hn =>
    refine ⟨front, last, rest, h.allocate hn (by rw [ht]; rfl) rfl (by rw [ht]; rfl) (by rw [ht]; nofun) trivial ?_⟩
    refine h.objects.appear (x := s.values.length) (by simp) (by rw [ht]; rfl) (fun y => ?_) (fun _ => Iff.rfl)
      (setPc_self Pc.newData? s t _) (fun u hu => setPc_of_ne Pc.newData? s _ hu)
    rw [List.length_append, List.length_singleton]
    omega
  | load k n ht => exact ⟨front, last, rest, h.goOn (by rw [ht]; rfl) (by rw [ht]; rfl) (by rw [ht]; rfl)
      (by rw [ht]; nofun) trivial⟩
  | increaseOk k n old ht he =>
    subst he
    have hr := h.retail (c := s.tail.increase) rfl
    have ht' : ({ s with tail := s.tail.increase } : State T Tid).pc t = .increase k n s.tail := ht
    exact ⟨front, last, rest, hr.goOn (by rw [ht']; rfl) (by rw [ht']; rfl) (by rw [ht']; rfl)
      (by rw [ht']; nofun) ⟨last, by simp, h.tail⟩⟩
  | increaseFail k n old ht he =>
    exact ⟨front, last, rest, h.goOn (by rw [ht]; rfl) (by rw [ht]; rfl) (by rw [ht]; rfl) (by rw [ht]; nofun) trivial⟩
  | dataOk k n old p ht hp he =>
    rw [ht] at hok
    obtain ⟨p', hmem, hp'⟩ := hok
    obtain rfl : p' = p := Option.some.inj (hp'.symm.trans hp)
    obtain ⟨rfl, rfl⟩ := h.eq_last_of_data hmem he
    refine ⟨front, p', none, h.fill he (by rw [ht]; rfl) (by rw [ht]; rfl) rfl (by rw [ht]; rfl) ⟨p', hmem, hp, ?_⟩⟩
    simp [State.setNode]
  | dataFail k n old p ht hp he =>
    rw [ht] at hok
    obtain ⟨p', hmem, hp'⟩ := hok
    obtain rfl : p' = p := Option.some.inj (hp'.symm.trans hp)
    exact ⟨front, last, rest, h.goOn (by rw [ht]; rfl) (by rw [ht]; rfl) (by rw [ht]; rfl) (by rw [ht]; nofun)
      ⟨p', hmem, hp, he⟩⟩
  | nextOk n old p ht hp he | helpOk k n old p ht hp he =>
    rw [ht] at hok
    obtain ⟨p', hmem, hp', hd⟩ := hok
    obtain rfl : p' = p := Option.some.inj (hp'.symm.trans hp)
    obtain ⟨rfl, rfl⟩ := h.eq_last_of_next hmem (congrArg CountedNodePtr.ptr he)
    refine ⟨front, p', some n, h.link hd (by rw [ht]; rfl) rfl (by rw [ht]; rfl) (by rw [ht]; rfl) rfl ⟨hmem, ?_, ?_⟩⟩
    · simp [State.setNode]
    · simp [CountedNodePtr.first]
  | nextFail n old p ht hp he =>
    rw [ht] at hok
    obtain ⟨p', hmem, hp', -⟩ := hok
    obtain rfl : p' = p := Option.some.inj (hp'.symm.trans hp)
    exact ⟨front, last, rest, h.drop (by rw [ht]; rfl) rfl (by rw [ht]; rfl) (by rw [ht]; rfl) (by rw [ht]; nofun)
      ⟨hmem, rfl, h.next_ne hmem he⟩⟩
  | helpFail k n old p ht hp he =>
    rw [ht] at hok
    obtain ⟨p', hmem, hp', -⟩ := hok
    obtain rfl : p' = p := Option.some.inj (hp'.symm.trans hp)
    exact ⟨front, last, rest, h.goOn (by rw [ht]; rfl) (by rw [ht]; rfl) (by rw [ht]; rfl) (by rw [ht]; nofun)
      ⟨hmem, rfl, h.next_ne hmem he⟩⟩
  | renew k old p new n ht hn =>
    rw [ht] at hok
    refine ⟨front, last, rest, h.allocate hn (by rw [ht]; rfl) rfl (by rw [ht]; rfl) (by rw [ht]; exact id) hok ?_⟩
    exact h.objects.congr (fun _ => Iff.rfl) (fun _ => Iff.rfl) (setPc_same Pc.newData? (by rw [ht]; rfl))
  | swingOk old p new k ht he =>
    rw [ht] at hok
    subst he
    by_cases htail : s.tail.ptr = some p
    · obtain ⟨rfl, b, rfl, hb⟩ := h.swung ht htail
      rw [if_pos htail]
      exact ⟨front ++ [p], b, none, h.swing hb (by rw [ht]; rfl) (by rw [ht]; rfl) (by rw [ht]; rfl) htail trivial⟩
    · have hnew : new.ptr = s.tail.ptr := by
        rcases hc.again _ p new k ht htail with hh | hh
        · exact congrArg CountedNodePtr.ptr hh
        · exact hh.symm
      rw [if_neg htail, setTail_same s hnew]
      have ht' : ({ s with tail := new } : State T Tid).pc t = .swing s.tail p new k := ht
      have hother : (({ s with tail := new } : State T Tid).pc t).swinging? ≠ some last := by
        rw [ht', ← h.tail]
        exact Ne.symm htail
      exact ⟨front, last, rest, (h.retail hnew).goOn (by rw [ht']; rfl) (by rw [ht']; rfl) (by rw [ht']; rfl)
        (fun hh => absurd hh hother) hok.1⟩
  | swingFail old p new k ht =>
    rw [ht] at hok
    by_cases htail : s.tail.ptr = some p
    · obtain ⟨rfl, b, rfl, hb⟩ := h.swung ht htail
      have hh : s.tail = new := hc.first old p new k ht htail
      rw [← hh, htail] at hb
      exact absurd (Option.some.inj hb).symm (h.rest_ne (a := p) (by simp) rfl)
    · rw [if_neg htail]
      exact ⟨front, last, rest, h.goOn (by rw [ht]; rfl) (by rw [ht]; rfl) (by rw [ht]; rfl) (by rw [ht]; exact id) hok⟩
  | freeLoad old k p ht hp =>
    exact ⟨front, last, rest, h.goOn (by rw [ht]; rfl) (by rw [ht]; rfl) (by rw [ht]; rfl) (by rw [ht]; nofun) trivial⟩
  | freeCasOk old c k p ht hp he =>
    subst he
    have hfreeing : (s.pc t).freeing? = some p := by
      rw [ht]
      exact hp
    have hmem : p ∈ front := h.counters.mem_own t p hfreeing
    have hzero : s.freed p = 0 := by
      by_contra hne
      exact h.counters.apart t p hfreeing hne
    have hext := h.external p (List.mem_append_left _ hmem)
    rw [if_pos hzero] at hext
    refine ⟨front, last, rest, h.count (List.mem_append_left _ hmem) ?_ ?_ (by rw [ht]; nofun) (ok_pc k old _)
      (fun b hb => Function.update_of_ne hb _ _) ?_ ?_ ?_⟩
    · rw [ht]
      exact node?_pc k old
    · rw [ht]
      exact newData?_pc k old
    · simp [hzero]
    · simp [NodeCounter.free, hext]
    · refine h.counters.give hfreeing (fun _ => Iff.rfl) (fun y => ?_)
        ((setPc_self Pc.freeing? s t _).trans (freeing?_pc k old)) (fun u hu => setPc_of_ne Pc.freeing? s _ hu)
      by_cases hy : y = p
      · simp [hy]
      · simp [hy]
  | freeCasFail old c k p ht hp he =>
    exact ⟨front, last, rest, h.goOn (by rw [ht]; rfl) (by rw [ht]; rfl) (by rw [ht]; rfl) (by rw [ht]; nofun) trivial⟩
  | releaseLoad p old k ht =>
    rw [ht] at hok
    exact ⟨front, last, rest, h.goOn (by rw [ht]; rfl) (by rw [ht]; rfl) (by rw [ht]; rfl) (by rw [ht]; nofun) hok⟩
  | releaseCasOk p old c k ht he =>
    subst he
    rw [ht] at hok
    have hmem : p ∈ front ++ [last] := hok
    refine ⟨front, last, rest, h.count (F := s.freed) hmem ?_ ?_ (by rw [ht]; nofun) (ok_pc k old _)
      (fun b _ => rfl) (h.freed p)
      (h.external p (mem_of_seen rest hmem)) ?_⟩
    · rw [ht]
      exact node?_pc k old
    · rw [ht]
      exact newData?_pc k old
    · refine h.counters.congr (fun _ => Iff.rfl) (fun _ => Iff.rfl) (setPc_same Pc.freeing? ?_)
      rw [ht]
      exact freeing?_pc k old
  | releaseCasFail p old c k ht he =>
    rw [ht] at hok
    exact ⟨front, last, rest, h.goOn (by rw [ht]; rfl) (by rw [ht]; rfl) (by rw [ht]; rfl) (by rw [ht]; nofun) hok⟩

/-- Tail moves from a node to the next of that node. -/
theorem Inv.tail_step (h : Inv s front last rest) (hs : Step t s s') (hc : Careful t s s') :
    s'.tail.ptr = s.tail.ptr ∨
      ∃ a b, s.tail.ptr = some a ∧ (s.node a).next.ptr = some b ∧ s'.tail.ptr = some b := by
  cases hs with
  | increaseOk k n old ht he =>
    subst he
    exact .inl rfl
  | swingOk old p new k ht he =>
    by_cases htail : s.tail.ptr = some p
    · obtain ⟨rfl, b, rfl, hb⟩ := h.swung ht htail
      exact .inr ⟨p, b, htail, h.next_last, hb⟩
    · left
      rcases hc.again _ p new k ht htail with hh | hh
      · exact congrArg CountedNodePtr.ptr hh
      · exact hh.symm
  | _ => exact .inl rfl

omit [DecidableEq Tid] in
theorem inv_make (dummy : Nat) : Inv (.make dummy : State T Tid) [] dummy none := by
  constructor
  case linked => exact ⟨rfl, rfl⟩
  case tail => rfl
  case ends => exact fun _ _ _ => rfl
  case full => simp
  case taken => simp
  case behind => simp
  case carried => simp
  case fresh => exact fun t a ha => by cases ha
  case nodes => exact .of_none (fun a => by simp [State.make]) (fun t => rfl)
  case objects => exact .of_none (fun a => by simp [State.make, State.held, CountedNode.make]) (fun t => rfl)
  case once => simp [State.held, State.make, CountedNode.make]
  case counters => exact .of_none (fun a => by simp [State.make]) (fun t => rfl)
  case freed => exact fun a => Nat.zero_le 1
  case left => simp [State.make]
  case external => exact fun _ _ => rfl
  case pcs => exact fun t => trivial

theorem inv_of_reachable (h : Reachable Init CarefulStep s) : ∃ front last rest, Inv s front last rest := by
  apply h.invariant
  · rintro s ⟨dummy, rfl⟩
    exact ⟨[], dummy, none, inv_make dummy⟩
  · rintro s s' - ⟨front, last, rest, h⟩ ⟨t, hs, hc⟩
    exact h.step hs hc

/-- As long as the compare-exchange in `set_new_tail` succeeds where tail is at
`current_tail_ptr`, and elsewhere at most where tail is at the new node, tail moves
along the nodes, the external counter of a node for tail is given up once and after
tail has left it, and when no push is under way tail is at the last node and each
object is in one node. -/
theorem tail_follows (h : Reachable Init CarefulStep s) :
    (∀ s', CarefulStep s s' → s'.tail.ptr = s.tail.ptr ∨
      ∃ a b, s.tail.ptr = some a ∧ (s.node a).next.ptr = some b ∧ s'.tail.ptr = some b) ∧
    (∀ a, s.freed a ≤ s.left a ∧ s.left a ≤ 1) ∧
    ((∀ t, s.pc t = .idle) → ∃ front last,
      Segment (fun a => (s.node a).next.ptr) s.head.ptr (front ++ [last]) none ∧ s.tail.ptr = some last ∧
      (∀ a, s.freed a = if a ∈ front then 1 else 0) ∧ (∀ a, s.left a = if a ∈ front then 1 else 0) ∧
      (s.held (front ++ [last])).Perm (List.range s.values.length)) := by
  obtain ⟨front, last, rest, hi⟩ := inv_of_reachable h
  refine ⟨fun s' ⟨t, hs, hc⟩ => hi.tail_step hs hc, fun a => ?_, fun hidle => ?_⟩
  · rw [hi.left]
    split
    · exact ⟨hi.freed a, le_rfl⟩
    · next ha => exact ⟨(hi.freed_eq_zero ha).le, Nat.zero_le 1⟩
  · have hnone : ∀ g : Pc → Option Nat, g .idle = none → ∀ t, g (s.pc t) = none := by
      intro g hg t
      rw [hidle t, hg]
    have hcounters := hi.counters.iff_of_none (hnone Pc.freeing? rfl)
    have hobjects := hi.objects.iff_of_none (hnone Pc.newData? rfl)
    have hrest : rest = none := by
      by_contra hr
      obtain ⟨t, ht⟩ := hi.carried hr
      rw [hnone Pc.swinging? rfl t] at ht
      cases ht
    subst hrest
    refine ⟨front, last, hi.linked, hi.tail, fun a => ?_, hi.left, ?_⟩
    · have ha := hcounters a
      have hle := hi.freed a
      split
      · next hm =>
        have hne := ha.1 hm
        omega
      · next hm => exact hi.freed_eq_zero hm
    · refine (List.perm_ext_iff_of_nodup hi.once List.nodup_range).2 fun k => ?_
      rw [List.mem_range]
      exact (hobjects k).symm

omit [DecidableEq Tid] in
theorem careful_of_ne (h : ∀ old p new k, s.pc t ≠ .swing old p new k) : Careful t s s' :=
  ⟨fun old p new k ht => absurd ht (h old p new k), fun old p new k ht => absurd ht (h old p new k)⟩

end Moves

/-- A push that nothing disturbs. -/
theorem tail_follows_one : ∃ s : State Nat Unit, Reachable Init CarefulStep s ∧ s.tail.ptr = some 1 ∧
    s.freed 0 ≤ s.left 0 ∧ s.left 0 ≤ 1 := by
  have h₀ : Reachable Init CarefulStep (.make 0 : State Nat Unit) := .of_init ⟨0, rfl⟩
  have h₁ := h₀.tail ⟨(), .push _ 7 1 rfl (by simp [State.make]), careful_of_ne (by nofun)⟩
  have h₂ := h₁.tail ⟨(), .load _ 0 1 rfl, careful_of_ne (by nofun)⟩
  have h₃ := h₂.tail ⟨(), .increaseOk _ 0 1 _ rfl rfl, careful_of_ne (by nofun)⟩
  have h₄ := h₃.tail ⟨(), .dataOk _ 0 1 _ 0 rfl rfl rfl, careful_of_ne (by nofun)⟩
  have h₅ := h₄.tail ⟨(), .nextOk _ 1 _ 0 rfl rfl rfl, careful_of_ne (by nofun)⟩
  have h₆ := h₅.tail ⟨(), .swingOk _ _ 0 (.first 1) .done rfl rfl, by
    constructor
    · intro old p new k ht _
      cases ht
      rfl
    · intro old p new k ht hne
      cases ht
      exact absurd rfl hne⟩
  exact ⟨_, h₆, rfl, (tail_follows h₆).2.1 0⟩

/-- Another push has increased the external count of tail when `set_new_tail` runs. The
loop then ends although tail has not moved, and both pushes give up the external counter
of the node. -/
theorem counter_given_up_twice : ∃ s : State Nat Bool, Reachable Init Next s ∧ s.left 0 = 1 ∧ s.freed 0 = 2 := by
  have h₀ : Reachable Init Next (.make 0 : State Nat Bool) := .of_init ⟨0, rfl⟩
  have h₁ := h₀.tail ⟨false, .push _ 7 1 rfl (by simp [State.make])⟩
  have h₂ := h₁.tail ⟨false, .load _ 0 1 rfl⟩
  have h₃ := h₂.tail ⟨false, .increaseOk _ 0 1 _ rfl rfl⟩
  have h₄ := h₃.tail ⟨false, .dataOk _ 0 1 _ 0 rfl rfl rfl⟩
  have h₅ := h₄.tail ⟨false, .nextOk _ 1 _ 0 rfl rfl rfl⟩
  have h₆ := h₅.tail ⟨true, .push _ 8 2 rfl (by simp [State.make, State.setPc, State.setNode])⟩
  have h₇ := h₆.tail ⟨true, .load _ 1 2 rfl⟩
  have h₈ := h₇.tail ⟨true, .increaseOk _ 1 2 _ rfl rfl⟩
  have h₉ := h₈.tail ⟨true, .dataFail _ 1 2 _ 0 rfl rfl nofun⟩
  have h₁₀ := h₉.tail ⟨true, .helpFail _ 1 2 _ 0 rfl rfl (by decide)⟩
  have h₁₁ := h₁₀.tail ⟨false, .swingFail _ _ 0 (.first 1) .done rfl⟩
  have h₁₂ := h₁₁.tail ⟨false, .freeLoad _ _ .done 0 rfl rfl⟩
  have h₁₃ := h₁₂.tail ⟨false, .freeCasOk _ _ _ .done 0 rfl rfl rfl⟩
  have h₁₄ := h₁₃.tail ⟨true, .swingOk _ _ 0 (.first 1) (.again 1 2) rfl rfl⟩
  have h₁₅ := h₁₄.tail ⟨true, .freeLoad _ _ (.again 1 2) 0 rfl rfl⟩
  have h₁₆ := h₁₅.tail ⟨true, .freeCasOk _ _ _ (.again 1 2) 0 rfl rfl rfl⟩
  exact ⟨_, h₁₆, rfl, rfl⟩

end Wizard.LockFreeQueue
