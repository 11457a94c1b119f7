import Wizard.RetireListLinks

/-! No object is lost and none is deleted twice, whatever the clock says and whatever
addresses come back. -/

namespace Wizard.RetireList

variable {Tid Obj : Type*}

/-- The object is in the hands of `retire`, of the list or of the deleter. -/
def State.Retired (s : State Tid Obj) (d : Obj) : Prop :=
  (∃ p, s.live p ∧ s.data p = some d) ∨ ∃ f ∈ s.freed, f.data = some d

/-- The steps of thread `t` under any clock, with those of `force_gc`, which goes on from
its load as a `try_gc` that has found the list expired. -/
inductive AnyStep [DecidableEq Tid] (t : Tid) : State Tid Obj → State Tid Obj → Prop
  | setClock (s c) : AnyStep t s { s with clock := c }
  | step (s s' start) (h : Step start t s s') : AnyStep t s s'
  | forceGc (s) (ht : s.pc t = .idle) : AnyStep t s (s.setPc t (.gcCas s.clock none s.head))

/-- An object is retired once. -/
def OnceStep [DecidableEq Tid] (s s' : State Tid Obj) : Prop :=
  ∃ t, AnyStep t s s' ∧ ∀ p d, ¬ s.live p → s'.live p → s'.data p = some d → ¬ s.Retired d

inductive Holder (Tid : Type*)
  | list
  | detached (t : Tid)
  | retire (t : Tid)
  | deleter

/-- How often a holder has the object. -/
def held [DecidableEq Obj] (s : State Tid Obj) (list : List Ptr) (drop : Tid → List Ptr) (d : Obj) : Holder Tid → Nat
  | .list => (list.map s.data).count (some d)
  | .detached t => ((drop t).map s.data).count (some d)
  | .retire t => ((s.pc t).mine?.toList.map s.data).count (some d)
  | .deleter => (s.freed.map Freed.data).count (some d)

/-- Nodes have objects of their own, and a deleted object is not in a node. -/
structure Distinct (s : State Tid Obj) : Prop where
  full : ∀ p, s.live p → ∃ d, s.data p = some d
  inj : ∀ p q, s.live p → s.live q → s.data p = s.data q → p = q
  freed : (s.freed.map Freed.data).Nodup
  apart : ∀ p, s.live p → s.data p ∉ s.freed.map Freed.data

variable {s s' : State Tid Obj} {list : List Ptr} {drop : Tid → List Ptr} {t : Tid}

theorem Distinct.congr (h : Distinct s) (hl : s'.live = s.live) (hd : s'.data = s.data) (hf : s'.freed = s.freed) :
    Distinct s' := by
  obtain ⟨hfull, hinj, hfreed, hapart⟩ := h
  constructor
  · rw [hl, hd]
    exact hfull
  · rw [hl, hd]
    exact hinj
  · rw [hf]
    exact hfreed
  · rw [hl, hd, hf]
    exact hapart

theorem Distinct.insert {p : Ptr} {d : Obj} (h : Distinct s) (hp : ¬ s.live p) (hd : ¬ s.Retired d)
    (hl : s'.live = fun q => q = p ∨ s.live q) (hdata : s'.data = Function.update s.data p (some d))
    (hf : s'.freed = s.freed) : Distinct s' := by
  have hne : ∀ q, s.live q → Function.update s.data p (some d) q = s.data q := by
    intro q hq
    refine Function.update_of_ne (fun he => hp ?_) _ _
    rw [← he]
    exact hq
  have hnode : ∀ q, s.live q → s.data q ≠ some d := fun q hq he => hd (.inl ⟨q, hq, he⟩)
  have hfree : some d ∉ s.freed.map Freed.data := by
    intro hm
    obtain ⟨f, hfm, hfd⟩ := List.mem_map.1 hm
    exact hd (.inr ⟨f, hfm, hfd⟩)
  constructor
  · intro q hq
    rw [hl] at hq
    rw [hdata]
    rcases hq with rfl | hq
    · exact ⟨d, Function.update_self _ _ _⟩
    · rw [hne q hq]
      exact h.full q hq
  · intro q r hq hr he
    rw [hl] at hq hr
    rw [hdata] at he
    rcases hq with rfl | hq
    · rcases hr with rfl | hr
      · rfl
      · rw [Function.update_self, hne r hr] at he
        exact absurd he.symm (hnode r hr)
    · rcases hr with rfl | hr
      · rw [Function.update_self, hne q hq] at he
        exact absurd he (hnode q hq)
      · rw [hne q hq, hne r hr] at he
        exact h.inj q r hq hr he
  · rw [hf]
    exact h.freed
  · intro q hq
    rw [hl] at hq
    rw [hdata, hf]
    rcases hq with rfl | hq
    · rw [Function.update_self]
      exact hfree
    · rw [hne q hq]
      exact h.apart q hq

theorem Distinct.delete {n : Ptr} {f : Freed Obj} (h : Distinct s) (hn : s.live n) (hfd : f.data = s.data n)
    (hl : s'.live = fun q => q ≠ n ∧ s.live q) (hdata : s'.data = s.data) (hf : s'.freed = f :: s.freed) :
      Distinct s' := by
  constructor
  · intro q hq
    rw [hl] at hq
    rw [hdata]
    exact h.full q hq.2
  · intro q r hq hr
    rw [hl] at hq hr
    rw [hdata]
    exact h.inj q r hq.2 hr.2
  · rw [hf, List.map_cons, List.nodup_cons, hfd]
    exact ⟨h.apart n hn, h.freed⟩
  · intro q hq
    rw [hl] at hq
    rw [hdata, hf, List.map_cons, List.mem_cons, hfd, not_or]
    exact ⟨fun he => hq.1 (h.inj q n hq.2 hn he), h.apart q hq.2⟩

section Steps

variable [DecidableEq Tid]

theorem finishGc_frame (s : State Tid Obj) (t : Tid) (now : Nat) (after : Option Ptr) :
    (s.finishGc t now after).live = s.live ∧ (s.finishGc t now after).data = s.data ∧
      (s.finishGc t now after).freed = s.freed := by
  cases after with
  | none => exact ⟨rfl, rfl, rfl⟩
  | some n => exact ⟨rfl, rfl, rfl⟩

theorem deleteAt_frame (s : State Tid Obj) (t : Tid) (now : Nat) (after q : Option Ptr) :
    (s.deleteAt t now after q).live = s.live ∧ (s.deleteAt t now after q).data = s.data ∧
      (s.deleteAt t now after q).freed = s.freed := by
  cases q with
  | none => exact finishGc_frame s t now after
  | some n => exact ⟨rfl, rfl, rfl⟩

theorem Kept.step {start : Nat} (h : Kept s list drop) (hs : Step start t s s') :
    ∃ list' drop', Kept s' list' drop' := by
  cases hs with
  | tick c hle hspan => exact ⟨list, drop, h.setClock c⟩
  | retire p d ht hp h0 h48 => exact ⟨list, drop, h.retire ht hp h0 h48⟩
  | tryGc ht =>
    refine ⟨list, drop, h.setPc ?_ ?_ trivial⟩
    · rw [ht]
      rfl
    · rw [ht]
      rfl
  | gcLoad now after ht => exact ⟨list, drop, h.gcLoad ht⟩
  | gcCasOk now after oldHead ht he => exact ⟨[], Function.update drop t list, h.gcCasOk ht he⟩
  | gcCasFail now after oldHead ht => exact ⟨list, drop, h.gcCasFail ht⟩
  | delete now after n ht =>
    obtain ⟨rest, -, hk⟩ := h.delete ht
    exact ⟨list, Function.update drop t rest, hk⟩
  | pushLoad now n ht => exact ⟨list, drop, h.pushLoad ht⟩
  | pushLink now n oldHead ht => exact ⟨list, drop, h.pushLink ht⟩
  | pushCasOk now n oldHead ht he => exact ⟨n :: list, drop, h.pushCasOk ht he⟩
  | pushCasFail now n oldHead ht => exact ⟨list, drop, h.pushCasFail ht⟩

theorem Kept.anyStep (h : Kept s list drop) (hs : AnyStep t s s') : ∃ list' drop', Kept s' list' drop' := by
  cases hs with
  | setClock c => exact ⟨list, drop, h.setClock c⟩
  | step _ start hs => exact h.step hs
  | forceGc ht =>
    refine ⟨list, drop, h.setPc ?_ ?_ trivial⟩
    · rw [ht]
      rfl
    · rw [ht]
      rfl

/-- A step makes a node, deletes one, or leaves the nodes, their objects and the deletions alone. -/
theorem Step.cases_live {start : Nat} (hs : Step start t s s') :
    (s'.live = s.live ∧ s'.data = s.data ∧ s'.freed = s.freed) ∨
    (∃ p d, ¬ s.live p ∧ s'.live = (fun q => q = p ∨ s.live q) ∧ s'.data = Function.update s.data p (some d) ∧
      s'.freed = s.freed) ∨
    ∃ now after n, s.pc t = .deleting now after n ∧ s'.live = (fun q => q ≠ n ∧ s.live q) ∧ s'.data = s.data ∧
      s'.freed = ⟨s.data n, s.stamp n, now⟩ :: s.freed := by
  cases hs with
  | retire p d ht hp h0 h48 => exact .inr (.inl ⟨p, d, hp, rfl, rfl, rfl⟩)
  | gcLoad now after ht =>
    split
    · exact .inl ⟨rfl, rfl, rfl⟩
    · exact .inl (finishGc_frame s t now after)
  | gcCasOk now after oldHead ht he => exact .inl (deleteAt_frame { s with head := 0 } t now after (getPtr oldHead))
  | gcCasFail now after oldHead ht => exact .inl (finishGc_frame s t now after)
  | delete now after n ht =>
    exact .inr (.inr ⟨now, after, n, ht, deleteAt_frame { s with
      live := fun q => q ≠ n ∧ s.live q
      freed := ⟨s.data n, s.stamp n, now⟩ :: s.freed } t now after (s.next n)⟩)
  | _ => exact .inl ⟨rfl, rfl, rfl⟩

theorem Distinct.step {start : Nat} (h : Distinct s) (hk : Kept s list drop) (hs : Step start t s s')
    (honce : ∀ p d, ¬ s.live p → s'.live p → s'.data p = some d → ¬ s.Retired d) : Distinct s' := by
  rcases hs.cases_live with ⟨hl, hd, hf⟩ | ⟨p, d, hp, hl, hd, hf⟩ | ⟨now, after, n, ht, hl, hd, hf⟩
  · exact h.congr hl hd hf
  · refine h.insert hp (honce p d hp ?_ ?_) hl hd hf
    · rw [hl]
      exact .inl rfl
    · rw [hd, Function.update_self]
  · obtain ⟨rest, hdrop, -⟩ := hk.delete ht
    have hn : s.live n := hk.place.mem n (.dropped t) (by rw [At, hdrop]; exact List.mem_cons_self)
    exact h.delete hn rfl hl hd hf

theorem Distinct.anyStep (h : Distinct s) (hk : Kept s list drop) (hs : AnyStep t s s')
    (honce : ∀ p d, ¬ s.live p → s'.live p → s'.data p = some d → ¬ s.Retired d) : Distinct s' := by
  cases hs with
  | step _ start hs => exact h.step hk hs honce
  | _ => exact h.congr rfl rfl rfl

omit [DecidableEq Tid] in
theorem State.Retired.congr {d : Obj} (h : s.Retired d) (hl : s'.live = s.live) (hd : s'.data = s.data)
    (hf : s'.freed = s.freed) : s'.Retired d := by
  rw [Retired, hl, hd, hf]
  exact h

theorem State.Retired.step {start : Nat} {d : Obj} (h : s.Retired d) (hs : Step start t s s') : s'.Retired d := by
  rcases hs.cases_live with ⟨hl, hd, hf⟩ | ⟨p, d', hp, hl, hd, hf⟩ | ⟨now, after, n, -, hl, hd, hf⟩
  · exact h.congr hl hd hf
  · rw [Retired, hl, hd, hf]
    rcases h with ⟨q, hq, hqd⟩ | h
    · have hne : q ≠ p := fun he => hp (he ▸ hq)
      exact .inl ⟨q, .inr hq, (Function.update_of_ne hne _ _).trans hqd⟩
    · exact .inr h
  · rw [Retired, hl, hd, hf]
    rcases h with ⟨q, hq, hqd⟩ | ⟨f, hfm, hfd⟩
    · by_cases hqn : q = n
      · refine .inr ⟨_, List.mem_cons_self, ?_⟩
        rw [← hqn]
        exact hqd
      · exact .inl ⟨q, ⟨hqn, hq⟩, hqd⟩
    · exact .inr ⟨f, List.mem_cons_of_mem _ hfm, hfd⟩

theorem State.Retired.later {d : Obj} (h : s.Retired d) (hs : Relation.ReflTransGen OnceStep s s') : s'.Retired d := by
  induction hs with
  | refl => exact h
  | tail _ hs ih =>
    obtain ⟨t, hs, -⟩ := hs
    cases hs with
    | step _ start hs => exact ih.step hs
    | _ => exact ih.congr rfl rfl rfl

end Steps

section Runs

variable [DecidableEq Obj]

/-- An object that is in a node is where the node is. -/
theorem Distinct.count_map (h : Distinct s) {nodes : List Ptr} {p : Ptr} {d : Obj} (hnd : nodes.Nodup)
    (hlive : ∀ q ∈ nodes, s.live q) (hp : s.live p) (hd : s.data p = some d) :
    (nodes.map s.data).count (some d) = if p ∈ nodes then 1 else 0 := by
  by_cases hm : p ∈ nodes
  · rw [if_pos hm, ← hd]
    apply List.count_eq_one_of_mem
    · exact hnd.map_on fun a ha b hb he => h.inj a b (hlive a ha) (hlive b hb) he
    · exact List.mem_map_of_mem hm
  · rw [if_neg hm, List.count_eq_zero]
    intro hmem
    obtain ⟨q, hq, he⟩ := List.mem_map.1 hmem
    rw [← h.inj q p (hlive q hq) hp (he.trans hd.symm)] at hm
    exact hm hq

/-- An object that is deleted is in no node. -/
theorem Distinct.count_map_freed (h : Distinct s) {nodes : List Ptr} {d : Obj} (hlive : ∀ q ∈ nodes, s.live q)
    (hd : some d ∈ s.freed.map Freed.data) : (nodes.map s.data).count (some d) = 0 := by
  rw [List.count_eq_zero]
  intro hmem
  obtain ⟨q, hq, he⟩ := List.mem_map.1 hmem
  have hq' := h.apart q (hlive q hq)
  rw [he] at hq'
  exact hq' hd

def Holder.nodes (s : State Tid Obj) (list : List Ptr) (drop : Tid → List Ptr) : Holder Tid → List Ptr
  | .list => list
  | .detached t => drop t
  | .retire t => (s.pc t).mine?.toList
  | .deleter => []

def Place.holder : Place Tid → Holder Tid
  | .list => .list
  | .dropped t => .detached t
  | .mine t => .retire t

omit [DecidableEq Obj] in
theorem mem_nodes {w : Holder Tid} {p : Ptr} : p ∈ w.nodes s list drop ↔ ∃ pl, At s list drop p pl ∧ pl.holder = w := by
  constructor
  · intro hp
    cases w with
    | list => exact ⟨.list, hp, rfl⟩
    | detached t => exact ⟨.dropped t, hp, rfl⟩
    | retire t => exact ⟨.mine t, Option.mem_toList.1 hp, rfl⟩
    | deleter => cases hp
  · rintro ⟨pl, hpl, rfl⟩
    cases pl with
    | list => exact hpl
    | dropped t => exact hpl
    | mine t => exact Option.mem_toList.2 hpl

omit [DecidableEq Obj] in
theorem Kept.nodup (h : Kept s list drop) (w : Holder Tid) : (w.nodes s list drop).Nodup := by
  cases w with
  | list => exact h.linked.nodup
  | detached t => exact (h.dropped t).nodup
  | retire t => exact Option.toList_nodup _
  | deleter => exact List.nodup_nil

theorem held_of_ne_deleter {w : Holder Tid} (hw : w ≠ .deleter) (d : Obj) :
    held s list drop d w = ((w.nodes s list drop).map s.data).count (some d) := by
  cases w with
  | deleter => exact absurd rfl hw
  | _ => rfl

theorem Kept.held_once (h : Kept s list drop) (hd : Distinct s) {d : Obj} (hr : s.Retired d) :
    ∃ w, held s list drop d w = 1 ∧ ∀ w' ≠ w, held s list drop d w' = 0 := by
  have hlive : ∀ w : Holder Tid, ∀ q ∈ w.nodes s list drop, s.live q := by
    intro w q hq
    obtain ⟨pl, hpl, -⟩ := mem_nodes.1 hq
    exact h.place.mem q pl hpl
  by_cases hf : some d ∈ s.freed.map Freed.data
  · refine ⟨.deleter, List.count_eq_one_of_mem hd.freed hf, fun w hw => ?_⟩
    rw [held_of_ne_deleter hw]
    exact hd.count_map_freed (hlive w) hf
  · obtain ⟨p, hp, hpd⟩ : ∃ p, s.live p ∧ s.data p = some d := by
      refine hr.resolve_right fun ⟨f, hfm, hfd⟩ => hf ?_
      rw [← hfd]
      exact List.mem_map_of_mem hfm
    obtain ⟨pl, hpl⟩ := h.place.exists_place p hp
    have hcount : ∀ w : Holder Tid, w ≠ .deleter → held s list drop d w = if p ∈ w.nodes s list drop then 1 else 0 := by
      intro w hw
      rw [held_of_ne_deleter hw]
      exact hd.count_map (h.nodup w) (hlive w) hp hpd
    have hne : pl.holder ≠ .deleter := by cases pl <;> nofun
    refine ⟨pl.holder, ?_, fun w hw => ?_⟩
    · rw [hcount _ hne, if_pos (mem_nodes.2 ⟨pl, hpl, rfl⟩)]
    · by_cases hdel : w = .deleter
      · rw [hdel]
        exact List.count_eq_zero.2 hf
      · rw [hcount w hdel, if_neg]
        intro hm
        obtain ⟨pl', hpl', he⟩ := mem_nodes.1 hm
        rw [h.place.unique p pl' pl hpl' hpl] at he
        exact hw he.symm

variable [DecidableEq Tid]

omit [DecidableEq Obj] in
/-- A step that makes no node retires nothing. -/
theorem OnceStep.of_live (h : AnyStep t s s') (hl : ∀ p, s'.live p → s.live p) : OnceStep s s' :=
  ⟨t, h, fun p _ hp hp' _ _ => hp (hl p hp')⟩

omit [DecidableEq Obj] in
theorem OnceStep.gcLoad (now : Nat) (after : Option Ptr) (ht : s.pc t = .gcLoad now after) :
    OnceStep s (if expire s.head (BitVec.ofNat 16 now) then s.setPc t (.gcCas now after s.head)
        else s.finishGc t now after) := by
  refine .of_live (t := t) (.step _ _ 0 (.gcLoad s now after ht)) fun p hp => ?_
  split at hp
  · exact hp
  · rwa [(finishGc_frame s t now after).1] at hp

omit [DecidableEq Obj] in
theorem kept_of_reachable (h : Reachable (Init 0) OnceStep s) : (∃ list drop, Kept s list drop) ∧ Distinct s := by
  apply h.invariant
  · intro s hi
    refine ⟨⟨[], fun _ => [], Kept.init hi⟩, ?_⟩
    constructor
    · intro p hp
      exact absurd hp (hi.live p)
    · intro p q hp
      exact absurd hp (hi.live p)
    · rw [hi.freed]
      exact List.nodup_nil
    · intro p hp
      exact absurd hp (hi.live p)
  · rintro s s' - ⟨⟨list, drop, hk⟩, hd⟩ ⟨t, hs, honce⟩
    exact ⟨hk.anyStep hs, hd.anyStep hk hs honce⟩

/-- An object that has been retired is with one holder, once, from then on. The lists are
those that are reachable from the head and from what each thread has detached. -/
theorem retired_once (h : Reachable (Init 0) OnceStep s) (hs : Relation.ReflTransGen OnceStep s s') :
    ∃ list drop, Segment s'.next (getPtr s'.head) list none ∧
      (∀ t, Segment s'.next (s'.pc t).dropped? (drop t) none) ∧
      ∀ d, s.Retired d → ∃ w, held s' list drop d w = 1 ∧ ∀ w' ≠ w, held s' list drop d w' = 0 := by
  have h' : Reachable (Init 0) OnceStep s' := by
    obtain ⟨s₀, hi, hr⟩ := h
    exact ⟨s₀, hi, hr.trans hs⟩
  obtain ⟨⟨list, drop, hk⟩, hd⟩ := kept_of_reachable h'
  exact ⟨list, drop, hk.linked, hk.dropped, fun d hr => hk.held_once hd (hr.later hs)⟩

/-- An object is retired and pushed. Three units later another one is retired, and that call drops
the first. -/
theorem exists_dropped : ∃ s s' : State Bool Nat, Reachable (Init 0) OnceStep s ∧ Relation.ReflTransGen OnceStep s s' ∧
    s.Retired 0 ∧ s'.freed = [⟨some 0, 0, 3⟩] ∧ (getPtr s'.head).bind s'.data = some 1 := by
  have hinit : Init 0 (⟨0, fun _ => none, fun _ => none, fun _ => False, fun _ => 0, 0, fun _ => .idle, []⟩ :
      State Bool Nat) :=
    ⟨rfl, fun _ => id, rfl, fun _ => rfl, rfl⟩
  have h₀ : Reachable (Init 0) OnceStep _ := Reachable.of_init hinit
  have h₁ := h₀.tail ⟨false, .step _ _ 0 (.retire _ 1 0 rfl id (by decide) (by decide)), fun _ _ _ _ _ hr => by
    rcases hr with ⟨_, hp, -⟩ | ⟨_, hf, -⟩
    · exact hp
    · cases hf⟩
  have start : ∀ {s : State Bool Nat}, Reachable (Init 0) OnceStep s → Relation.ReflTransGen OnceStep s s :=
    fun _ => .refl
  have r₁ := (start h₁).tail (.gcLoad (t := false) 0 (some 1) rfl)
  rw [if_neg (by decide)] at r₁
  have r₂ := (r₁.tail (.of_live (t := false) (.step _ _ 0 (.pushLoad _ 0 1 rfl)) fun _ => id)).tail
    (.of_live (t := false) (.step _ _ 0 (.pushLink _ 0 1 0 rfl)) fun _ => id)
  have r₃ := (r₂.tail (.of_live (t := false) (.step _ _ 0 (.pushCasOk _ 0 1 0 rfl rfl)) fun _ => id)).tail
    (.of_live (t := true) (.setClock _ 3) fun _ => id)
  have r₄ := r₃.tail ⟨true, .step _ _ 0 (.retire _ 2 1 rfl (by rintro (h | h) <;> cases h) (by decide) (by decide)),
    fun p d hp hp' hd hr => by
      have hd' : d = 1 := by
        rcases hp' with rfl | h
        · cases hd
          rfl
        · exact absurd h hp
      rw [hd'] at hr
      rcases hr with ⟨q, rfl | h, hq⟩ | ⟨f, hf, -⟩
      · cases hq
      · exact h
      · cases hf⟩
  have r₅ := r₄.tail (.gcLoad (t := true) 3 (some 2) rfl)
  rw [if_pos (by decide)] at r₅
  have r₆ := (r₅.tail (.of_live (t := true) (.step _ _ 0 (.gcCasOk _ 3 (some 2) _ rfl rfl)) fun _ => id)).tail
    (.of_live (t := true) (.step _ _ 0 (.delete _ 3 (some 2) 1 rfl)) fun _ => And.right)
  have r₇ := (r₆.tail (.of_live (t := true) (.step _ _ 0 (.pushLoad _ 3 2 rfl)) fun _ => id)).tail
    (.of_live (t := true) (.step _ _ 0 (.pushLink _ 3 2 0 rfl)) fun _ => id)
  have r₈ := r₇.tail (.of_live (t := true) (.step _ _ 0 (.pushCasOk _ 3 2 0 rfl rfl)) fun _ => id)
  exact ⟨_, _, h₁, r₈, .inl ⟨1, .inl rfl, rfl⟩, rfl, rfl⟩

theorem retired_once_dropped : ∃ s s' : State Bool Nat, Reachable (Init 0) OnceStep s ∧
    Relation.ReflTransGen OnceStep s s' ∧ s.Retired 0 ∧ s'.freed = [⟨some 0, 0, 3⟩] ∧
    (getPtr s'.head).bind s'.data = some 1 ∧ ∃ list drop, Segment s'.next (getPtr s'.head) list none ∧
      (∀ t, Segment s'.next (s'.pc t).dropped? (drop t) none) ∧
      ∃ w, held s' list drop 0 w = 1 ∧ ∀ w' ≠ w, held s' list drop 0 w' = 0 := by
  obtain ⟨s, s', h, hs, hr, hfreed, hhead⟩ := exists_dropped
  obtain ⟨list, drop, hlist, hdrop, hheld⟩ := retired_once h hs
  exact ⟨s, s', h, hs, hr, hfreed, hhead, list, drop, hlist, hdrop, hheld 0 hr⟩

end Runs

end Wizard.RetireList
