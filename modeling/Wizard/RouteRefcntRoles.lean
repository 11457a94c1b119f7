import Wizard.RefCounts
import Wizard.RouteRefcnt

/-! Who refers to the entries of `route_refcnt.c`: the list, a `route_clear` that has taken them
off it, and the calls. -/

namespace Wizard.RouteRefcnt

open RouteTable

/-- What a thread has: the entry that it holds a reference to, the one that it is to free and
whether it has set its `re_freed`, the one that it has made and not linked, the first of those
that it has taken off the list and not dropped, and whether it is between the lock and the unlock. -/
structure Role where
  held : Option Nat
  freeing : Option Nat
  flagged : Option Nat
  adding : Option Nat
  chain : Option Nat
  inside : Bool

def Role.none : Role := ⟨.none, .none, .none, .none, .none, false⟩

def After.chain : After → Option Nat
  | .clear rep1 => rep1
  | _ => none

def After.inside : After → Bool
  | .clear _ => true
  | _ => false

def Pc.role : Pc → Role
  | .compare _ a | .iface _ a => { Role.none with held := some a }
  | .put a k => { Role.none with held := some a, chain := k.chain, inside := k.inside }
  | .flag a k => { Role.none with freeing := some a, chain := k.chain, inside := k.inside }
  | .free a k => { Role.none with freeing := some a, flagged := some a, chain := k.chain, inside := k.inside }
  | .add a => { Role.none with held := some a, adding := some a }
  | .link a | .reset a | .publish a => { Role.none with held := some a, adding := some a, inside := true }
  | .scan _ _ | .test _ _ _ | .skip _ _ | .take | .empty _ => { Role.none with inside := true }
  | .clearNext a => { Role.none with chain := some a, inside := true }
  | .unlock rep => { Role.none with held := rep, inside := true }
  | _ => Role.none

theorem role_pc (k : After) : k.pc.role = { Role.none with chain := k.chain, inside := k.inside } := by
  match k with
  | .next _ _ | .done _ _ | .del | .clear none | .clear (some _) => rfl

variable {Tid : Type*}

namespace State

variable (s : State Tid)

def route (a : Nat) : Route := ⟨s.addr a, s.iface a⟩

def count (a : Nat) : Nat := (s.refcnt a).toNat

def held (t : Tid) : Option Nat := (s.pc t).role.held

def freeing (t : Tid) : Option Nat := (s.pc t).role.freeing

def flagged (t : Tid) : Option Nat := (s.pc t).role.flagged

def adding (t : Tid) : Option Nat := (s.pc t).role.adding

/-- The first entry that a `route_clear` has taken off the list and not dropped. -/
def chain : Option Nat := s.lock.bind fun t => (s.pc t).role.chain

end State

/-- None of the entries is for the address. -/
def Differ (s : State Tid) (addr : BitVec 64) (front : List Nat) : Prop := ∀ x ∈ front, s.addr x ≠ addr

def Pc.Ok (s : State Tid) (l : List Nat) : Pc → Prop
  | .cas _ _ old => 0 < old.toInt
  | .reset a => way s.next a = s.next .routeList
  | .publish a => way s.next a = s.next .routeList ∧ s.reFreed a = false
  | .scan addr repp => ∃ front back, l = front ++ back ∧ repp.After front ∧ Differ s addr front
  | .test addr repp a => ∃ front back, l = front ++ a :: back ∧ repp.After front ∧ Differ s addr front
  | .skip repp a => ∃ front back, l = front ++ a :: back ∧ repp.After front ∧ Differ s (s.addr a) front
  | .empty rep => rep = s.next .routeList
  | _ => True

structure Pc.Good (s : State Tid) (l : List Nat) (p : Pc) : Prop where
  held : ∀ a, p.role.held = some a → s.stage a = .linked ∨ p.role.adding = some a
  freeing : ∀ a, p.role.freeing = some a → s.stage a = .linked
  ok : p.Ok s l

/-- The entries `l` are on the list, and `junk` are those that a `route_clear` has taken off it
and not dropped. -/
structure Inv [Fintype Tid] (s : State Tid) (l junk : List Nat) : Prop where
  list : Linked s.next l
  chain : Segment (way s.next) s.chain junk none
  nodup : (l ++ junk).Nodup
  linked : ∀ a ∈ l ++ junk, s.stage a = .linked
  table : s.table = l.map s.route
  locked : ∀ t, (s.pc t).role.inside = true → s.lock = some t
  counted : RefCounted (fun a => s.stage a ≠ .free) s.count (l ++ junk) s.held s.freeing
  adding : Owned (fun a => s.stage a = .adding) (fun _ => False) s.adding
  flag : ∀ a, s.stage a = .linked → s.reFreed a = true → ∃ t, s.flagged t = some a
  pcs : ∀ t, (s.pc t).Good s l

section Roles

variable [DecidableEq Tid] (s : State Tid) (t : Tid) (p : Pc)

theorem setPc_self : (s.setPc t p).pc t = p := Function.update_self ..

theorem setPc_of_ne {u : Tid} (hu : u ≠ t) : (s.setPc t p).pc u = s.pc u := Function.update_of_ne hu _ _

theorem held_setPc : (s.setPc t p).held = Function.update s.held t p.role.held :=
  Function.comp_update (fun p : Pc => p.role.held) s.pc t p

theorem freeing_setPc : (s.setPc t p).freeing = Function.update s.freeing t p.role.freeing :=
  Function.comp_update (fun p : Pc => p.role.freeing) s.pc t p

theorem flagged_setPc : (s.setPc t p).flagged = Function.update s.flagged t p.role.flagged :=
  Function.comp_update (fun p : Pc => p.role.flagged) s.pc t p

theorem adding_setPc : (s.setPc t p).adding = Function.update s.adding t p.role.adding :=
  Function.comp_update (fun p : Pc => p.role.adding) s.pc t p

theorem chain_setPc (h : s.lock = some t) : (s.setPc t p).chain = p.role.chain := by
  change s.lock.bind _ = _
  rw [h]
  exact congrArg (fun p : Pc => p.role.chain) (Function.update_self ..)

theorem chain_setPc_same (h : p.role.chain = (s.pc t).role.chain) : (s.setPc t p).chain = s.chain := by
  refine congrArg (s.lock.bind ·) (funext fun u => ?_)
  by_cases hu : u = t
  · rw [hu]
    exact (congrArg (fun p : Pc => p.role.chain) (setPc_self s t p)).trans h
  · exact congrArg (fun p : Pc => p.role.chain) (setPc_of_ne s t p hu)

end Roles

variable [Fintype Tid] {s s' : State Tid} {l junk front back : List Nat} {t u : Tid} {p : Pc} {a b : Nat} {repp : Link}
  {rep : Option Nat}

section Good

omit [Fintype Tid]

theorem Pc.Good.of_none (hh : p.role.held = none) (hf : p.role.freeing = none) (hok : p.Ok s l) : p.Good s l := by
  refine ⟨fun b hb => ?_, fun b hb => ?_, hok⟩
  · cases hh.symm.trans hb
  · cases hf.symm.trans hb

theorem Pc.Good.of_held (hh : p.role.held = some a) (ha : s.stage a = .linked) (hf : p.role.freeing = none)
    (hok : p.Ok s l) : p.Good s l := by
  refine ⟨fun b hb => ?_, fun b hb => ?_, hok⟩
  · cases hh.symm.trans hb
    exact .inl ha
  · cases hf.symm.trans hb

theorem Pc.Good.of_freeing (hf : p.role.freeing = some a) (ha : s.stage a = .linked) (hh : p.role.held = none)
    (hok : p.Ok s l) : p.Good s l := by
  refine ⟨fun b hb => ?_, fun b hb => ?_, hok⟩
  · cases hh.symm.trans hb
  · cases hf.symm.trans hb
    exact ha

theorem After.good_pc (k : After) : k.pc.Good s l := by
  refine .of_none (by rw [role_pc]; rfl) (by rw [role_pc]; rfl) ?_
  match k with
  | .next _ _ | .done _ _ | .del | .clear none | .clear (some _) => exact trivial

end Good

theorem Inv.of_init (h : Init s) : Inv s [] [] := by
  have hrole : ∀ t, (s.pc t).role = Role.none := fun t => by rw [h.pc t]; rfl
  have hheld : ∀ t, s.held t = none := fun t => congrArg Role.held (hrole t)
  constructor
  case list => exact h.next
  case chain =>
    rw [State.chain, h.lock]
    rfl
  case nodup => exact List.nodup_nil
  case linked => simp
  case table => exact h.table
  case locked =>
    intro t ht
    rw [hrole t] at ht
    cases ht
  case counted =>
    refine ⟨fun a ha => absurd (h.stage a) ha, .of_none (fun a => ?_) fun t => congrArg Role.freeing (hrole t)⟩
    rw [refs_of_none hheld]
    simp [h.stage a]
  case adding => exact .of_none (fun a => by simp [h.stage a]) fun t => congrArg Role.adding (hrole t)
  case flag =>
    intro a ha
    rw [h.stage a] at ha
    cases ha
  case pcs =>
    intro t
    rw [h.pc t]
    exact .of_none rfl rfl trivial

section Facts

variable (hi : Inv s l junk)
include hi

theorem Inv.notMem (ha : s.stage a ≠ .linked) : a ∉ l ++ junk := fun hm => ha (hi.linked a hm)

theorem Inv.inside_unique (ht : (s.pc t).role.inside = true) (hu : (s.pc u).role.inside = true) : u = t :=
  Option.some.inj ((hi.locked u hu).symm.trans (hi.locked t ht))

theorem Inv.adding_stage (ht : s.adding t = some a) : s.stage a = .adding := hi.adding.mem_own t a ht

theorem Inv.linked_of_held (ht : s.held t = some a) (hadd : s.adding t = none) : s.stage a = .linked := by
  rcases (hi.pcs t).held a ht with h | h
  · exact h
  · cases hadd.symm.trans h

end Facts

omit [Fintype Tid] in
theorem linked_of_setStage {x : Stage} (hx : x ≠ .linked) (hb : (s.setStage a x).stage b = .linked) :
    b ≠ a ∧ s.stage b = .linked := by
  change Function.update s.stage a x b = .linked at hb
  by_cases hba : b = a
  · rw [hba, Function.update_self] at hb
    exact absurd hb hx
  · rw [Function.update_of_ne hba] at hb
    exact ⟨hba, hb⟩

section Moves

variable [DecidableEq Tid]

/-- A thread does not come between the lock and the unlock. -/
theorem Inv.locked_setPc (hi : Inv s l junk) (hin : p.role.inside = true → (s.pc t).role.inside = true) (u : Tid)
    (hu : ((s.setPc t p).pc u).role.inside = true) : s.lock = some u := by
  by_cases hut : u = t
  · rw [hut, setPc_self] at hu
    rw [hut]
    exact hi.locked t (hin hu)
  · rw [setPc_of_ne s t p hut] at hu
    exact hi.locked u hu

/-- A thread goes on with the same references, and may take the lock or release it. -/
theorem Inv.relock (hi : Inv s l junk) (lock : Option Tid) (hh : p.role.held = s.held t)
    (hf : p.role.freeing = s.freeing t) (hg : p.role.flagged = s.flagged t) (ha : p.role.adding = s.adding t)
    (hc : ({ s with lock := lock }.setPc t p).chain = s.chain)
    (hl : ∀ u, ((s.setPc t p).pc u).role.inside = true → lock = some u) (hok : p.Ok s l) :
    Inv ({ s with lock := lock }.setPc t p) l junk := by
  have hheld : ({ s with lock := lock }.setPc t p).held = s.held :=
    (held_setPc _ t p).trans (Function.update_eq_self_iff.2 hh)
  have hfreeing : ({ s with lock := lock }.setPc t p).freeing = s.freeing :=
    (freeing_setPc _ t p).trans (Function.update_eq_self_iff.2 hf)
  have hflagged : ({ s with lock := lock }.setPc t p).flagged = s.flagged :=
    (flagged_setPc _ t p).trans (Function.update_eq_self_iff.2 hg)
  have hadding : ({ s with lock := lock }.setPc t p).adding = s.adding :=
    (adding_setPc _ t p).trans (Function.update_eq_self_iff.2 ha)
  have hgood : ∀ {q : Pc}, q.Good s l → q.Good ({ s with lock := lock }.setPc t p) l := fun h =>
    ⟨h.held, h.freeing, h.ok⟩
  have hpcs := hi.pcs t
  constructor
  case list => exact hi.list
  case chain =>
    rw [hc]
    exact hi.chain
  case nodup => exact hi.nodup
  case linked => exact hi.linked
  case table => exact hi.table
  case locked => exact hl
  case counted =>
    rw [hheld, hfreeing]
    exact hi.counted
  case adding =>
    rw [hadding]
    exact hi.adding
  case flag =>
    rw [hflagged]
    exact hi.flag
  case pcs =>
    refine (Function.forall_update_iff s.pc fun _ q => q.Good _ l).2 ⟨hgood ⟨?_, ?_, hok⟩, fun u _ => hgood (hi.pcs u)⟩
    · rw [hh, ha]
      exact hpcs.held
    · rw [hf]
      exact hpcs.freeing

theorem Inv.goOn (hi : Inv s l junk) (hr : p.role = (s.pc t).role) (hok : p.Ok s l) : Inv (s.setPc t p) l junk := by
  refine hi.relock s.lock ?_ ?_ ?_ ?_ ?_ ?_ hok
  · exact congrArg Role.held hr
  · exact congrArg Role.freeing hr
  · exact congrArg Role.flagged hr
  · exact congrArg Role.adding hr
  · exact chain_setPc_same s t p (congrArg Role.chain hr)
  · exact hi.locked_setPc fun hin => by rwa [← hr]

omit [DecidableEq Tid] in
theorem Inv.outside (hi : Inv s l junk) (ht : (s.pc t).role.inside = true) (hu : u ≠ t) :
    (s.pc u).role.inside = false := by
  by_contra h
  exact hu (hi.inside_unique ht (by simpa using h))

omit [DecidableEq Tid] [Fintype Tid] in
/-- Outside of the lock nothing is known of the list. -/
theorem Pc.Good.mono {l' : List Nat} (h : p.Good s l) (hin : p.role.inside = false)
    (hst : ∀ a, p.role.held = some a ∨ p.role.freeing = some a → s.stage a = .linked → s'.stage a = .linked) :
    p.Good s' l' := by
  refine ⟨fun a ha => (h.held a ha).imp_left (hst a (.inl ha)), fun a ha => hst a (.inr ha) (h.freeing a ha), ?_⟩
  have hok := h.ok
  cases p with
  | cas addr rep old => exact hok
  | reset | publish | scan | test | skip | empty => cases hin
  | _ => exact trivial

/-- The step concerns the fields of an entry that is not linked. -/
structure Aside (s s' : State Tid) (a : Nat) : Prop where
  off : s.stage a ≠ .linked
  way : ∀ b, b ≠ a → way s'.next b = way s.next b
  head : s'.next .routeList = s.next .routeList
  route : ∀ b, b ≠ a → s'.route b = s.route b
  count : ∀ b, s.stage b ≠ .free → s'.count b = s.count b
  flag : ∀ b, b ≠ a → s'.reFreed b = s.reFreed b
  stage : s'.stage = s.stage
  lock : s'.lock = s.lock
  pc : s'.pc = s.pc
  table : s'.table = s.table

namespace Aside

variable (h : Aside s s' a)
include h

omit [Fintype Tid] [DecidableEq Tid] in
theorem ne (hb : s.stage b = .linked) : b ≠ a := by
  rintro rfl
  exact h.off hb

omit [Fintype Tid] [DecidableEq Tid] in
theorem differ {addr : BitVec 64} (hst : ∀ b ∈ front, s.stage b = .linked) (hd : Differ s addr front) :
    Differ s' addr front := by
  intro x hx
  rw [show s'.addr x = s.addr x from congrArg Route.addr (h.route x (h.ne (hst x hx)))]
  exact hd x hx

omit [Fintype Tid] [DecidableEq Tid] in
theorem ok (hst : ∀ b ∈ l, s.stage b = .linked) (hp : p.role.adding ≠ some a) (hok : p.Ok s l) : p.Ok s' l := by
  cases p with
  | cas addr rep old => exact hok
  | reset b =>
    have hb : b ≠ a := fun hb => hp (congrArg some hb)
    exact (h.way b hb).trans (hok.trans h.head.symm)
  | publish b =>
    have hb : b ≠ a := fun hb => hp (congrArg some hb)
    exact ⟨(h.way b hb).trans (hok.1.trans h.head.symm), (h.flag b hb).trans hok.2⟩
  | scan addr repp =>
    obtain ⟨front, back, rfl, hf, hd⟩ := hok
    exact ⟨front, back, rfl, hf, h.differ (fun b hb => hst b (List.mem_append_left _ hb)) hd⟩
  | test addr repp b =>
    obtain ⟨front, back, rfl, hf, hd⟩ := hok
    exact ⟨front, back, rfl, hf, h.differ (fun b hb => hst b (List.mem_append_left _ hb)) hd⟩
  | skip repp b =>
    obtain ⟨front, back, rfl, hf, hd⟩ := hok
    refine ⟨front, back, rfl, hf, ?_⟩
    rw [show s'.addr b = s.addr b from congrArg Route.addr (h.route b (h.ne (hst b (by simp))))]
    exact h.differ (fun b hb => hst b (List.mem_append_left _ hb)) hd
  | empty rep => exact hok.trans h.head.symm
  | _ => exact trivial

omit [DecidableEq Tid] in
theorem inv (hi : Inv s l junk) (hok : ∀ t, s.adding t = some a → (s.pc t).Ok s' l) : Inv s' l junk := by
  have hlist : ∀ b ∈ l, s.stage b = .linked := fun b hb => hi.linked b (List.mem_append_left _ hb)
  have hrole : ∀ t, (s'.pc t).role = (s.pc t).role := fun t => by rw [h.pc]
  have hheld : s'.held = s.held := funext fun t => congrArg Role.held (hrole t)
  have hfreeing : s'.freeing = s.freeing := funext fun t => congrArg Role.freeing (hrole t)
  have hflagged : s'.flagged = s.flagged := funext fun t => congrArg Role.flagged (hrole t)
  have hadding : s'.adding = s.adding := funext fun t => congrArg Role.adding (hrole t)
  have hchain : s'.chain = s.chain := by rw [State.chain, State.chain, h.lock, h.pc]
  constructor
  case list => exact hi.list.congr h.head fun b hb => h.way b (h.ne (hlist b hb))
  case chain =>
    rw [hchain]
    exact hi.chain.congr fun b hb => h.way b (h.ne (hi.linked b (List.mem_append_right _ hb)))
  case nodup => exact hi.nodup
  case linked =>
    rw [h.stage]
    exact hi.linked
  case table =>
    rw [h.table, hi.table]
    exact (List.map_congr_left fun b hb => h.route b (h.ne (hlist b hb))).symm
  case locked =>
    intro t ht
    rw [hrole t] at ht
    rw [h.lock]
    exact hi.locked t ht
  case counted =>
    rw [h.stage, hheld, hfreeing]
    exact hi.counted.recount fun b hb => h.count b hb
  case adding =>
    rw [h.stage, hadding]
    exact hi.adding
  case flag =>
    intro b hb hf
    rw [h.stage] at hb
    rw [h.flag b (h.ne hb)] at hf
    rw [hflagged]
    exact hi.flag b hb hf
  case pcs =>
    intro t
    have hg := hi.pcs t
    rw [h.pc]
    refine ⟨?_, ?_, ?_⟩
    · rw [h.stage]
      exact hg.held
    · rw [h.stage]
      exact hg.freeing
    · by_cases ha : s.adding t = some a
      · exact hok t ha
      · exact h.ok hlist ha hg.ok

end Aside

end Moves

end Wizard.RouteRefcnt
