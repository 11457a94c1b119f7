import Wizard.RouteSeqlock

/-! What holds in every state of `route_seqlock.c`. The writers keep the list in order, and a
lookup knows where it is on the list for as long as no writer has come in. -/

namespace Wizard.RouteSeqlock

open RouteTable

variable {W : Type*}

def State.way (s : State W) (a : Nat) : Option Nat := s.next (.entry a)

def State.route (s : State W) (a : Nat) : Route := ⟨s.addr a, s.iface a⟩

section Links

variable (s : State W) (a : Nat) (rep : Option Nat)

@[simp] theorem way_setNext_routeList : (s.setNext .routeList rep).way = s.way := way_update_routeList s.next rep

@[simp] theorem way_setNext_entry : (s.setNext (.entry a) rep).way = Function.update s.way a rep :=
  way_update_entry s.next a rep

@[simp] theorem setNext_self (repp : Link) : (s.setNext repp rep).next repp = rep := Function.update_self ..

@[simp] theorem setNext_entry_routeList : (s.setNext (.entry a) rep).next .routeList = s.next .routeList :=
  update_entry_routeList s.next a rep

end Links

/-- None of the entries is for the address. -/
def Differ (s : State W) (addr : BitVec 64) (front : List Nat) : Prop := ∀ x ∈ front, s.addr x ≠ addr

section Conditions

variable (s : State W) (l : List Nat)

def Section.Ok : Section → Prop
  | .link a => s.stage a = .adding
  | .publish a => s.stage a = .adding ∧ s.next (.entry a) = s.next .routeList
  | .scan addr repp => ∃ front back, l = front ++ back ∧ repp.After front ∧ Differ s addr front
  | .test addr repp a => ∃ front back, l = front ++ a :: back ∧ repp.After front ∧ Differ s addr front
  | .skip repp a => ∃ front back, l = front ++ a :: back ∧ repp.After front ∧ Differ s (s.addr a) front
  | .clear => True
  | .empty rep => rep = s.next .routeList
  | .clearNext a => l = [] ∧ ∃ junk, Segment s.way (some a) junk none ∧ ∀ x ∈ junk, s.stage x = .linked
  | .clearFree a rep1 => l = [] ∧ s.stage a = .linked ∧
      ∃ junk, Segment s.way rep1 junk none ∧ a ∉ junk ∧ ∀ x ∈ junk, s.stage x = .linked
  | .unlock none => True
  | .unlock (some a) => s.stage a = .linked ∧ a ∉ l

def Reader.Knows : Reader W → Prop
  | .load addr _ repp => ∃ front back, l = front ++ back ∧ repp.After front ∧ Differ s addr front
  | .compare addr _ a => ∃ front back, l = front ++ a :: back ∧ Differ s addr front
  | .check addr _ a | .read addr _ a => ∃ front back, l = front ++ a :: back ∧ Differ s addr front ∧ s.addr a = addr
  | .verify addr _ ret => answer s.table addr = ret
  | _ => True

end Conditions

/-- What the lookup got from `read_seqbegin`. -/
def Reader.began? : Reader W → Option W
  | .load _ w _ | .compare _ w _ | .check _ w _ | .read _ w _ | .verify _ w _ => some w
  | _ => none

section Began

variable (addr ret : BitVec 64) (w : W) (a : Nat)

@[simp] theorem began?_idle : (Reader.idle : Reader W).began? = none := rfl

@[simp] theorem began?_retry : (Reader.retry addr : Reader W).began? = none := rfl

@[simp] theorem began?_load (repp : Link) : (Reader.load addr w repp).began? = some w := rfl

@[simp] theorem began?_compare : (Reader.compare addr w a).began? = some w := rfl

@[simp] theorem began?_check : (Reader.check addr w a).began? = some w := rfl

@[simp] theorem began?_read : (Reader.read addr w a).began? = some w := rfl

@[simp] theorem began?_verify : (Reader.verify addr w ret).began? = some w := rfl

@[simp] theorem began?_returned : (Reader.returned addr ret : Reader W).began? = none := rfl

@[simp] theorem began?_aborted : (Reader.aborted : Reader W).began? = none := rfl

end Began

structure Inv (sl : SeqLock W) (s : State W) (l : List Nat) : Prop where
  list : Segment s.way (s.next .routeList) l none
  linked : ∀ a ∈ l, s.stage a = .linked
  flag : ∀ a, s.reFreed a = true → s.stage a = .free ∨ s.stage a = .freeing
  table : s.table = l.map s.route
  idle : s.writer = none ↔ s.seq % 2 = 0
  writer : ∀ sec, s.writer = some sec → sec.Ok s l
  reader : ∀ t w, (s.reader t).began? = some w → sl.Since w s.seq ((s.reader t).Knows s l)

variable {sl : SeqLock W} {s s' : State W} {l l' front back : List Nat} {a : Nat} {repp : Link}

theorem Inv.of_init (h : Init s) : Inv sl s [] where
  list := h.next
  linked := by simp
  flag a _ := .inl (h.stage a)
  table := h.table
  idle := by simp [h.writer, h.seq]
  writer := by simp [h.writer]
  reader t w := by simp [h.reader t]

/-- What a link behind a front part of the list holds. -/
theorem Inv.next_eq (hi : Inv sl s (front ++ back)) (h : repp.After front) : s.next repp = back.head? :=
  Linked.next_eq hi.list h

theorem routes_congr (h : ∀ a ∈ l, s'.route a = s.route a) : l.map s'.route = l.map s.route := List.map_congr_left h

section Steps

variable (hi : Inv sl s l)
include hi

theorem Inv.setReader {t : Nat} {r : Reader W} (hr : ∀ w, r.began? = some w → sl.Since w s.seq (r.Knows s l)) :
    Inv sl (s.setReader t r) l := by
  refine ⟨hi.list, hi.linked, hi.flag, hi.table, hi.idle, hi.writer, fun u w hu => ?_⟩
  change (Function.update s.reader t r u).began? = some w at hu
  change sl.Since w s.seq ((Function.update s.reader t r u).Knows s l)
  by_cases hut : u = t
  · rw [hut, Function.update_self] at hu ⊢
    exact hr w hu
  · rw [Function.update_of_ne hut] at hu ⊢
    exact hi.reader u w hu

/-- The lookup goes on and knows more. -/
theorem Inv.goOn {t : Nat} {r : Reader W} (hb : ∀ w, r.began? = some w → (s.reader t).began? = some w)
    (hk : s.seq % 2 = 0 → (s.reader t).Knows s l → r.Knows s l) : Inv sl (s.setReader t r) l := by
  refine hi.setReader fun w hw => ?_
  exact (hi.reader t w (hb w hw)).step (Nat.le_refl _) fun _ hev h => hk hev h

theorem Inv.load {t : Nat} {addr : BitVec 64} {w : W} (h : s.reader t = .load addr w repp) (hn : s.next repp = some a) :
    Inv sl (s.setReader t (.compare addr w a)) l := by
  refine hi.goOn (by simp [h]) fun _ hk => ?_
  rw [h] at hk
  obtain ⟨front, back, rfl, hf, hd⟩ := hk
  rw [hi.next_eq hf] at hn
  cases back with
  | nil => cases hn
  | cons b back =>
    cases hn
    exact ⟨front, back, rfl, hd⟩

theorem Inv.loadNull {t : Nat} {addr : BitVec 64} {w : W} (h : s.reader t = .load addr w repp)
    (hn : s.next repp = none) :
    Inv sl (s.setReader t (.verify addr w ulongMax)) l := by
  refine hi.goOn (by simp [h]) fun _ hk => ?_
  rw [h] at hk
  obtain ⟨front, back, rfl, hf, hd⟩ := hk
  rw [hi.next_eq hf] at hn
  cases back with
  | cons b back => cases hn
  | nil =>
    change answer s.table addr = ulongMax
    rw [hi.table, List.map_append, answer_append_of_ne]
    · rfl
    · intro r hr
      obtain ⟨x, hx, rfl⟩ := List.mem_map.1 hr
      exact hd x hx

theorem Inv.differ {t : Nat} {addr : BitVec 64} {w : W} (h : s.reader t = .compare addr w a) (hd : s.addr a ≠ addr) :
    Inv sl (s.setReader t (.load addr w (.entry a))) l := by
  refine hi.goOn (by simp [h]) fun _ hk => ?_
  rw [h] at hk
  obtain ⟨front, back, rfl, hf⟩ := hk
  refine ⟨front ++ [a], back, by simp, ⟨front, rfl⟩, fun x hx => ?_⟩
  rcases List.mem_append.1 hx with hx | hx
  · exact hf x hx
  · rwa [List.mem_singleton.1 hx]

theorem Inv.agree {t : Nat} {addr : BitVec 64} {w : W} (h : s.reader t = .compare addr w a) (hd : s.addr a = addr) :
    Inv sl (s.setReader t (.check addr w a)) l := by
  refine hi.goOn (by simp [h]) fun _ hk => ?_
  rw [h] at hk
  obtain ⟨front, back, hl, hf⟩ := hk
  exact ⟨front, back, hl, hf, hd⟩

theorem Inv.checkFreed {t : Nat} {addr : BitVec 64} {w : W} (h : s.reader t = .check addr w a) :
    Inv sl (s.setReader t (if s.reFreed a then .aborted else .read addr w a)) l := by
  split
  · exact hi.setReader (by simp)
  · refine hi.goOn (by simp [h]) fun _ hk => ?_
    rw [h] at hk
    exact hk

theorem Inv.loadIface {t : Nat} {addr : BitVec 64} {w : W} (h : s.reader t = .read addr w a) :
    Inv sl (s.setReader t (.verify addr w (s.iface a))) l := by
  refine hi.goOn (by simp [h]) fun _ hk => ?_
  rw [h] at hk
  obtain ⟨front, back, rfl, hf, ha⟩ := hk
  change answer s.table addr = s.iface a
  rw [hi.table, List.map_append, List.map_cons, answer_append_of_ne, answer_cons_of_eq ha]
  · rfl
  · intro r hr
    obtain ⟨x, hx, rfl⟩ := List.mem_map.1 hr
    exact hf x hx

omit hi in
theorem Differ.congr {addr : BitVec 64} (h : Differ s addr front) (he : ∀ x ∈ front, s'.addr x = s.addr x) :
    Differ s' addr front := by
  intro x hx
  rw [he x hx]
  exact h x hx

/-- A writer has come in, or is in its section: the lookups of before know nothing. -/
theorem Inv.since (hr : s'.reader = s.reader) (hseq : s.seq < s'.seq ∨ s'.seq = s.seq ∧ s.seq % 2 = 1) (t : Nat) (w : W)
    (hw : (s'.reader t).began? = some w) : sl.Since w s'.seq ((s'.reader t).Knows s' l') := by
  rw [hr] at hw ⊢
  refine (hi.reader t w hw).step (by omega) fun he hev => ?_
  omega

theorem Inv.odd {sec : Section} (hw : s.writer = some sec) : s.seq % 2 = 1 := by
  have hne : ¬ s.seq % 2 = 0 := by
    rw [← hi.idle, hw]
    simp
  omega

theorem Inv.lock {sec : Section} (hw : s.writer = none) (hok : sec.Ok (s.lock sec) l) : Inv sl (s.lock sec) l := by
  have hev := hi.idle.1 hw
  refine ⟨hi.list, hi.linked, hi.flag, hi.table, ?_, ?_, hi.since rfl (.inl (Nat.lt_succ_self _))⟩
  · change some sec = none ↔ (s.seq + 1) % 2 = 0
    constructor
    · intro h
      cases h
    · omega
  · intro sec' h
    cases h
    exact hok

theorem Inv.unlock {sec : Section} (hw : s.writer = some sec) : Inv sl s.unlock l := by
  have hodd := hi.odd hw
  refine ⟨hi.list, hi.linked, hi.flag, hi.table, ?_, ?_, hi.since rfl (.inl (Nat.lt_succ_self _))⟩
  · change none = none ↔ (s.seq + 1) % 2 = 0
    constructor
    · omega
    · exact fun _ => rfl
  · intro sec' h
    cases h

/-- A step inside the write section. -/
theorem Inv.inside {sec sec' : Section} (hw : s.writer = some sec) (hw' : s'.writer = some sec')
    (hr : s'.reader = s.reader)
    (hseq : s'.seq = s.seq) (hl : Segment s'.way (s'.next .routeList) l' none) (hst : ∀ b ∈ l', s'.stage b = .linked)
    (hflag : ∀ b, s'.reFreed b = true → s'.stage b = .free ∨ s'.stage b = .freeing) (ht : s'.table = l'.map s'.route)
    (hok : sec'.Ok s' l') : Inv sl s' l' := by
  have hodd := hi.odd hw
  refine ⟨hl, hst, hflag, ht, ?_, ?_, hi.since hr (.inr ⟨hseq, hodd⟩)⟩
  · rw [hw', hseq]
    constructor
    · intro h
      cases h
    · omega
  · intro sec'' h
    cases hw'.symm.trans h
    exact hok

theorem Inv.setWriter {sec sec' : Section} (hw : s.writer = some sec) (hok : sec'.Ok (s.setWriter sec') l) :
    Inv sl (s.setWriter sec') l :=
  hi.inside hw rfl rfl rfl hi.list hi.linked hi.flag hi.table hok

theorem Inv.link (hw : s.writer = some (.link a)) :
    Inv sl ((s.setNext (.entry a) (s.next .routeList)).setWriter (.publish a)) l := by
  have ha : s.stage a = .adding := hi.writer _ hw
  refine hi.inside hw rfl rfl rfl ?_ hi.linked hi.flag hi.table ⟨ha, ?_⟩
  · change Segment (s.setNext (.entry a) (s.next .routeList)).way
      ((s.setNext (.entry a) (s.next .routeList)).next .routeList) l none
    rw [way_setNext_entry, setNext_entry_routeList]
    refine hi.list.congr fun b hb => Function.update_of_ne ?_ _ _
    rintro rfl
    cases ha.symm.trans (hi.linked b hb)
  · change (s.setNext (.entry a) (s.next .routeList)).next (.entry a) =
      (s.setNext (.entry a) (s.next .routeList)).next .routeList
    rw [setNext_self, setNext_entry_routeList]

theorem Inv.publish (hw : s.writer = some (.publish a)) :
    Inv sl ((({ s with table := ⟨s.addr a, s.iface a⟩ :: s.table }.setNext .routeList (some a)).setStage
      a .linked).setWriter (.unlock none)) (a :: l) := by
  obtain ⟨ha, hn⟩ := hi.writer _ hw
  have hst : ∀ b, b ≠ a → Function.update s.stage a .linked b = s.stage b := fun b hb => Function.update_of_ne hb _ _
  refine hi.inside hw rfl rfl rfl ⟨setNext_self s (some a) .routeList, ?_⟩ ?_ ?_ ?_ trivial
  · change Segment (s.setNext .routeList (some a)).way ((s.setNext .routeList (some a)).way a) l none
    rw [way_setNext_routeList, State.way, hn]
    exact hi.list
  · intro b hb
    change Function.update s.stage a .linked b = .linked
    by_cases hba : b = a
    · rw [hba, Function.update_self]
    · rw [hst b hba]
      exact hi.linked b (List.mem_of_ne_of_mem hba hb)
  · intro b hb
    have hba : b ≠ a := by
      rintro rfl
      rcases hi.flag b hb with h | h
      · cases ha.symm.trans h
      · cases ha.symm.trans h
    change Function.update s.stage a .linked b = .free ∨ Function.update s.stage a .linked b = .freeing
    rw [hst b hba]
    exact hi.flag b hb
  · change _ :: s.table = _
    rw [hi.table]
    rfl

/-- The link of the front part leads past the entry. -/
theorem Inv.skip (hw : s.writer = some (.skip repp a)) :
    ∃ l', Inv sl (({ s with table := del s.table (s.addr a) }.setNext repp (s.next (.entry a))).setWriter
      (.unlock (some a))) l' := by
  obtain ⟨front, back, rfl, hf, hd⟩ := hi.writer _ hw
  have hnd := hi.list.nodup
  rw [List.nodup_middle, List.nodup_cons] at hnd
  have hmem : ∀ b ∈ front ++ back, b ∈ front ++ a :: back := by
    intro b hb
    rcases List.mem_append.1 hb with hb | hb
    · exact List.mem_append_left _ hb
    · exact List.mem_append_right _ (List.mem_cons_of_mem a hb)
  refine ⟨front ++ back, hi.inside hw rfl rfl rfl ?_ (fun b hb => hi.linked b (hmem b hb)) hi.flag ?_ ⟨?_, hnd.1⟩⟩
  · exact Linked.skip hi.list hf
  · change del s.table (s.addr a) = (front ++ back).map s.route
    rw [hi.table, List.map_append, List.map_append, List.map_cons]
    refine del_append_of_ne ?_ rfl
    intro r hr
    obtain ⟨x, hx, rfl⟩ := List.mem_map.1 hr
    exact hd x hx
  · exact hi.linked a (List.mem_append_right _ List.mem_cons_self)

theorem Inv.empty {rep : Option Nat} (hw : s.writer = some (.empty rep)) :
    Inv sl (({ s with table := [] }.setNext .routeList none).setWriter (rep.elim (.unlock none) .clearNext)) [] := by
  have hrep : rep = s.next .routeList := hi.writer _ hw
  refine hi.inside hw rfl rfl rfl (setNext_self s none .routeList) (by simp) hi.flag rfl ?_
  cases rep with
  | none => exact trivial
  | some a =>
    refine ⟨rfl, l, ?_, hi.linked⟩
    change Segment (s.setNext .routeList none).way (some a) l none
    rw [way_setNext_routeList, hrep]
    exact hi.list

theorem Inv.clearNext (hw : s.writer = some (.clearNext a)) :
    Inv sl (s.setWriter (.clearFree a (s.next (.entry a)))) l := by
  obtain ⟨hl, junk, hp, hj⟩ := hi.writer _ hw
  refine hi.setWriter hw ⟨hl, ?_⟩
  have hnd := hp.nodup
  cases junk with
  | nil => cases hp
  | cons b junk =>
    obtain ⟨hb, hp⟩ := hp
    cases hb
    exact ⟨hj a List.mem_cons_self, junk, hp, (List.nodup_cons.1 hnd).1, fun x hx => hj x (List.mem_cons_of_mem a hx)⟩

theorem Inv.clearFree {rep1 : Option Nat} (hw : s.writer = some (.clearFree a rep1)) :
    Inv sl ((s.setStage a .free).setWriter (rep1.elim (.unlock none) .clearNext)) l := by
  obtain ⟨rfl, ha, junk, hp, hm, hj⟩ := hi.writer _ hw
  have hst : ∀ b, b ≠ a → Function.update s.stage a .free b = s.stage b := fun b hb => Function.update_of_ne hb _ _
  refine hi.inside hw rfl rfl rfl hi.list (by simp) ?_ hi.table ?_
  · intro b hb
    change Function.update s.stage a .free b = .free ∨ Function.update s.stage a .free b = .freeing
    by_cases hba : b = a
    · rw [hba, Function.update_self]
      exact .inl rfl
    · rw [hst b hba]
      exact hi.flag b hb
  · cases rep1 with
    | none => exact trivial
    | some c =>
      refine ⟨rfl, junk, hp, fun x hx => ?_⟩
      exact (hst x (ne_of_mem_of_not_mem hx hm)).trans (hj x hx)

theorem Inv.unlockDel (hw : s.writer = some (.unlock (some a))) : Inv sl (s.unlock.setStage a .deleted) l := by
  obtain ⟨ha, hm⟩ := hi.writer _ hw
  have hu := hi.unlock hw
  have hst : ∀ b, b ≠ a → Function.update s.stage a .deleted b = s.stage b := fun b hb => Function.update_of_ne hb _ _
  refine ⟨hu.list, fun b hb => ?_, fun b hb => ?_, hu.table, hu.idle, by simp [State.unlock, State.setStage], hu.reader⟩
  · exact (hst b (ne_of_mem_of_not_mem hb hm)).trans (hi.linked b hb)
  · change Function.update s.stage a .deleted b = .free ∨ Function.update s.stage a .deleted b = .freeing
    rw [hst b]
    · exact hi.flag b hb
    · rintro rfl
      rcases hi.flag b hb with h | h
      · cases ha.symm.trans h
      · cases ha.symm.trans h

end Steps

/-- The step concerns an entry that is neither linked nor to be linked. -/
structure Aside (s s' : State W) (a : Nat) : Prop where
  off : s.stage a ≠ .linked ∧ s.stage a ≠ .adding
  stage : ∀ b, b ≠ a → s'.stage b = s.stage b
  way : ∀ b, b ≠ a → s'.way b = s.way b
  route : ∀ b, b ≠ a → s'.route b = s.route b
  flag : ∀ b, b ≠ a → s'.reFreed b = s.reFreed b
  head : s'.next .routeList = s.next .routeList
  seq : s'.seq = s.seq
  writer : s'.writer = s.writer
  reader : s'.reader = s.reader
  table : s'.table = s.table

namespace Aside

variable (h : Aside s s' a)
include h

theorem ne {b : Nat} (hb : s.stage b = .linked) : b ≠ a := by
  rintro rfl
  exact h.off.1 hb

theorem segment {p : Option Nat} (hl : Segment s.way p l none) (hst : ∀ b ∈ l, s.stage b = .linked) :
    Segment s'.way p l none :=
  hl.congr fun b hb => h.way b (h.ne (hst b hb))

theorem linked (hst : ∀ b ∈ l, s.stage b = .linked) (b : Nat) (hb : b ∈ l) : s'.stage b = .linked :=
  (h.stage b (h.ne (hst b hb))).trans (hst b hb)

theorem addr_eq {b : Nat} (hb : s.stage b = .linked) : s'.addr b = s.addr b := congrArg Route.addr (h.route b (h.ne hb))

theorem differ {addr : BitVec 64} (hst : ∀ b ∈ front, s.stage b = .linked) (hd : Differ s addr front) :
    Differ s' addr front :=
  hd.congr fun b hb => h.addr_eq (hst b hb)

theorem section_ok {sec : Section} (hst : ∀ b ∈ l, s.stage b = .linked) (hok : sec.Ok s l) : sec.Ok s' l := by
  have hadd : ∀ b, s.stage b = .adding → b ≠ a := by
    rintro b hb rfl
    exact h.off.2 hb
  cases sec with
  | link b => exact (h.stage b (hadd b hok)).trans hok
  | publish b =>
    obtain ⟨hb, hn⟩ := hok
    exact ⟨(h.stage b (hadd b hb)).trans hb, (h.way b (hadd b hb)).trans (hn.trans h.head.symm)⟩
  | scan addr repp =>
    obtain ⟨front, back, rfl, hf, hd⟩ := hok
    exact ⟨front, back, rfl, hf, h.differ (fun b hb => hst b (List.mem_append_left _ hb)) hd⟩
  | test addr repp b =>
    obtain ⟨front, back, rfl, hf, hd⟩ := hok
    exact ⟨front, back, rfl, hf, h.differ (fun b hb => hst b (List.mem_append_left _ hb)) hd⟩
  | skip repp b =>
    obtain ⟨front, back, rfl, hf, hd⟩ := hok
    refine ⟨front, back, rfl, hf, ?_⟩
    rw [h.addr_eq (hst b (by simp))]
    exact h.differ (fun b hb => hst b (List.mem_append_left _ hb)) hd
  | clear => exact trivial
  | empty rep => exact hok.trans h.head.symm
  | clearNext b =>
    obtain ⟨hl, junk, hp, hj⟩ := hok
    exact ⟨hl, junk, h.segment hp hj, h.linked hj⟩
  | clearFree b rep1 =>
    obtain ⟨hl, hb, junk, hp, hm, hj⟩ := hok
    exact ⟨hl, (h.stage b (h.ne hb)).trans hb, junk, h.segment hp hj, hm, h.linked hj⟩
  | unlock rep =>
    cases rep with
    | none => exact trivial
    | some b => exact ⟨(h.stage b (h.ne hok.1)).trans hok.1, hok.2⟩

theorem knows {r : Reader W} (hst : ∀ b ∈ l, s.stage b = .linked) (hk : r.Knows s l) : r.Knows s' l := by
  cases r with
  | load addr w repp =>
    obtain ⟨front, back, rfl, hf, hd⟩ := hk
    exact ⟨front, back, rfl, hf, h.differ (fun b hb => hst b (List.mem_append_left _ hb)) hd⟩
  | compare addr w b =>
    obtain ⟨front, back, rfl, hd⟩ := hk
    exact ⟨front, back, rfl, h.differ (fun b hb => hst b (List.mem_append_left _ hb)) hd⟩
  | check addr w b | read addr w b =>
    obtain ⟨front, back, rfl, hd, hb⟩ := hk
    refine ⟨front, back, rfl, h.differ (fun b hb => hst b (List.mem_append_left _ hb)) hd, ?_⟩
    rwa [h.addr_eq (hst b (by simp))]
  | verify addr w ret =>
    change answer s'.table addr = ret
    rw [h.table]
    exact hk
  | _ => exact trivial

theorem inv (hi : Inv sl s l) (hflag : s'.reFreed a = true → s'.stage a = .free ∨ s'.stage a = .freeing) :
    Inv sl s' l := by
  refine ⟨?_, h.linked hi.linked, fun b hb => ?_, ?_, ?_, fun sec hw => ?_, fun t w hw => ?_⟩
  · rw [h.head]
    exact h.segment hi.list hi.linked
  · by_cases hba : b = a
    · rw [hba] at hb ⊢
      exact hflag hb
    · rw [h.stage b hba]
      rw [h.flag b hba] at hb
      exact hi.flag b hb
  · rw [h.table, hi.table]
    exact (routes_congr fun b hb => h.route b (h.ne (hi.linked b hb))).symm
  · rw [h.writer, h.seq]
    exact hi.idle
  · rw [h.writer] at hw
    exact h.section_ok hi.linked (hi.writer sec hw)
  · rw [h.reader] at hw ⊢
    rw [h.seq]
    exact (hi.reader t w hw).step (Nat.le_refl _) fun _ _ hk => h.knows hi.linked hk

end Aside

theorem Inv.write (hi : Inv sl s l) {addr iface : BitVec 64} {reFreed : Bool} {rep : Option Nat}
    (h : s.stage a = .free) :
    Inv sl ((s.write a addr iface reFreed).setNext (.entry a) rep) l := by
  have haside : Aside s ((s.write a addr iface reFreed).setNext (.entry a) rep) a := by
    refine ⟨by simp [h], fun _ _ => rfl, fun b hb => ?_, fun b hb => ?_, fun b hb => Function.update_of_ne hb _ _,
      setNext_entry_routeList s a rep, rfl, rfl, rfl, rfl⟩
    · rw [way_setNext_entry, Function.update_of_ne hb]
      rfl
    · exact congrArg₂ Route.mk (Function.update_of_ne hb _ _) (Function.update_of_ne hb _ _)
  exact haside.inv hi fun _ => .inl h

theorem Inv.malloc (hi : Inv sl s l) {addr iface : BitVec 64} (h : s.stage a = .free) :
    Inv sl ((s.write a addr iface false).setStage a .adding) l := by
  have haside : Aside s ((s.write a addr iface false).setStage a .adding) a := by
    refine ⟨by simp [h], fun b hb => Function.update_of_ne hb _ _, fun _ _ => rfl, fun b hb => ?_,
      fun b hb => Function.update_of_ne hb _ _, rfl, rfl, rfl, rfl, rfl⟩
    exact congrArg₂ Route.mk (Function.update_of_ne hb _ _) (Function.update_of_ne hb _ _)
  refine haside.inv hi fun hf => ?_
  have hself : Function.update s.reFreed a false a = false := Function.update_self ..
  cases hself.symm.trans hf

theorem Inv.flagged (hi : Inv sl s l) (h : s.stage a = .deleted) :
    Inv sl ({ s with reFreed := Function.update s.reFreed a true }.setStage a .freeing) l := by
  have haside : Aside s ({ s with reFreed := Function.update s.reFreed a true }.setStage a .freeing) a :=
    ⟨by simp [h], fun b hb => Function.update_of_ne hb _ _, fun _ _ => rfl, fun _ _ => rfl,
      fun b hb => Function.update_of_ne hb _ _, rfl, rfl, rfl, rfl, rfl⟩
  exact haside.inv hi fun _ => .inr (Function.update_self ..)

theorem Inv.free (hi : Inv sl s l) (h : s.stage a = .freeing) : Inv sl (s.setStage a .free) l := by
  have haside : Aside s (s.setStage a .free) a :=
    ⟨by simp [h], fun b hb => Function.update_of_ne hb _ _, fun _ _ => rfl, fun _ _ => rfl, fun _ _ => rfl,
      rfl, rfl, rfl, rfl, rfl⟩
  exact haside.inv hi fun _ => .inl (Function.update_self ..)

/-- A scan that is not at the end of the list comes to the entry behind its front part. -/
theorem Inv.scan (hi : Inv sl s l) {addr : BitVec 64} (hw : s.writer = some (.scan addr repp))
    (hn : s.next repp = some a) :
    Inv sl (s.setWriter (.test addr repp a)) l := by
  obtain ⟨front, back, rfl, hf, hd⟩ := hi.writer _ hw
  rw [hi.next_eq hf] at hn
  cases back with
  | nil => cases hn
  | cons b back =>
    cases hn
    exact hi.setWriter hw ⟨front, back, rfl, hf, hd⟩

theorem Inv.step (hi : Inv sl s l) (h : Step sl s s') : ∃ l', Inv sl s' l' ∧ (s.writer = none → l' = l) := by
  have hsome : ∀ {l' : List Nat} {sec : Section}, s.writer = some sec → s.writer = none → l' = l := by
    intro l' sec hw hn
    cases hn.symm.trans hw
  cases h with
  | call t addr h => exact ⟨l, hi.setReader (by simp), fun _ => rfl⟩
  | seqbegin t addr h =>
    refine ⟨l, hi.setReader ?_, fun _ => rfl⟩
    rintro _ ⟨⟩
    exact SeqLock.since_begin fun _ => ⟨[], l, rfl, rfl, by simp [Differ]⟩
  | load t addr w repp rep h hn => exact ⟨l, hi.load h hn, fun _ => rfl⟩
  | loadNull t addr w repp h hn => exact ⟨l, hi.loadNull h hn, fun _ => rfl⟩
  | differ t addr w rep h hd => exact ⟨l, hi.differ h hd, fun _ => rfl⟩
  | agree t addr w rep h hd => exact ⟨l, hi.agree h hd, fun _ => rfl⟩
  | checkFreed t addr w rep h => exact ⟨l, hi.checkFreed h, fun _ => rfl⟩
  | loadIface t addr w rep h => exact ⟨l, hi.loadIface h, fun _ => rfl⟩
  | seqretry t addr w ret h =>
    refine ⟨l, hi.setReader ?_, fun _ => rfl⟩
    split <;> simp
  | return_ t addr ret h => exact ⟨l, hi.setReader (by simp), fun _ => rfl⟩
  | garbage a addr iface reFreed rep h => exact ⟨l, hi.write h, fun _ => rfl⟩
  | malloc a addr iface h => exact ⟨l, hi.malloc h, fun _ => rfl⟩
  | addLock a h hw => exact ⟨l, hi.lock hw h, fun _ => rfl⟩
  | link a hw => exact ⟨l, hi.link hw, fun _ => rfl⟩
  | publish a hw => exact ⟨a :: l, hi.publish hw, hsome hw⟩
  | delLock addr hw => exact ⟨l, hi.lock hw ⟨[], l, rfl, rfl, by simp [Differ]⟩, fun _ => rfl⟩
  | scan addr repp rep hw hn => exact ⟨l, hi.scan hw hn, fun _ => rfl⟩
  | scanNull addr repp hw hn => exact ⟨l, hi.setWriter hw trivial, fun _ => rfl⟩
  | testDiffer addr repp rep hw hd =>
    obtain ⟨front, back, rfl, hf, hdf⟩ := hi.writer _ hw
    refine ⟨_, hi.setWriter hw ⟨front ++ [rep], back, by simp, ⟨front, rfl⟩, fun x hx => ?_⟩, fun _ => rfl⟩
    rcases List.mem_append.1 hx with hx | hx
    · exact hdf x hx
    · rw [List.mem_singleton.1 hx]
      exact hd
  | testAgree addr repp rep hw hd =>
    obtain ⟨front, back, hl, hf, hdf⟩ := hi.writer _ hw
    refine ⟨l, hi.setWriter hw ⟨front, back, hl, hf, ?_⟩, fun _ => rfl⟩
    rw [← hd] at hdf
    exact hdf
  | skip repp rep hw =>
    obtain ⟨l', hi'⟩ := hi.skip hw
    exact ⟨l', hi', hsome hw⟩
  | unlock hw => exact ⟨l, hi.unlock hw, fun _ => rfl⟩
  | unlockDel rep hw => exact ⟨l, hi.unlockDel hw, fun _ => rfl⟩
  | flag a h => exact ⟨l, hi.flagged h, fun _ => rfl⟩
  | free a h => exact ⟨l, hi.free h, fun _ => rfl⟩
  | clearLock hw => exact ⟨l, hi.lock hw trivial, fun _ => rfl⟩
  | clear hw => exact ⟨l, hi.setWriter hw rfl, fun _ => rfl⟩
  | empty rep hw => exact ⟨[], hi.empty hw, hsome hw⟩
  | clearNext rep hw => exact ⟨l, hi.clearNext hw, fun _ => rfl⟩
  | clearFree rep rep1 hw => exact ⟨l, hi.clearFree hw, fun _ => rfl⟩

theorem inv_of_reachable (h : Reachable Init (Step sl) s) : ∃ l, Inv sl s l := by
  apply h.invariant
  · exact fun s hs => ⟨[], .of_init hs⟩
  · rintro s s' - ⟨l, hi⟩ hs
    obtain ⟨l', hi', -⟩ := hi.step hs
    exact ⟨l', hi'⟩

theorem Section.Ok.stage {sec : Section} (hi : Inv sl s l) (hok : sec.Ok s l) (hu : sec.Uses a) :
    s.stage a = .linked ∨ s.stage a = .adding := by
  cases sec with
  | link b =>
    cases hu
    exact .inr hok
  | publish b =>
    cases hu
    exact .inr hok.1
  | scan addr repp =>
    cases hu
    obtain ⟨front, back, rfl, hf, -⟩ := hok
    exact .inl (hi.linked a (List.mem_append_left _ hf.mem))
  | test addr repp b =>
    cases hu
    obtain ⟨front, back, rfl, -⟩ := hok
    exact .inl (hi.linked a (by simp))
  | skip repp b =>
    obtain ⟨front, back, rfl, hf, -⟩ := hok
    rcases hu with rfl | rfl
    · exact .inl (hi.linked a (List.mem_append_left _ hf.mem))
    · exact .inl (hi.linked a (by simp))
  | clearNext b =>
    cases hu
    obtain ⟨-, junk, hp, hj⟩ := hok
    exact .inl (hj a hp.mem_of_some)
  | clearFree b rep1 =>
    cases hu
    exact .inl hok.2.1
  | clear | empty _ | unlock _ => exact hu.elim

/-- In every reachable state the writer accesses and frees memory that is allocated, and the list
holds the routes of the table in order. -/
theorem writer_uses_allocated (h : Reachable Init (Step sl) s) :
    (∃ l, Segment (fun a => s.next (.entry a)) (s.next .routeList) l none ∧ s.table = l.map s.route) ∧
      ∀ sec a, s.writer = some sec → sec.Uses a → s.stage a = .linked ∨ s.stage a = .adding := by
  obtain ⟨l, hi⟩ := inv_of_reachable h
  exact ⟨⟨l, hi.list, hi.table⟩, fun sec a hw hu => (hi.writer sec hw).stage hi hu⟩

def unused : State Nat where
  next _ := none
  addr _ := 0
  iface _ := 0
  reFreed _ := false
  stage _ := .free
  seq := 0
  writer := none
  reader _ := .idle
  table := []

theorem init_unused : Init unused := ⟨rfl, fun _ => rfl, rfl, rfl, fun _ => rfl, rfl⟩

/-- A `route_del` comes to the entry that it is to take out. -/
theorem writer_uses_allocated_test : ∃ s : State Nat, s.table = [⟨5, 7⟩] ∧ s.writer = some (.test 5 .routeList 0) ∧
    (s.stage 0 = .linked ∨ s.stage 0 = .adding) := by
  have h₀ : Reachable Init (Step SeqLock.parity) unused := .of_init init_unused
  have h₁ := ((h₀.tail (.malloc _ 0 5 7 rfl)).tail (.addLock _ 0 rfl rfl)).tail (.link _ 0 rfl)
  have h₂ := (h₁.tail (.publish _ 0 rfl)).tail (.unlock _ rfl)
  have h := (h₂.tail (.delLock _ 5 rfl)).tail (.scan _ 5 .routeList 0 rfl rfl)
  exact ⟨_, rfl, rfl, (writer_uses_allocated h).2 _ 0 rfl rfl⟩

end Wizard.RouteSeqlock
