import Wizard.RouteRefcntCounts

/-! What the calls of `route_refcnt.c` do with the list while they have the lock. -/

namespace Wizard.RouteRefcnt

open RouteTable

variable {Tid : Type*} [Fintype Tid] [DecidableEq Tid] {s s' : State Tid} {l junk front back : List Nat} {t u : Tid}
  {p : Pc} {a b : Nat} {repp : Link} {rep : Option Nat}

omit [DecidableEq Tid] in
/-- Nothing is off the list while its holder takes nothing off it. -/
theorem Inv.junk_eq_nil (hi : Inv s l junk) (ht : (s.pc t).role.inside = true) (hc : (s.pc t).role.chain = none) :
    junk = [] := by
  have h := hi.chain
  rw [State.chain, hi.locked t ht] at h
  change Segment _ (s.pc t).role.chain junk none at h
  rw [hc] at h
  exact h.eq_nil

/-- What the thread in the lock does with the list. -/
theorem Inv.inside (hi : Inv s l junk) {l' junk' : List Nat} (ht : (s.pc t).role.inside = true)
    (hlock : s'.lock = s.lock) (hst : ∀ b, s.stage b = .linked → s'.stage b = .linked)
    (hlist : Linked s'.next l') (hchain : Segment (way s'.next) p.role.chain junk' none) (hnodup : (l' ++ junk').Nodup)
    (hlinked : ∀ b ∈ l' ++ junk', s'.stage b = .linked) (htable : s'.table = l'.map s'.route)
    (hcounted : RefCounted (fun b => s'.stage b ≠ .free) s'.count (l' ++ junk') (s'.setPc t p).held s'.freeing)
    (hfreeing : p.role.freeing = s.freeing t) (hpc : s'.pc = s.pc)
    (hadding : Owned (fun b => s'.stage b = .adding) (fun _ => False) (s'.setPc t p).adding)
    (hflag : ∀ b, s'.stage b = .linked → s'.reFreed b = true → ∃ u, s.flagged u = some b)
    (hflagged : p.role.flagged = s.flagged t) (hp : p.Good s' l') : Inv (s'.setPc t p) l' junk' := by
  have hlocked : s'.lock = some t := hlock.trans (hi.locked t ht)
  have hother : ∀ u, u ≠ t → (s'.setPc t p).pc u = s.pc u := fun u hu => by rw [setPc_of_ne s' t p hu, hpc]
  constructor
  case list => exact hlist
  case chain =>
    rw [chain_setPc s' t p hlocked]
    exact hchain
  case nodup => exact hnodup
  case linked => exact hlinked
  case table => exact htable
  case locked =>
    intro u hu
    by_cases hut : u = t
    · rw [hut]
      exact hlocked
    · rw [hother u hut] at hu
      exact hlock.trans (hi.locked u hu)
  case counted =>
    have hf : (s'.setPc t p).freeing = s'.freeing := by
      refine (freeing_setPc s' t p).trans (Function.update_eq_self_iff.2 (hfreeing.trans ?_))
      rw [State.freeing, State.freeing, hpc]
    rw [hf]
    exact hcounted
  case adding => exact hadding
  case flag =>
    intro b hb hf
    obtain ⟨u, hu⟩ := hflag b hb hf
    refine ⟨u, ?_⟩
    by_cases hut : u = t
    · rw [hut] at hu ⊢
      rw [State.flagged, setPc_self, hflagged]
      exact hu
    · rw [State.flagged, hother u hut]
      exact hu
  case pcs =>
    intro u
    by_cases hut : u = t
    · rw [hut, setPc_self]
      exact ⟨hp.held, hp.freeing, hp.ok⟩
    · rw [hother u hut]
      exact (hi.pcs u).mono (hi.outside ht hut) fun b _ => hst b

theorem Inv.link (hi : Inv s l junk) (h : s.pc t = .link a) :
    Inv ((s.setNext (.entry a) (s.next .routeList)).setPc t (.reset a)) l junk := by
  have ha : s.adding t = some a := by rw [State.adding, h]; rfl
  have hoff : s.stage a ≠ .linked := by simp [hi.adding_stage ha]
  have hhead : Function.update s.next (.entry a) (s.next .routeList) .routeList = s.next .routeList :=
    update_entry_routeList s.next a (s.next .routeList)
  have hway := way_update_entry s.next a (s.next .routeList)
  have hi' : Inv (s.setNext (.entry a) (s.next .routeList)) l junk := by
    refine Aside.inv (a := a) ⟨hoff, fun b hb => ?_, hhead, fun _ _ => rfl, fun _ _ => rfl, fun _ _ => rfl, rfl, rfl,
      rfl, rfl⟩ hi fun u hu => ?_
    · exact (congrFun hway b).trans (Function.update_of_ne hb _ _)
    · rw [hi.adding.unique u t a hu ha, h]
      trivial
  have h' : (s.setNext (.entry a) (s.next .routeList)).pc t = .link a := h
  refine hi'.goOn (by rw [h']; rfl) ?_
  exact ((congrFun hway a).trans (Function.update_self ..)).trans hhead.symm

theorem Inv.reset (hi : Inv s l junk) (h : s.pc t = .reset a) :
    Inv ((s.setFreed a false).setPc t (.publish a)) l junk := by
  have ha : s.adding t = some a := by rw [State.adding, h]; rfl
  have hoff : s.stage a ≠ .linked := by simp [hi.adding_stage ha]
  have hok : way s.next a = s.next .routeList := by
    have hok := (hi.pcs t).ok
    rwa [h] at hok
  have hi' : Inv (s.setFreed a false) l junk := by
    refine Aside.inv (a := a) ⟨hoff, fun _ _ => rfl, rfl, fun _ _ => rfl, fun _ _ => rfl, fun b hb => ?_, rfl, rfl, rfl,
      rfl⟩ hi fun u hu => ?_
    · exact Function.update_of_ne hb _ _
    · rw [hi.adding.unique u t a hu ha, h]
      exact hok
  have h' : (s.setFreed a false).pc t = .reset a := h
  exact hi'.goOn (by rw [h']; rfl) ⟨hok, Function.update_self ..⟩

theorem Inv.publish (hi : Inv s l junk) (h : s.pc t = .publish a) :
    Inv ((({ s with table := ⟨s.addr a, s.iface a⟩ :: s.table }.setNext .routeList (some a)).setStage a .linked).setPc t
      (.unlock none)) (a :: l) junk := by
  have hrole : (s.pc t).role = { Role.none with held := some a, adding := some a, inside := true } := by rw [h]; rfl
  have hheld : s.held t = some a := congrArg Role.held hrole
  have hadding : s.adding t = some a := congrArg Role.adding hrole
  have hin : (s.pc t).role.inside = true := congrArg Role.inside hrole
  have hok := (hi.pcs t).ok
  rw [h] at hok
  obtain ⟨hn, hf⟩ := hok
  have ha := hi.adding_stage hadding
  have hnot : a ∉ l ++ junk := hi.notMem (by simp [ha])
  have hjunk := hi.junk_eq_nil hin (congrArg Role.chain hrole)
  have hst : ∀ b, b ≠ a → Function.update s.stage a .linked b = s.stage b := fun b hb => Function.update_of_ne hb _ _
  have hlinked : ∀ b, s.stage b = .linked → Function.update s.stage a .linked b = .linked := by
    intro b hb
    by_cases hba : b = a
    · rw [hba]
      exact Function.update_self ..
    · exact (hst b hba).trans hb
  refine hi.inside hin rfl hlinked (hi.list.push hn) ?_ (List.nodup_cons.2 ⟨hnot, hi.nodup⟩) ?_ ?_ ?_
    (congrArg Role.freeing hrole).symm rfl ?_ ?_ (congrArg Role.flagged hrole).symm (.of_none rfl rfl trivial)
  · rw [hjunk]
    rfl
  · intro b hb
    rcases List.mem_cons.1 hb with rfl | hb
    · exact Function.update_self ..
    · exact hlinked b (hi.linked b hb)
  · change _ :: s.table = _
    rw [hi.table]
    rfl
  · rw [held_setPc]
    have halloc : ∀ b, Function.update s.stage a .linked b ≠ .free ↔ s.stage b ≠ .free := by
      intro b
      by_cases hba : b = a <;> simp [hba, ha]
    exact (hi.counted.transfer (refs_push hheld hnot)).congr halloc
  · rw [adding_setPc]
    refine hi.adding.drop hadding (fun b => ?_) (fun _ => Iff.rfl) (Function.update_self ..)
      fun u hu => Function.update_of_ne hu _ _
    change Function.update s.stage a .linked b = .adding ↔ _
    by_cases hba : b = a <;> simp [hba]
  · intro b hb hfb
    by_cases hba : b = a
    · rw [hba] at hfb
      cases hf.symm.trans hfb
    · exact hi.flag b ((hst b hba).symm.trans hb) hfb

theorem Inv.skip (hi : Inv s (front ++ a :: back) junk) (h : s.pc t = .skip repp a) (hf : repp.After front)
    (hd : Differ s (s.addr a) front) :
    Inv (({ s with table := del s.table (s.addr a) }.setNext repp (s.next (.entry a))).setPc t (.unlock (some a)))
      (front ++ back) junk := by
  have hrole : (s.pc t).role = { Role.none with inside := true } := by rw [h]; rfl
  have hin : (s.pc t).role.inside = true := congrArg Role.inside hrole
  obtain rfl := hi.junk_eq_nil hin (congrArg Role.chain hrole)
  have hmem : ∀ b ∈ front ++ back, b ∈ front ++ a :: back := fun b hb => by
    simp only [List.mem_append, List.mem_cons] at hb ⊢
    tauto
  have hn := hi.nodup
  have hlinked := hi.linked
  rw [List.append_nil] at hn hlinked
  have hcounted := hi.counted
  rw [List.append_nil] at hcounted
  have hadd : Function.update s.adding t none = s.adding :=
    Function.update_eq_self_iff.2 (congrArg Role.adding hrole).symm
  refine hi.inside hin rfl (fun _ hb => hb) (hi.list.skip hf) rfl ?_ ?_ ?_ ?_
    (congrArg Role.freeing hrole).symm rfl ?_ hi.flag (congrArg Role.flagged hrole).symm
    (.of_held rfl (hlinked a (by simp)) rfl trivial)
  · rw [List.append_nil]
    exact (List.nodup_cons.1 (List.nodup_middle.1 hn)).2
  · rw [List.append_nil]
    exact fun b hb => hlinked b (hmem b hb)
  · change del s.table (s.addr a) = (front ++ back).map s.route
    rw [hi.table, List.map_append, List.map_append, List.map_cons]
    refine del_append_of_ne (fun r hr => ?_) rfl
    obtain ⟨x, hx, rfl⟩ := List.mem_map.1 hr
    exact hd x hx
  · rw [held_setPc, List.append_nil]
    exact hcounted.transfer (refs_withdraw (congrArg Role.held hrole) hn)
  · rw [adding_setPc]
    change Owned _ _ (Function.update s.adding t none)
    rw [hadd]
    exact hi.adding

/-- The whole list is taken off. -/
theorem Inv.empty (hi : Inv s l junk) (h : s.pc t = .empty rep) :
    Inv (({ s with table := [] }.setNext .routeList none).setPc t (After.clear rep).pc) [] l := by
  have hrole : (s.pc t).role = { Role.none with inside := true } := by rw [h]; rfl
  have hin : (s.pc t).role.inside = true := congrArg Role.inside hrole
  have hok := (hi.pcs t).ok
  rw [h] at hok
  have hok : rep = s.next .routeList := hok
  obtain rfl := hi.junk_eq_nil hin (congrArg Role.chain hrole)
  have hn := hi.nodup
  have hlinked := hi.linked
  have hcounted := hi.counted
  rw [List.append_nil] at hn hlinked hcounted
  have hrole' := role_pc (.clear rep)
  have hway : way (Function.update s.next .routeList none) = way s.next := way_update_routeList s.next none
  have hhead : Function.update s.next .routeList none .routeList = none := Function.update_self ..
  refine hi.inside hin rfl (fun _ hb => hb) hhead ?_ hn hlinked rfl ?_ ?_ rfl ?_ hi.flag ?_ (After.good_pc _)
  · rw [hrole']
    change Segment (way (Function.update s.next .routeList none)) rep l none
    rw [hway, hok]
    exact hi.list
  · rw [held_setPc, hrole', Function.update_eq_self_iff.2 (congrArg Role.held hrole).symm]
    exact hcounted
  · rw [hrole']
    exact (congrArg Role.freeing hrole).symm
  · rw [adding_setPc, hrole', Function.update_eq_self_iff.2 (congrArg Role.adding hrole).symm]
    exact hi.adding
  · rw [hrole']
    exact (congrArg Role.flagged hrole).symm

/-- The reference that the list had to an entry is the thread's to drop. -/
theorem Inv.clearNext (hi : Inv s l junk) (h : s.pc t = .clearNext a) :
    ∃ junk', Inv (s.setPc t (.put a (.clear (s.next (.entry a))))) l junk' := by
  have hrole : (s.pc t).role = { Role.none with chain := some a, inside := true } := by rw [h]; rfl
  have hin : (s.pc t).role.inside = true := congrArg Role.inside hrole
  have hchain := hi.chain
  rw [State.chain, hi.locked t hin] at hchain
  change Segment _ (s.pc t).role.chain junk none at hchain
  rw [hrole] at hchain
  cases junk with
  | nil => cases hchain
  | cons b junk =>
    obtain ⟨hb, hchain⟩ := hchain
    cases hb
    have hmem : ∀ b ∈ l ++ junk, b ∈ l ++ a :: junk := fun b hb => by
      simp only [List.mem_append, List.mem_cons] at hb ⊢
      tauto
    refine ⟨junk, hi.inside hin rfl (fun _ hb => hb) hi.list hchain ?_ (fun b hb => hi.linked b (hmem b hb)) hi.table ?_
      (congrArg Role.freeing hrole).symm rfl ?_ hi.flag (congrArg Role.flagged hrole).symm
      (.of_held rfl (hi.linked a (by simp)) rfl trivial)⟩
    · exact (List.nodup_cons.1 (List.nodup_middle.1 hi.nodup)).2
    · rw [held_setPc]
      exact hi.counted.transfer (refs_withdraw (congrArg Role.held hrole) hi.nodup)
    · have hadd : Function.update s.adding t none = s.adding :=
        Function.update_eq_self_iff.2 (congrArg Role.adding hrole).symm
      rw [adding_setPc]
      change Owned _ _ (Function.update s.adding t none)
      rw [hadd]
      exact hi.adding

/-- A thread that is outside takes the lock. -/
theorem Inv.takeLock (hi : Inv s l junk) (hl : s.lock = none)
    (hr : p.role = { (s.pc t).role with inside := true }) (hc : p.role.chain = none) (hok : p.Ok s l) :
    Inv ({ s with lock := some t }.setPc t p) l junk := by
  refine hi.relock _ ?_ ?_ ?_ ?_ ?_ ?_ hok
  · rw [hr]
    rfl
  · rw [hr]
    rfl
  · rw [hr]
    rfl
  · rw [hr]
    rfl
  · refine (chain_setPc ({ s with lock := some t } : State Tid) t p rfl).trans (hc.trans ?_)
    rw [State.chain, hl]
    rfl
  · intro u hu
    by_cases hut : u = t
    · rw [hut]
    · rw [setPc_of_ne s t p hut] at hu
      cases hl.symm.trans (hi.locked u hu)

theorem Inv.unlock (hi : Inv s l junk) (h : s.pc t = .unlock rep) :
    Inv ({ s with lock := none }.setPc t (rep.elim .idle fun a => .put a .del)) l junk := by
  have hrole : (s.pc t).role = { Role.none with held := rep, inside := true } := by rw [h]; rfl
  have hin : (s.pc t).role.inside = true := congrArg Role.inside hrole
  have hrole' : Pc.role (rep.elim .idle fun a => .put a .del) = { Role.none with held := rep } := by
    cases rep <;> rfl
  refine hi.relock _ ?_ ?_ ?_ ?_ ?_ ?_ ?_
  · rw [hrole']
    exact (congrArg Role.held hrole).symm
  · rw [hrole']
    exact (congrArg Role.freeing hrole).symm
  · rw [hrole']
    exact (congrArg Role.flagged hrole).symm
  · rw [hrole']
    exact (congrArg Role.adding hrole).symm
  · rw [State.chain, State.chain, hi.locked t hin]
    exact (congrArg Role.chain hrole).symm
  · intro u hu
    by_cases hut : u = t
    · rw [hut, setPc_self, hrole'] at hu
      cases hu
    · rw [setPc_of_ne s t _ hut, hi.outside hin hut] at hu
      cases hu
  · cases rep <;> trivial

/-- What a step does to the list. -/
inductive Change (s s' : State Tid) (l l' : List Nat) : Prop
  | quiet (hl : l' = l) (ht : s'.table = s.table) (hw : ∀ b, s.stage b = .linked → way s'.next b = way s.next b)
      (hst : ∀ b, s'.stage b = .linked → s.stage b = .linked)
  | publish (a : Nat) (hl : l' = a :: l) (ha : s.stage a ≠ .linked) (hw : way s'.next = way s.next)
      (hst : ∀ b, b ≠ a → s'.stage b = .linked → s.stage b = .linked)
  | delete (front back : List Nat) (a : Nat) (hl : l = front ++ a :: back) (hl' : l' = front ++ back)
      (hd : Differ s (s.addr a) front)
      (hw : ∀ b, b ∉ front → way s'.next b = way s.next b) (hst : s'.stage = s.stage)
  | clear (hl' : l' = []) (hw : way s'.next = way s.next) (hst : s'.stage = s.stage)

omit [Fintype Tid] [DecidableEq Tid] in
theorem Change.same (ht : s'.table = s.table) (hn : s'.next = s.next) (hst : s'.stage = s.stage) :
    Change s s' l l :=
  .quiet rfl ht (fun b _ => by rw [hn]) fun b hb => by rwa [hst] at hb

theorem Inv.step (hi : Inv s l junk) (hT : Fintype.card Tid + 1 < 2 ^ 31) (hsteady : Steady s) (hs : Step t s s') :
    ∃ l' junk', Inv s' l' junk' ∧ Change s s' l l' := by
  have hok := (hi.pcs t).ok
  have same : ∀ {q : Pc}, Change s (s.setPc t q) l l := .same rfl rfl rfl
  cases hs with
  | callLookup addr h | callDel addr h | callClear h | return_ addr ret h | loadNull addr repp h =>
    exact ⟨l, junk, hi.goOn (by rw [h]; rfl) trivial, same⟩
  | load addr repp rep h hn => exact ⟨l, junk, hi.goOn (by rw [h]; rfl) trivial, same⟩
  | check addr rep h =>
    refine ⟨l, junk, hi.goOn ?_ ?_, same⟩ <;> split <;> first | trivial | rw [h]; rfl
  | read addr rep h =>
    refine ⟨l, junk, ?_, same⟩
    split
    · exact hi.goOn (by rw [h]; rfl) trivial
    · next hpos => exact hi.goOn (by rw [h]; rfl) (not_le.1 hpos)
  | casOk addr rep old h hc =>
    have ha : s.stage rep = .linked := hsteady t rep (by rw [h]; rfl)
    exact ⟨l, junk, hi.casOk hT h hc ha, .same rfl rfl rfl⟩
  | casFail addr rep old h hc => exact ⟨l, junk, hi.goOn (by rw [h]; rfl) trivial, same⟩
  | compare addr rep h =>
    refine ⟨l, junk, hi.goOn ?_ ?_, same⟩ <;> split <;> first | trivial | rw [h]; rfl
  | iface addr rep h => exact ⟨l, junk, hi.goOn (by rw [h]; rfl) trivial, same⟩
  | put rep k h => exact ⟨l, junk, hi.put h, .same rfl rfl rfl⟩
  | flag rep k h => exact ⟨l, junk, hi.flagFreed h, .same rfl rfl rfl⟩
  | free rep k h =>
    refine ⟨l, junk, hi.freed h, .quiet rfl rfl (fun _ _ => rfl) fun b hb => ?_⟩
    exact (linked_of_setStage (by simp) hb).2
  | garbage a addr iface n reFreed rep h =>
    have hw := way_update_entry s.next a rep
    have haside : Aside s (((s.write a addr iface n).setFreed a reFreed).setNext (.entry a) rep) a := by
      refine ⟨by simp [h], fun b hb => ?_, update_entry_routeList s.next a rep, fun b hb => ?_, fun b hb => ?_,
        fun b hb => Function.update_of_ne hb _ _, rfl, rfl, rfl, rfl⟩
      · exact (congrFun hw b).trans (Function.update_of_ne hb _ _)
      · exact congrArg₂ Route.mk (Function.update_of_ne hb _ _) (Function.update_of_ne hb _ _)
      · refine congrArg BitVec.toNat (Function.update_of_ne ?_ _ _)
        rintro rfl
        exact hb h
    refine ⟨l, junk, haside.inv hi fun u hu => ?_,
      .quiet rfl rfl (fun b hb => haside.way b (haside.ne hb)) fun _ hb => hb⟩
    cases h.symm.trans (hi.adding_stage hu)
  | malloc a addr iface h ha =>
    have haside : Aside s (s.write a addr iface 1) a := by
      refine ⟨by simp [ha], fun _ _ => rfl, rfl, fun b hb => ?_, fun b hb => ?_, fun _ _ => rfl, rfl, rfl, rfl, rfl⟩
      · exact congrArg₂ Route.mk (Function.update_of_ne hb _ _) (Function.update_of_ne hb _ _)
      · refine congrArg BitVec.toNat (Function.update_of_ne ?_ _ _)
        rintro rfl
        exact hb ha
    have hi' : Inv (s.write a addr iface 1) l junk :=
      haside.inv hi fun u hu => by cases ha.symm.trans (hi.adding_stage hu)
    refine ⟨l, junk, hi'.malloc h ha (Function.update_self ..), .quiet rfl rfl (fun _ _ => rfl) fun b hb => ?_⟩
    exact (linked_of_setStage (by simp) hb).2
  | addLock a h hl | clearLock h hl =>
    exact ⟨l, junk, hi.takeLock hl (by rw [h]; rfl) rfl trivial, .same rfl rfl rfl⟩
  | delLock addr h hl =>
    exact ⟨l, junk, hi.takeLock hl (by rw [h]; rfl) rfl ⟨[], l, rfl, rfl, by simp [Differ]⟩, .same rfl rfl rfl⟩
  | link a h =>
    have ha : s.adding t = some a := by rw [State.adding, h]; rfl
    refine ⟨l, junk, hi.link h, .quiet rfl rfl (fun b hb => ?_) fun _ hb => hb⟩
    refine (congrFun (way_update_entry s.next a (s.next .routeList)) b).trans (Function.update_of_ne ?_ _ _)
    rintro rfl
    cases hb.symm.trans (hi.adding_stage ha)
  | reset a h => exact ⟨l, junk, hi.reset h, .same rfl rfl rfl⟩
  | publish a h =>
    have hoff : s.stage a ≠ .linked := by simp [hi.adding_stage (t := t) (a := a) (by rw [State.adding, h]; rfl)]
    refine ⟨a :: l, junk, hi.publish h, .publish a rfl hoff (way_update_routeList s.next (some a)) fun b hb hst => ?_⟩
    exact (Function.update_of_ne hb _ _).symm.trans hst
  | scan addr repp rep h hn =>
    rw [h] at hok
    obtain ⟨front, back, rfl, hf, hd⟩ := hok
    rw [hi.list.next_eq hf] at hn
    cases back with
    | nil => cases hn
    | cons b back =>
      cases hn
      exact ⟨_, junk, hi.goOn (by rw [h]; rfl) ⟨front, back, rfl, hf, hd⟩, same⟩
  | scanNull addr repp h hn => exact ⟨l, junk, hi.goOn (by rw [h]; rfl) trivial, same⟩
  | test addr repp rep h =>
    rw [h] at hok
    obtain ⟨front, back, rfl, hf, hd⟩ := hok
    refine ⟨_, junk, ?_, same⟩
    split
    · next ha =>
      rw [← ha] at hd
      exact hi.goOn (by rw [h]; rfl) ⟨front, back, rfl, hf, hd⟩
    · next ha =>
      refine hi.goOn (by rw [h]; rfl) ⟨front ++ [rep], back, by simp, .concat front rep, fun x hx => ?_⟩
      rcases List.mem_append.1 hx with hx | hx
      · exact hd x hx
      · rwa [List.mem_singleton.1 hx]
  | skip repp rep h =>
    rw [h] at hok
    obtain ⟨front, back, rfl, hf, hd⟩ := hok
    refine ⟨front ++ back, junk, hi.skip h hf hd, .delete front back rep rfl rfl hd (fun b hb => ?_) rfl⟩
    cases repp with
    | routeList => exact congrFun (way_update_routeList s.next (s.next (.entry rep))) b
    | entry c =>
      refine (congrFun (way_update_entry s.next c (s.next (.entry rep))) b).trans (Function.update_of_ne ?_ _ _)
      rintro rfl
      exact hb hf.mem
  | take h => exact ⟨l, junk, hi.goOn (by rw [h]; rfl) rfl, same⟩
  | empty rep h => exact ⟨[], l, hi.empty h, .clear rfl (way_update_routeList s.next none) rfl⟩
  | clearNext rep h =>
    obtain ⟨junk', hi'⟩ := hi.clearNext h
    exact ⟨l, junk', hi', same⟩
  | unlock rep h => exact ⟨l, junk, hi.unlock h, .same rfl rfl rfl⟩

end Wizard.RouteRefcnt
