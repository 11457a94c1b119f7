import Wizard.RouteRefcntRoles

/-! The references to an entry of `route_refcnt.c`, from its `malloc` to its `free`. -/

namespace Wizard.RouteRefcnt

open RouteTable

variable {Tid : Type*} [Fintype Tid] [DecidableEq Tid] {s : State Tid} {l junk : List Nat} {t : Tid} {p : Pc} {a : Nat}

omit [DecidableEq Tid] in
theorem Inv.free_notMem (hi : Inv s l junk) (ht : s.freeing t = some a) : a ∉ l ++ junk := fun hm =>
  hi.counted.owned.apart t a ht (refs_pos_of_mem hm)

/-- A reference is taken or dropped. -/
theorem Inv.recount (hi : Inv s l junk) {n : BitVec 32} (hg : p.role.flagged = s.flagged t)
    (ha : p.role.adding = s.adding t) (hc : p.role.chain = (s.pc t).role.chain)
    (hin : p.role.inside = (s.pc t).role.inside)
    (hcount : RefCounted (fun b => s.stage b ≠ .free) (s.setRefcnt a n).count (l ++ junk)
      (Function.update s.held t p.role.held) (Function.update s.freeing t p.role.freeing))
    (hp : p.Good s l) : Inv ((s.setRefcnt a n).setPc t p) l junk := by
  have hgood : ∀ {q : Pc}, q.Good s l → q.Good ((s.setRefcnt a n).setPc t p) l := fun h => ⟨h.held, h.freeing, h.ok⟩
  constructor
  case list => exact hi.list
  case chain =>
    rw [chain_setPc_same (s.setRefcnt a n) t p hc]
    exact hi.chain
  case nodup => exact hi.nodup
  case linked => exact hi.linked
  case table => exact hi.table
  case locked => exact hi.locked_setPc fun h => by rwa [← hin]
  case counted =>
    rw [held_setPc, freeing_setPc]
    exact hcount
  case adding =>
    rw [adding_setPc, Function.update_eq_self_iff.2 ha]
    exact hi.adding
  case flag =>
    rw [flagged_setPc, Function.update_eq_self_iff.2 hg]
    exact hi.flag
  case pcs => exact (Function.forall_update_iff s.pc fun _ q => q.Good _ l).2 ⟨hgood hp, fun u _ => hgood (hi.pcs u)⟩

theorem Inv.casOk (hi : Inv s l junk) (hT : Fintype.card Tid + 1 < 2 ^ 31) {addr : BitVec 64} {old : BitVec 32}
    (h : s.pc t = .cas addr a old) (hc : s.refcnt a = old) (ha : s.stage a = .linked) :
    Inv ((s.setRefcnt a (old + 1)).setPc t (.compare addr a)) l junk := by
  have hrole : (s.pc t).role = Role.none := by rw [h]; rfl
  have hheld : s.held t = none := congrArg Role.held hrole
  have hfreeing : s.freeing t = none := congrArg Role.freeing hrole
  have halloc : s.stage a ≠ .free := by simp [ha]
  have hcount : s.count a = old.toNat := congrArg BitVec.toNat hc
  have hle := hi.counted.count_le halloc
  have hpos : 0 < s.count a := by
    have hok := (hi.pcs t).ok
    rw [h] at hok
    have hok : 0 < old.toInt := hok
    rw [hcount]
    by_contra hz
    have hzero : old = 0 := BitVec.eq_of_toNat_eq (by simpa using hz)
    rw [hzero] at hok
    exact absurd hok (by decide)
  refine hi.recount (congrArg Role.flagged hrole).symm (congrArg Role.adding hrole).symm
    (congrArg Role.chain hrole).symm (congrArg Role.inside hrole).symm ?_ (.of_held rfl ha rfl trivial)
  have hf : Function.update s.freeing t none = s.freeing := Function.update_eq_self_iff.2 hfreeing.symm
  change RefCounted _ _ _ (Function.update s.held t (some a)) (Function.update s.freeing t none)
  rw [hf]
  refine hi.counted.acquire hheld halloc hpos ?_ fun b hb => ?_
  · change (Function.update s.refcnt a (old + 1) a).toNat = _
    rw [Function.update_self, BitVec.toNat_add, hcount]
    rw [hcount] at hle
    exact Nat.mod_eq_of_lt (by simp; omega)
  · exact congrArg BitVec.toNat (Function.update_of_ne hb _ _)

theorem Inv.put (hi : Inv s l junk) {k : After} (h : s.pc t = .put a k) :
    Inv ((s.setRefcnt a (s.refcnt a - 1)).setPc t (if s.refcnt a - 1 = 0 then .flag a k else k.pc)) l junk := by
  have hrole : (s.pc t).role = { Role.none with held := some a, chain := k.chain, inside := k.inside } := by rw [h]; rfl
  have hheld : s.held t = some a := congrArg Role.held hrole
  have hfreeing : s.freeing t = none := congrArg Role.freeing hrole
  have hadding : s.adding t = none := congrArg Role.adding hrole
  have hlinked : s.stage a = .linked := hi.linked_of_held hheld hadding
  have hpos : 0 < (s.refcnt a).toNat := hi.counted.count_pos hheld
  have hcount : (s.setRefcnt a (s.refcnt a - 1)).count a = s.count a - 1 := by
    change (Function.update s.refcnt a (s.refcnt a - 1) a).toNat = (s.refcnt a).toNat - 1
    rw [Function.update_self, BitVec.toNat_sub_of_le]
    · rfl
    · rw [BitVec.le_def]
      exact hpos
  have hne : ∀ b, b ≠ a → (s.setRefcnt a (s.refcnt a - 1)).count b = s.count b := fun b hb =>
    congrArg BitVec.toNat (Function.update_of_ne hb _ _)
  have hlast : s.refcnt a - 1 = 0 ↔ s.count a = 1 := by
    rw [sub_eq_zero]
    exact ⟨fun h => congrArg BitVec.toNat h, fun h => BitVec.eq_of_toNat_eq h⟩
  split
  · next hz =>
    have hone := hlast.1 hz
    refine hi.recount (congrArg Role.flagged hrole).symm hadding.symm (congrArg Role.chain hrole).symm
      (congrArg Role.inside hrole).symm ?_ (.of_freeing rfl hlinked rfl trivial)
    exact hi.counted.releaseLast hheld hfreeing hone (by omega) hne
  · next hz =>
    have hone : s.count a ≠ 1 := fun hone => hz (hlast.2 hone)
    have hrole' := role_pc k
    refine hi.recount ?_ ?_ ?_ ?_ ?_ k.good_pc
    · rw [hrole']
      exact (congrArg Role.flagged hrole).symm
    · rw [hrole']
      exact hadding.symm
    · rw [hrole', hrole]
    · rw [hrole', hrole]
    · rw [hrole']
      have hf : Function.update s.freeing t none = s.freeing := Function.update_eq_self_iff.2 hfreeing.symm
      change RefCounted _ _ _ (Function.update s.held t none) (Function.update s.freeing t none)
      rw [hf]
      exact hi.counted.release hheld hone hcount hne

/-- The thread that is to free the entry sets `re_freed`. -/
theorem Inv.flagFreed (hi : Inv s l junk) {k : After} (h : s.pc t = .flag a k) :
    Inv ((s.setFreed a true).setPc t (.free a k)) l junk := by
  have hrole : (s.pc t).role = { Role.none with freeing := some a, chain := k.chain, inside := k.inside } := by
    rw [h]; rfl
  have hheld : s.held t = none := congrArg Role.held hrole
  have hfreeing : s.freeing t = some a := congrArg Role.freeing hrole
  have hflagged : s.flagged t = none := congrArg Role.flagged hrole
  have hadding : s.adding t = none := congrArg Role.adding hrole
  have hlinked : s.stage a = .linked := (hi.pcs t).freeing a hfreeing
  have hgood : ∀ {q : Pc}, q.Good s l → (∀ b, q.role.adding = some b → s.stage b = .adding) →
      q.Good ((s.setFreed a true).setPc t (.free a k)) l := by
    intro q hq hadd
    refine ⟨hq.held, hq.freeing, ?_⟩
    have hok := hq.ok
    cases q with
    | publish b =>
      refine ⟨hok.1, (Function.update_of_ne ?_ _ _).trans hok.2⟩
      rintro rfl
      cases hlinked.symm.trans (hadd b rfl)
    | _ => exact hok
  constructor
  case list => exact hi.list
  case chain =>
    rw [chain_setPc_same (s.setFreed a true) t (.free a k) (congrArg Role.chain hrole).symm]
    exact hi.chain
  case nodup => exact hi.nodup
  case linked => exact hi.linked
  case table => exact hi.table
  case locked => exact hi.locked_setPc fun h => by rwa [hrole]
  case counted =>
    rw [held_setPc, freeing_setPc, Function.update_eq_self_iff.2 hheld.symm,
      Function.update_eq_self_iff.2 hfreeing.symm]
    exact hi.counted
  case adding =>
    rw [adding_setPc, Function.update_eq_self_iff.2 hadding.symm]
    exact hi.adding
  case flag =>
    intro b hb hf
    rw [flagged_setPc]
    by_cases hba : b = a
    · rw [hba]
      exact ⟨t, Function.update_self ..⟩
    · change Function.update s.reFreed a true b = true at hf
      rw [Function.update_of_ne hba] at hf
      obtain ⟨u, hu⟩ := hi.flag b hb hf
      refine ⟨u, (Function.update_of_ne ?_ _ _).trans hu⟩
      rintro rfl
      cases hflagged.symm.trans hu
  case pcs =>
    refine (Function.forall_update_iff s.pc fun _ q => q.Good _ l).2
      ⟨hgood (.of_freeing rfl hlinked rfl trivial) (by simp [Pc.role, Role.none]), fun u _ => ?_⟩
    exact hgood (hi.pcs u) fun b hb => hi.adding_stage hb

theorem Inv.freed (hi : Inv s l junk) {k : After} (h : s.pc t = .free a k) :
    Inv ((s.setStage a .free).setPc t k.pc) l junk := by
  have hrole : (s.pc t).role =
      { Role.none with freeing := some a, flagged := some a, chain := k.chain, inside := k.inside } := by rw [h]; rfl
  have hrole' := role_pc k
  have hheld : s.held t = none := congrArg Role.held hrole
  have hfreeing : s.freeing t = some a := congrArg Role.freeing hrole
  have hflagged : s.flagged t = some a := congrArg Role.flagged hrole
  have hadding : s.adding t = none := congrArg Role.adding hrole
  have hlinked : s.stage a = .linked := (hi.pcs t).freeing a hfreeing
  have hst : ∀ b, b ≠ a → Function.update s.stage a .free b = s.stage b := fun b hb => Function.update_of_ne hb _ _
  have hself : Function.update s.stage a .free a = .free := Function.update_self ..
  have hnot := hi.free_notMem hfreeing
  have hgood : ∀ {q : Pc}, q.Good s l → q.role.held ≠ some a → q.role.freeing ≠ some a →
      q.Good ((s.setStage a .free).setPc t k.pc) l := by
    intro q hq hh hf
    refine ⟨fun b hb => (hq.held b hb).imp_left (hst b ?_).trans, fun b hb => (hst b ?_).trans (hq.freeing b hb), hq.ok⟩
    · rintro rfl
      exact hh hb
    · rintro rfl
      exact hf hb
  constructor
  case list => exact hi.list
  case chain =>
    rw [chain_setPc_same (s.setStage a .free) t k.pc]
    · exact hi.chain
    · rw [hrole']
      exact (congrArg Role.chain hrole).symm
  case nodup => exact hi.nodup
  case linked => exact fun b hb => (hst b (ne_of_mem_of_not_mem hb hnot)).trans (hi.linked b hb)
  case table => exact hi.table
  case locked =>
    refine hi.locked_setPc fun h => ?_
    rw [hrole'] at h
    rwa [hrole]
  case counted =>
    rw [held_setPc, freeing_setPc, hrole', Function.update_eq_self_iff.2 hheld.symm]
    refine hi.counted.free hfreeing fun b => ?_
    change Function.update s.stage a .free b ≠ .free ↔ _
    by_cases hba : b = a <;> simp [hba]
  case adding =>
    rw [adding_setPc, hrole', Function.update_eq_self_iff.2 hadding.symm]
    refine hi.adding.congr (fun b => ?_) (fun _ => Iff.rfl) fun _ => rfl
    change Function.update s.stage a .free b = .adding ↔ _
    by_cases hba : b = a
    · rw [hba, hself, hlinked]
      simp
    · rw [hst b hba]
  case flag =>
    intro b hb hf
    obtain ⟨hba, hb⟩ := linked_of_setStage (by simp) hb
    obtain ⟨u, hu⟩ := hi.flag b hb hf
    refine ⟨u, ?_⟩
    rw [flagged_setPc]
    refine (Function.update_of_ne ?_ _ _).trans hu
    rintro rfl
    exact hba (Option.some.inj (hu.symm.trans hflagged))
  case pcs =>
    refine (Function.forall_update_iff s.pc fun _ q => q.Good _ l).2 ⟨k.good_pc, fun u hu => ?_⟩
    refine hgood (hi.pcs u) (hi.counted.not_held_of_freeing hfreeing) fun hf => ?_
    exact hu (hi.counted.owned.unique u t a hf hfreeing)

/-- The memory is a new entry, with one reference. -/
theorem Inv.malloc (hi : Inv s l junk) (h : s.pc t = .idle) (ha : s.stage a = .free) (hc : s.refcnt a = 1) :
    Inv ((s.setStage a .adding).setPc t (.add a)) l junk := by
  have hrole : (s.pc t).role = Role.none := by rw [h]; rfl
  have hheld : s.held t = none := congrArg Role.held hrole
  have hfreeing : s.freeing t = none := congrArg Role.freeing hrole
  have hflagged : s.flagged t = none := congrArg Role.flagged hrole
  have hst : ∀ b, b ≠ a → Function.update s.stage a .adding b = s.stage b := fun b hb => Function.update_of_ne hb _ _
  have hlinked : ∀ b, s.stage b = .linked → Function.update s.stage a .adding b = .linked := by
    intro b hb
    refine (hst b ?_).trans hb
    rintro rfl
    cases ha.symm.trans hb
  have hgood : ∀ {q : Pc}, q.Good s l → q.Good ((s.setStage a .adding).setPc t (.add a)) l := fun hq =>
    ⟨fun b hb => (hq.held b hb).imp_left (hlinked b), fun b hb => hlinked b (hq.freeing b hb), hq.ok⟩
  constructor
  case list => exact hi.list
  case chain =>
    rw [chain_setPc_same (s.setStage a .adding) t (.add a) (congrArg Role.chain hrole).symm]
    exact hi.chain
  case nodup => exact hi.nodup
  case linked => exact fun b hb => hlinked b (hi.linked b hb)
  case table => exact hi.table
  case locked => exact hi.locked_setPc (by simp [Pc.role, Role.none])
  case counted =>
    have hf : Function.update s.freeing t none = s.freeing := Function.update_eq_self_iff.2 hfreeing.symm
    rw [held_setPc, freeing_setPc]
    change RefCounted _ _ _ (Function.update s.held t (some a)) (Function.update s.freeing t none)
    rw [hf]
    refine hi.counted.allocate (by simp [ha]) hheld (fun b => ?_) (congrArg BitVec.toNat hc) fun b _ => rfl
    change Function.update s.stage a .adding b ≠ .free ↔ _
    by_cases hba : b = a <;> simp [hba]
  case adding =>
    rw [adding_setPc]
    refine hi.adding.appear (x := a) (by simp [ha]) (congrArg Role.adding hrole) (fun b => ?_) (fun _ => Iff.rfl)
      (Function.update_self ..) fun u hu => Function.update_of_ne hu _ _
    change Function.update s.stage a .adding b = .adding ↔ _
    by_cases hba : b = a <;> simp [hba]
  case flag =>
    intro b hb hf
    rw [flagged_setPc, Function.update_eq_self_iff.2 hflagged.symm]
    exact hi.flag b (linked_of_setStage (by simp) hb).2 hf
  case pcs =>
    refine (Function.forall_update_iff s.pc fun _ q => q.Good _ l).2
      ⟨⟨?_, by simp [Pc.role, Role.none], trivial⟩, fun u _ => hgood (hi.pcs u)⟩
    rintro b ⟨⟩
    exact .inr rfl

end Wizard.RouteRefcnt
