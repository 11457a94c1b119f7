import Wizard.BoundedQueue

/-! Truncated versions against exact ones. Each slot has an exact version, the
number of calls that have advanced it; the futex word carries it modulo `2 ^ 16`.
Tickets are uncompleted in a window shorter than a full turn of the truncated
version, so a waiter that sees its version sees its exact version. -/

namespace Wizard.BoundedQueue

open SlotFutex

variable {T Tid : Type*} {b : Nat}

abbrev geometry (b : Nat) : Geometry := .reserve (BitVec.ofNat 64 (2 ^ b))

abbrev slotOf (b : Nat) (i : Nat) : BitVec 32 := slotId (geometry b) (BitVec.ofNat 64 i)

def exactVersion (b : Nat) : Op → Nat → Nat
  | .push, i => 2 * (i / 2 ^ b)
  | .pop, i => 2 * (i / 2 ^ b) + 1

theorem expectedVersion_eq (hb : b ≤ 32) (op : Op) (index : BitVec 64) :
    expectedVersion (geometry b) op index = BitVec.ofNat 16 (exactVersion b op index.toNat) := by
  cases op with
  | push => exact pushVersionForIndex_eq hb index
  | pop => exact popVersionForIndex_eq hb index

theorem slotOf_toNat (hb : b ≤ 32) (i : Nat) : (slotOf b i).toNat = i % 2 ^ b := by
  rw [slotOf, slotId_toNat hb, BitVec.toNat_ofNat]
  exact Nat.mod_mod_of_dvd i (Nat.pow_dvd_pow 2 (by omega))

theorem slotOf_eq_iff (hb : b ≤ 32) (i j : Nat) :
    slotOf b i = slotOf b j ↔ i % 2 ^ b = j % 2 ^ b := by
  rw [← BitVec.toNat_inj, slotOf_toNat hb, slotOf_toNat hb]

/-- The exact version and the slot determine the kind of a ticket and its number. -/
theorem ticket_ext (hb : b ≤ 32) {op op' : Op} {i j : Nat}
    (hv : exactVersion b op i = exactVersion b op' j) (hs : slotOf b i = slotOf b j) :
    op = op' ∧ i = j := by
  have hm := (slotOf_eq_iff hb i j).mp hs
  have hi := Nat.div_add_mod i (2 ^ b)
  have hj := Nat.div_add_mod j (2 ^ b)
  have hd : i / 2 ^ b = j / 2 ^ b := by
    cases op <;> cases op' <;> simp only [exactVersion] at hv <;> omega
  refine ⟨?_, by rw [← hi, ← hj, hd, hm]⟩
  cases op <;> cases op' <;> simp only [exactVersion] at hv <;> first | rfl | omega

theorem exactVersion_back (op : Op) {i k : Nat} (hk : k ≤ i / 2 ^ b) :
    exactVersion b op (i - k * 2 ^ b) + 2 * k = exactVersion b op i := by
  have hd : (i - k * 2 ^ b) / 2 ^ b = i / 2 ^ b - k := by
    rw [Nat.mul_comm, Nat.sub_mul_div]
  cases op <;> simp only [exactVersion, hd] <;> omega

theorem slotOf_back (hb : b ≤ 32) {i k : Nat} (hk : k ≤ i / 2 ^ b) :
    slotOf b (i - k * 2 ^ b) = slotOf b i := by
  have hle : k * 2 ^ b ≤ i := (Nat.mul_le_mul_right _ hk).trans (Nat.div_mul_le_self i _)
  rw [slotOf_eq_iff hb]
  conv_rhs => rw [← Nat.sub_add_cancel hle]
  simp

theorem WaitStep.raw_eq {expected : BitVec 16} {word word' : BitVec 32} {pc : WaitPc}
    {next : Option WaitPc} (h : WaitStep expected word pc word' next) :
    getRawVersion word' = getRawVersion word := by
  cases h with
  | casOk => exact getRawVersion_makeTaggedVersion word
  | load => rfl
  | casFail => rfl
  | sleep => rfl
  | waitReturns => rfl
  | spurious => rfl

theorem WaitStep.reached {expected : BitVec 16} {word word' : BitVec 32} {pc : WaitPc}
    (h : WaitStep expected word pc word' none) : getRawVersion word = expected := by
  generalize he : (none : Option WaitPc) = next at h
  cases h with
  | load =>
    unfold afterLoad at he
    split_ifs at he with hr
    exact hr
  | casOk => simp at he
  | casFail => simp at he
  | sleep => simp at he
  | waitReturns => simp at he
  | spurious => simp at he

def Phase.Active (p : Phase) : Prop :=
  p = .ready ∨ p = .callback ∨ p = .advance .exchange

/-- The ticket protocol at the exact version `ver` of every slot. -/
structure Tickets (b : Nat) (ver : BitVec 32 → Nat) (s : State T Tid) : Prop where
  index : ∀ op, s.nextIndex op = BitVec.ofNat 64 (s.record.drawn op)
  version : ∀ slot, getRawVersion (s.word slot) = BitVec.ofNat 16 (ver slot)
  held : ∀ t op index, s.ticket t = some (op, index) →
    index.toNat < s.record.drawn op ∧ ver (slotId (geometry b) index) ≤ exactVersion b op index.toNat
  unique : ∀ t u k, s.ticket t = some k → s.ticket u = some k → t = u
  cover : ∀ op i, i < s.record.drawn op → ver (slotOf b i) ≤ exactVersion b op i →
    ∃ t, s.ticket t = some (op, BitVec.ofNat 64 i)
  past : ∀ op i, exactVersion b op i < ver (slotOf b i) → i < s.record.drawn op
  active : ∀ t c, s.call t = some c → c.phase.Active →
    exactVersion b c.op c.index.toNat = ver (slotId (geometry b) c.index)

/-- A waiter that sees its truncated version is at its exact version: otherwise
every ticket of the `2 ^ 15` rounds before it would be uncompleted. -/
theorem Tickets.exact_of_truncated (hb : b ≤ 32) {ver : BitVec 32 → Nat} {s : State T Tid}
    (h : Tickets b ver s) (hbound : Bounded (geometry b) s) {t : Tid} {op : Op} {index : BitVec 64}
    (ht : s.ticket t = some (op, index))
    (hv : BitVec.ofNat 16 (ver (slotId (geometry b) index)) =
      BitVec.ofNat 16 (exactVersion b op index.toNat)) :
    exactVersion b op index.toNat = ver (slotId (geometry b) index) := by
  obtain ⟨hdrawn, hle⟩ := h.held t op index ht
  have hmod : ver (slotId (geometry b) index) % 2 ^ 16 = exactVersion b op index.toNat % 2 ^ 16 := by
    simpa using congrArg BitVec.toNat hv
  by_contra hne
  have hfar : ver (slotId (geometry b) index) + 2 ^ 16 ≤ exactVersion b op index.toNat := by omega
  have hround : 2 ^ 15 ≤ index.toNat / 2 ^ b := by
    cases op <;> simp only [exactVersion] at hfar <;> omega
  have hidx : slotOf b index.toNat = slotId (geometry b) index := by simp [slotOf]
  have hex : ∀ k : Fin (2 ^ 15), ∃ u,
      s.ticket u = some (op, BitVec.ofNat 64 (index.toNat - k * 2 ^ b)) := by
    intro k
    have hk : k.val ≤ index.toNat / 2 ^ b := by omega
    apply h.cover op _ (by omega)
    have hback := exactVersion_back op hk
    rw [slotOf_back hb hk, hidx]
    omega
  choose f hf using hex
  have hpos : 0 < 2 ^ b := Nat.two_pow_pos b
  have hinj : Function.Injective f := by
    intro k l hkl
    have hkey := (hf k).symm.trans (hkl ▸ hf l)
    simp only [Option.some.injEq, Prod.mk.injEq, true_and] at hkey
    have hnat := congrArg BitVec.toNat hkey
    have hlt := index.isLt
    simp only [BitVec.toNat_ofNat] at hnat
    rw [Nat.mod_eq_of_lt (by omega), Nat.mod_eq_of_lt (by omega)] at hnat
    have hk : k.val * 2 ^ b ≤ index.toNat :=
      (Nat.mul_le_mul_right _ (by omega : k.val ≤ index.toNat / 2 ^ b)).trans (Nat.div_mul_le_self _ _)
    have hl : l.val * 2 ^ b ≤ index.toNat :=
      (Nat.mul_le_mul_right _ (by omega : l.val ≤ index.toNat / 2 ^ b)).trans (Nat.div_mul_le_self _ _)
    exact Fin.ext (Nat.eq_of_mul_eq_mul_right hpos (by omega))
  have hsub : Set.range f ⊆
      {u | ∃ i, s.ticket u = some (op, i) ∧ slotId (geometry b) i = slotId (geometry b) index} := by
    rintro _ ⟨k, rfl⟩
    refine ⟨_, hf k, ?_⟩
    have hk : k.val ≤ index.toNat / 2 ^ b := by omega
    exact (slotOf_back hb hk).trans hidx
  have hcard := Set.encard_le_encard hsub
  have hrange : (Set.range f).encard = 2 ^ 15 := by
    rw [← Set.image_univ, hinj.encard_image, Set.encard_univ, ENat.card_eq_coe_fintype_card,
      Fintype.card_fin]
    rfl
  have hlt := hbound.2 op (slotId (geometry b) index)
  rw [hrange] at hcard
  exact absurd (hcard.trans_lt hlt) (lt_irrefl _)

theorem Tickets.of_same {ver : BitVec 32 → Nat} {s s' : State T Tid} (h : Tickets b ver s)
    (hi : s'.nextIndex = s.nextIndex) (hd : s'.record.drawn = s.record.drawn)
    (hraw : ∀ slot, getRawVersion (s'.word slot) = getRawVersion (s.word slot))
    (ht : s'.ticket = s.ticket)
    (hact : ∀ t c, s'.call t = some c → c.phase.Active →
      exactVersion b c.op c.index.toNat = ver (slotId (geometry b) c.index)) :
    Tickets b ver s' where
  index op := by rw [hi, hd, h.index op]
  version slot := by rw [hraw, h.version slot]
  held := by rw [ht, hd]; exact h.held
  unique := by rw [ht]; exact h.unique
  cover := by rw [ht, hd]; exact h.cover
  past := by rw [hd]; exact h.past
  active := hact

theorem Call.ticket_of_ne {c : Call} (h : c.phase ≠ .advance .wake) :
    c.ticket = some (c.op, c.index) := if_neg h

theorem Phase.Active.ne_wake {p : Phase} (h : p.Active) : p ≠ .advance .wake := by
  rcases h with rfl | rfl | rfl <;> simp

theorem State.ticket_of_call {s : State T Tid} {t : Tid} {c : Call} (h : s.call t = some c)
    (hp : c.phase ≠ .advance .wake) : s.ticket t = some (c.op, c.index) := by
  rw [State.ticket, h, Option.bind_some, Call.ticket_of_ne hp]

variable [DecidableEq Tid]

/-- A call that only moves to another phase of the same ticket. -/
theorem ticket_setPhase {s s' : State T Tid} {t : Tid} {c : Call} {phase : Phase}
    (h : s.call t = some c) (hp : c.phase ≠ .advance .wake) (hp' : phase ≠ .advance .wake)
    (hcall : s'.call = Function.update s.call t (some { c with phase := phase })) :
    s'.ticket = s.ticket := by
  funext u
  by_cases hu : u = t
  · subst hu
    rw [State.ticket_of_call h hp, State.ticket, hcall, Function.update_self, Option.bind_some,
      Call.ticket_of_ne hp']
  · simp [State.ticket, hcall, hu]

theorem call_update {f : Tid → Option Call} {t u : Tid} {c d : Call} (h : Function.update f t (some c) u = some d) :
    (u = t ∧ d = c) ∨ (u ≠ t ∧ f u = some d) := by
  by_cases hut : u = t
  · subst hut
    rw [Function.update_self, Option.some.injEq] at h
    exact .inl ⟨rfl, h.symm⟩
  · rw [Function.update_of_ne hut] at h
    exact .inr ⟨hut, h⟩

theorem Tickets.setPhase {ver : BitVec 32 → Nat} {s s' : State T Tid} (ht : Tickets b ver s) {t : Tid}
    {c : Call} {phase : Phase} (h : s.call t = some c) (hp : c.phase ≠ .advance .wake)
    (hp' : phase ≠ .advance .wake) (hi : s'.nextIndex = s.nextIndex)
    (hd : s'.record.drawn = s.record.drawn)
    (hraw : ∀ slot, getRawVersion (s'.word slot) = getRawVersion (s.word slot))
    (hcall : s'.call = Function.update s.call t (some { c with phase := phase }))
    (hact : phase.Active → exactVersion b c.op c.index.toNat = ver (slotId (geometry b) c.index)) :
    Tickets b ver s' := by
  refine ht.of_same hi hd hraw (ticket_setPhase h hp hp' hcall) ?_
  intro u d hu ha
  rw [hcall] at hu
  obtain ⟨rfl, rfl⟩ | ⟨-, hu⟩ := call_update hu
  · exact hact ha
  · exact ht.active u d hu ha

theorem ticket_woken (g : Geometry) (slot : BitVec 32) (c : Call) :
    (c.woken g slot).ticket = c.ticket := by
  unfold Call.woken
  split_ifs
  · cases hp : c.phase <;> simp [Call.ticket, Phase.woken, hp]
  · rfl

theorem active_woken {g : Geometry} {slot : BitVec 32} {c : Call}
    (h : (c.woken g slot).phase.Active) : (c.woken g slot) = c := by
  unfold Call.woken at *
  split_ifs at * with hs
  · obtain ⟨op, index, phase⟩ := c
    cases phase <;> simp [Phase.woken, Phase.Active] at *
  · rfl

theorem Tickets.wake {ver : BitVec 32 → Nat} {s : State T Tid} (ht : Tickets b ver s) {t : Tid}
    {c : Call} (h : s.call t = some c) (hp : c.phase = .advance .wake) (slot : BitVec 32) :
    Tickets b ver { s with
      call := Function.update (fun u => (s.call u).map (Call.woken (geometry b) slot)) t none } := by
  refine ht.of_same rfl rfl (fun _ => rfl) ?_ ?_
  · funext u
    by_cases hu : u = t
    · subst hu
      simp [State.ticket, h, Call.ticket, hp]
    · cases hc : s.call u with
      | none => simp [State.ticket, hu, hc]
      | some d => simp [State.ticket, hu, hc, ticket_woken]
  · intro u d hu ha
    by_cases hut : u = t
    · simp [hut] at hu
    · simp only [Function.update_of_ne hut, Option.map_eq_some_iff] at hu
      obtain ⟨d', hd', rfl⟩ := hu
      have he := active_woken ha
      rw [he] at ha ⊢
      exact ht.active u d' hd' ha

theorem Tickets.draw {ver : BitVec 32 → Nat} {s : State T Tid} (ht : Tickets b ver s)
    {t : Tid} {op : Op} (h : s.call t = none) (hlt : s.record.drawn op < 2 ^ 64) :
    Tickets b ver { s with
      nextIndex := Function.update s.nextIndex op (s.nextIndex op + 1)
      call := Function.update s.call t (some ⟨op, s.nextIndex op, .wait .load⟩)
      record := s.record.draw op } := by
  have hnew : (s.nextIndex op).toNat = s.record.drawn op := by
    rw [ht.index op, BitVec.toNat_ofNat, Nat.mod_eq_of_lt hlt]
  have hdrawn : ∀ op', s.record.drawn op' ≤ (s.record.draw op).drawn op' := by
    intro op'
    by_cases ho : op' = op
    · subst ho; simp [Record.draw]
    · simp [Record.draw, ho]
  have hticket : ∀ u, (⟨Function.update s.nextIndex op (s.nextIndex op + 1), s.word, s.value,
      Function.update s.call t (some ⟨op, s.nextIndex op, .wait .load⟩), s.record.draw op⟩ :
        State T Tid).ticket u =
      if u = t then some (op, s.nextIndex op) else s.ticket u := by
    intro u
    by_cases hu : u = t
    · simp [State.ticket, hu, Call.ticket]
    · simp [State.ticket, hu]
  refine ⟨?_, ht.version, ?_, ?_, ?_, ?_, ?_⟩
  · intro op'
    by_cases ho : op' = op
    · subst ho
      simp [Record.draw, ht.index, BitVec.ofNat_add]
    · simp [Record.draw, ho, ht.index]
  · intro u op' index hu
    rw [hticket] at hu
    split_ifs at hu with hut
    · simp only [Option.some.injEq, Prod.mk.injEq] at hu
      obtain ⟨rfl, rfl⟩ := hu
      refine ⟨by simp [Record.draw, hnew], ?_⟩
      by_contra hver
      have hpast := ht.past op (s.nextIndex op).toNat (by simpa [slotOf] using hver)
      omega
    · obtain ⟨h1, h2⟩ := ht.held u op' index hu
      exact ⟨h1.trans_le (hdrawn op'), h2⟩
  · intro u v k hu hv
    rw [hticket] at hu hv
    split_ifs at hu hv with hut hvt
    · rw [hut, hvt]
    · exfalso
      obtain rfl := Option.some.inj hu
      have := (ht.held v op _ hv).1
      omega
    · exfalso
      obtain rfl := Option.some.inj hv
      have := (ht.held u op _ hu).1
      omega
    · exact ht.unique u v k hu hv
  · intro op' i hi hver
    by_cases hnewi : op' = op ∧ i = s.record.drawn op
    · obtain ⟨rfl, rfl⟩ := hnewi
      exact ⟨t, by rw [hticket, if_pos rfl, ht.index]⟩
    · have hold : i < s.record.drawn op' := by
        by_cases ho : op' = op
        · subst ho
          simp only [Record.draw, Function.update_self] at hi
          simp only [true_and] at hnewi
          omega
        · simpa [Record.draw, ho] using hi
      obtain ⟨u, hu⟩ := ht.cover op' i hold hver
      refine ⟨u, ?_⟩
      rw [hticket, if_neg ?_, hu]
      rintro rfl
      simp [State.ticket, h] at hu
  · intro op' i hver
    exact (ht.past op' i hver).trans_le (hdrawn op')
  · intro u c hu ha
    obtain ⟨rfl, rfl⟩ | ⟨-, hu⟩ := call_update hu
    · simp [Phase.Active] at ha
    · exact ht.active u c hu ha

theorem ticket_ofExchange (c : Call) (pc : Option AdvancePc) (hpc : pc ≠ some .exchange) :
    (c.ofExchange pc).bind Call.ticket = none := by
  match pc with
  | none => rfl
  | some .wake => simp [Call.ofExchange, Call.ticket]
  | some .exchange => exact absurd rfl hpc

theorem afterExchange_ne (word : BitVec 32) : afterExchange word ≠ some .exchange := by
  unfold afterExchange
  split_ifs <;> simp

theorem exchange_not_active {c d : Call} {word : BitVec 32}
    (h : c.ofExchange (afterExchange word) = some d) : ¬ d.phase.Active := by
  unfold afterExchange at h
  split_ifs at h
  · simp only [Call.ofExchange, Option.some.injEq] at h
    subst h
    simp [Phase.Active]
  · simp [Call.ofExchange] at h

theorem getRawVersion_setWidth (v : BitVec 16) : getRawVersion (v.setWidth 32) = v := by
  simp [getRawVersion]

theorem Tickets.exchange (hb : b ≤ 32) {ver : BitVec 32 → Nat} {s : State T Tid}
    (ht : Tickets b ver s) {t : Tid} {c : Call} (h : s.call t = some c)
    (hp : c.phase = .advance .exchange) (hlt : ∀ op, s.record.drawn op < 2 ^ 64) (r : Record T)
    (hr : r.drawn = s.record.drawn) :
    Tickets b (Function.update ver (slotId (geometry b) c.index)
        (ver (slotId (geometry b) c.index) + 1))
      { s with
        word := Function.update s.word (slotId (geometry b) c.index)
          ((expectedVersion (geometry b) c.op c.index + 1).setWidth 32)
        call := Function.update s.call t
          (c.ofExchange (afterExchange (s.word (slotId (geometry b) c.index))))
        record := r } := by
  have hact := ht.active t c h (by simp [Phase.Active, hp])
  have htk : s.ticket t = some (c.op, c.index) := State.ticket_of_call h (by simp [hp])
  have hticket : ∀ u, (⟨s.nextIndex, Function.update s.word (slotId (geometry b) c.index)
        ((expectedVersion (geometry b) c.op c.index + 1).setWidth 32), s.value,
      Function.update s.call t (c.ofExchange (afterExchange (s.word (slotId (geometry b) c.index)))),
        r⟩ : State T Tid).ticket u = if u = t then none else s.ticket u := by
    intro u
    by_cases hu : u = t
    · simp [State.ticket, hu, ticket_ofExchange, afterExchange_ne]
    · simp [State.ticket, hu]
  -- the only ticket at the exact version of the slot is the one being completed
  have honly : ∀ op i, slotOf b i = slotId (geometry b) c.index →
      exactVersion b op i = ver (slotId (geometry b) c.index) → op = c.op ∧ i = c.index.toNat := by
    intro op i hs hv
    exact ticket_ext hb (hv.trans hact.symm) (by simpa [slotOf] using hs)
  refine ⟨fun op => by rw [hr]; exact ht.index op, ?_, ?_, ?_, ?_, ?_, ?_⟩
  · intro slot
    by_cases hs : slot = slotId (geometry b) c.index
    · subst hs
      simp only [Function.update_self]
      rw [getRawVersion_setWidth, expectedVersion_eq hb, hact, BitVec.ofNat_add]
      rfl
    · simpa [hs] using ht.version slot
  · intro u op index hu
    rw [hticket] at hu
    split_ifs at hu with hut
    obtain ⟨hd, hle⟩ := ht.held u op index hu
    refine ⟨by rw [hr]; exact hd, ?_⟩
    by_cases hs : slotId (geometry b) index = slotId (geometry b) c.index
    · rw [hs] at hle ⊢
      rw [Function.update_self]
      rcases Nat.lt_or_eq_of_le hle with hlt | heq
      · exact hlt
      · obtain ⟨rfl, hidx⟩ := honly op index.toNat (by simpa [slotOf] using hs) heq.symm
        have hk : index = c.index := BitVec.eq_of_toNat_eq hidx
        exact absurd (ht.unique u t _ hu (by rw [htk, hk])) hut
    · rwa [Function.update_of_ne hs]
  · intro u v k hu hv
    rw [hticket] at hu hv
    split_ifs at hu hv with hut hvt
    exact ht.unique u v k hu hv
  · intro op i hi hver
    rw [hr] at hi
    by_cases hs : slotOf b i = slotId (geometry b) c.index
    · rw [hs, Function.update_self] at hver
      obtain ⟨u, hu⟩ := ht.cover op i hi (by rw [hs]; omega)
      refine ⟨u, ?_⟩
      rw [hticket, if_neg ?_, hu]
      rintro rfl
      rw [htk, Option.some.injEq, Prod.mk.injEq] at hu
      have hi64 := hlt op
      have hidx : c.index.toNat = i := by
        rw [hu.2, BitVec.toNat_ofNat, Nat.mod_eq_of_lt (by omega)]
      rw [hidx, hu.1] at hact
      omega
    · rw [Function.update_of_ne hs] at hver
      obtain ⟨u, hu⟩ := ht.cover op i hi hver
      refine ⟨u, ?_⟩
      rw [hticket, if_neg ?_, hu]
      rintro rfl
      rw [htk, Option.some.injEq, Prod.mk.injEq] at hu
      exact hs (by rw [hu.2])
  · intro op i hver
    rw [hr]
    by_cases hs : slotOf b i = slotId (geometry b) c.index
    · rw [hs, Function.update_self] at hver
      rcases Nat.lt_or_eq_of_le (Nat.le_of_lt_succ hver) with hlt | heq
      · exact ht.past op i (by rw [hs]; exact hlt)
      · obtain ⟨rfl, rfl⟩ := honly op i hs heq
        exact (ht.held t c.op c.index htk).1
    · rw [Function.update_of_ne hs] at hver
      exact ht.past op i hver
  · intro u d hu ha
    by_cases hut : u = t
    · subst hut
      simp only [Function.update_self] at hu
      exact absurd ha (exchange_not_active hu)
    · simp only [Function.update_of_ne hut] at hu
      have hd := ht.active u d hu ha
      have hs : slotId (geometry b) d.index ≠ slotId (geometry b) c.index := by
        intro hs
        obtain ⟨ho, hi⟩ := honly d.op d.index.toNat (by simpa [slotOf] using hs) (by rw [hd, hs])
        have hk := State.ticket_of_call hu ha.ne_wake
        rw [ho, BitVec.eq_of_toNat_eq hi] at hk
        exact hut (ht.unique u t _ hk htk)
      rwa [Function.update_of_ne hs]

end Wizard.BoundedQueue
