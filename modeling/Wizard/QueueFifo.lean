import Wizard.TicketOrder

/-! The bounded queue hands the value of push `i` to pop `i`. The slot holds that
value from the end of the push callback to the start of the pop callback, and
exclusion on a slot follows from the uniqueness of the ticket at its exact
version. -/

namespace Wizard.BoundedQueue

open SlotFutex

variable {T Tid : Type*} {b : Nat}

/-- The values in the slots and the record, at the exact version `ver`. -/
structure Values (b : Nat) (ver : BitVec 32 → Nat) (s : State T Tid) : Prop where
  completed : ∀ op i, s.record.completed op i = true ↔ exactVersion b op i < ver (slotOf b i)
  started : ∀ op i, s.record.started op i = true →
    i < s.record.drawn op ∧ exactVersion b op i ≤ ver (slotOf b i)
  running : ∀ t c, s.call t = some c → c.phase = .callback ∨ c.phase = .advance .exchange →
    s.record.started c.op c.index.toNat = true
  fresh : ∀ t c, s.call t = some c → (∃ pc, c.phase = .wait pc) ∨ c.phase = .ready →
    s.record.started c.op c.index.toNat = false
  resting : ∀ i, exactVersion b .pop i = ver (slotOf b i) → s.record.started .pop i = false →
    s.record.left i = some (s.value (slotOf b i))
  leaving : ∀ t c, s.call t = some c → c.phase = .advance .exchange → c.op = .push →
    s.record.left c.index.toNat = some (s.value (slotId (geometry b) c.index))
  got : ∀ i v, s.record.got i = some v → s.record.left i = some v
  served : ∀ i, s.record.started .pop i = true ↔ (s.record.got i).isSome = true

theorem slotOf_index (b : Nat) (index : BitVec 64) :
    slotOf b index.toNat = slotId (geometry b) index := by simp [slotOf]

theorem setAt_apply {α : Type*} (f : Op → Nat → α) (op op' : Op) (i j : Nat) (a : α) :
    setAt f op i a op' j = if op' = op ∧ j = i then a else f op' j := by
  by_cases ho : op' = op
  · subst ho
    by_cases hj : j = i <;> simp [setAt, hj]
  · simp [setAt, ho]

@[simp] theorem Record.start_drawn (r : Record T) (op : Op) (i : Nat) (v : T) :
    (r.start op i v).drawn = r.drawn := rfl

@[simp] theorem Record.start_completed (r : Record T) (op : Op) (i : Nat) (v : T) :
    (r.start op i v).completed = r.completed := rfl

@[simp] theorem Record.start_left (r : Record T) (op : Op) (i : Nat) (v : T) :
    (r.start op i v).left = r.left := rfl

theorem Record.start_started (r : Record T) (op op' : Op) (i j : Nat) (v : T) :
    (r.start op i v).started op' j = if op' = op ∧ j = i then true else r.started op' j :=
  setAt_apply ..

theorem Record.start_got (r : Record T) (op : Op) (i j : Nat) (v : T) :
    (r.start op i v).got j = if op = .pop ∧ j = i then some v else r.got j := by
  cases op <;> by_cases hj : j = i <;> simp [Record.start, hj]

theorem Record.leave_left (r : Record T) (op : Op) (i j : Nat) (v : T) :
    (r.leave op i v).left j = if op = .push ∧ j = i then some v else r.left j := by
  cases op <;> by_cases hj : j = i <;> simp [Record.leave, hj]

theorem Record.complete_completed (r : Record T) (op op' : Op) (i j : Nat) :
    (r.complete op i).completed op' j = if op' = op ∧ j = i then true else r.completed op' j :=
  setAt_apply ..

section Exclusion

variable {ver : BitVec 32 → Nat} {s : State T Tid} (hb : b ≤ 32) (ht : Tickets b ver s)
include hb ht

/-- Two calls that are at the exact version of the same slot are one call. -/
theorem Tickets.active_unique {t u : Tid} {c d : Call} (hc : s.call t = some c) (hd : s.call u = some d)
    (hca : c.phase.Active) (hda : d.phase.Active)
    (hs : slotId (geometry b) c.index = slotId (geometry b) d.index) : t = u := by
  have hv : exactVersion b c.op c.index.toNat = exactVersion b d.op d.index.toNat := by
    rw [ht.active t c hc hca, ht.active u d hd hda, hs]
  obtain ⟨ho, hi⟩ := ticket_ext hb hv (by rw [slotOf_index, slotOf_index, hs])
  have hk := State.ticket_of_call hc hca.ne_wake
  rw [ho, BitVec.eq_of_toNat_eq hi] at hk
  exact ht.unique t u _ hk (State.ticket_of_call hd hda.ne_wake)

/-- The ticket an active call holds is the only one at the version of its slot. -/
theorem Tickets.active_ticket {t : Tid} {c : Call} (hc : s.call t = some c) (hca : c.phase.Active)
    {op : Op} {i : Nat} (hs : slotOf b i = slotId (geometry b) c.index)
    (hv : exactVersion b op i = ver (slotOf b i)) : op = c.op ∧ i = c.index.toNat := by
  apply ticket_ext hb
  · rw [hv, hs, ht.active t c hc hca]
  · rw [hs, slotOf_index]

end Exclusion

variable [DecidableEq Tid]

theorem Values.enter {ver : BitVec 32 → Nat} {s : State T Tid} (ht : Tickets b ver s)
    (hv : Values b ver s) {t : Tid} {c : Call} (h : s.call t = some c) (hp : c.phase = .ready) :
    Values b ver { s with
      call := Function.update s.call t (some { c with phase := .callback })
      record := s.record.start c.op c.index.toNat (s.value (slotId (geometry b) c.index)) } := by
  have hca : c.phase.Active := .inl hp
  have hact := ht.active t c h hca
  have htk := State.ticket_of_call h hca.ne_wake
  refine ⟨hv.completed, ?_, ?_, ?_, ?_, ?_, ?_, ?_⟩
  · intro op i hs
    simp only [Record.start_started] at hs
    split_ifs at hs with hk
    · obtain ⟨rfl, rfl⟩ := hk
      exact ⟨(ht.held t c.op c.index htk).1, by rw [hact, slotOf_index]⟩
    · exact hv.started op i hs
  · intro u d hu hd
    simp only [Record.start_started]
    split_ifs with hk
    · rfl
    · obtain ⟨rfl, rfl⟩ | ⟨-, hu⟩ := call_update hu
      · simp at hk
      · exact hv.running u d hu hd
  · intro u d hu hd
    obtain ⟨rfl, rfl⟩ | ⟨hut, hu⟩ := call_update hu
    · simp at hd
    · simp only [Record.start_started]
      split_ifs with hk
      · exfalso
        have hdk : s.ticket u = some (c.op, c.index) := by
          have hne : d.phase ≠ .advance .wake := by
            rcases hd with ⟨pc, hpc⟩ | hpc <;> simp [hpc]
          rw [State.ticket_of_call hu hne, hk.1, BitVec.eq_of_toNat_eq hk.2]
        exact hut (ht.unique u t _ hdk htk)
      · exact hv.fresh u d hu hd
  · intro i he hs
    simp only [Record.start_started] at hs
    split_ifs at hs with hk
    exact hv.resting i he hs
  · intro u d hu hd ho
    obtain ⟨rfl, rfl⟩ | ⟨-, hu⟩ := call_update hu
    · simp at hd
    · exact hv.leaving u d hu hd ho
  · intro i v hg
    simp only [Record.start_got] at hg
    split_ifs at hg with hk
    · obtain ⟨ho, rfl⟩ := hk
      obtain rfl := Option.some.inj hg
      have hfresh := hv.fresh t c h (.inr hp)
      rw [ho] at hact hfresh
      have hrest := hv.resting c.index.toNat (by rw [slotOf_index]; exact hact) hfresh
      rwa [slotOf_index] at hrest
    · exact hv.got i v hg
  · intro i
    simp only [Record.start_started, Record.start_got]
    by_cases hk : Op.pop = c.op ∧ i = c.index.toNat
    · rw [if_pos hk, if_pos ⟨hk.1.symm, hk.2⟩]
      simp
    · rw [if_neg hk, if_neg (fun hh => hk ⟨hh.1.symm, hh.2⟩)]
      exact hv.served i

omit [DecidableEq Tid] in
theorem Values.write (hb : b ≤ 32) {ver : BitVec 32 → Nat} {s : State T Tid} (ht : Tickets b ver s)
    (hv : Values b ver s) {t : Tid} {c : Call} (h : s.call t = some c) (hp : c.phase = .callback)
    (v : T) :
    Values b ver { s with value := Function.update s.value (slotId (geometry b) c.index) v } := by
  have hca : c.phase.Active := .inr (.inl hp)
  refine ⟨hv.completed, hv.started, hv.running, hv.fresh, ?_, ?_, hv.got, hv.served⟩
  · intro i he hs
    have hne : slotOf b i ≠ slotId (geometry b) c.index := by
      intro hslot
      obtain ⟨ho, rfl⟩ := ht.active_ticket hb h hca hslot he
      have hrun := hv.running t c h (.inl hp)
      rw [← ho] at hrun
      exact Bool.false_ne_true (hs.symm.trans hrun)
    simpa [hne] using hv.resting i he hs
  · intro u d hu hd ho
    have hne : slotId (geometry b) d.index ≠ slotId (geometry b) c.index := by
      intro hslot
      obtain rfl := ht.active_unique hb hu h (.inr (.inr hd)) hca hslot
      rw [h, Option.some.injEq] at hu
      subst hu
      simp [hp] at hd
    simpa [hne] using hv.leaving u d hu hd ho

theorem Values.leave (hb : b ≤ 32) {ver : BitVec 32 → Nat} {s : State T Tid} (ht : Tickets b ver s)
    (hv : Values b ver s) {t : Tid} {c : Call} (h : s.call t = some c) (hp : c.phase = .callback) :
    Values b ver { s with
      call := Function.update s.call t (some { c with phase := .advance .exchange })
      record := s.record.leave c.op c.index.toNat (s.value (slotId (geometry b) c.index)) } := by
  have hca : c.phase.Active := .inr (.inl hp)
  have hact := ht.active t c h hca
  refine ⟨hv.completed, hv.started, ?_, ?_, ?_, ?_, ?_, hv.served⟩
  · intro u d hu hd
    obtain ⟨rfl, rfl⟩ | ⟨-, hu⟩ := call_update hu
    · exact hv.running u c h (.inl hp)
    · exact hv.running u d hu hd
  · intro u d hu hd
    obtain ⟨rfl, rfl⟩ | ⟨-, hu⟩ := call_update hu
    · simp at hd
    · exact hv.fresh u d hu hd
  · intro i he hs
    simp only [Record.leave_left]
    split_ifs with hk
    · obtain ⟨ho, rfl⟩ := hk
      rw [slotOf_index]
    · exact hv.resting i he hs
  · intro u d hu hd ho
    simp only [Record.leave_left]
    obtain ⟨rfl, rfl⟩ | ⟨hut, hu⟩ := call_update hu
    · rw [if_pos ⟨ho, rfl⟩]
    · rw [if_neg ?_]
      · exact hv.leaving u d hu hd ho
      · rintro ⟨-, hi⟩
        have hslot := congrArg (fun i => slotId (geometry b) i) (BitVec.eq_of_toNat_eq hi)
        exact hut (ht.active_unique hb hu h (.inr (.inr hd)) hca hslot)
  · intro i v hg
    simp only [Record.leave_left]
    split_ifs with hk
    · exfalso
      obtain ⟨ho, rfl⟩ := hk
      have hs := (hv.started .pop c.index.toNat ((hv.served _).mpr (by
        rw [show s.record.got c.index.toNat = some v from hg]; rfl))).2
      rw [slotOf_index, ← hact, ho] at hs
      simp [exactVersion] at hs
    · exact hv.got i v hg

theorem Values.draw {ver : BitVec 32 → Nat} {s : State T Tid} (ht : Tickets b ver s)
    (hv : Values b ver s) {t : Tid} {op : Op} (hlt : s.record.drawn op < 2 ^ 64) :
    Values b ver { s with
      nextIndex := Function.update s.nextIndex op (s.nextIndex op + 1)
      call := Function.update s.call t (some ⟨op, s.nextIndex op, .wait .load⟩)
      record := s.record.draw op } := by
  refine ⟨hv.completed, ?_, ?_, ?_, hv.resting, ?_, hv.got, hv.served⟩
  · intro op' i hs
    obtain ⟨h1, h2⟩ := hv.started op' i hs
    refine ⟨h1.trans_le ?_, h2⟩
    by_cases ho : op' = op
    · subst ho; simp [Record.draw]
    · simp [Record.draw, ho]
  · intro u d hu hd
    obtain ⟨-, rfl⟩ | ⟨-, hu⟩ := call_update hu
    · simp at hd
    · exact hv.running u d hu hd
  · intro u d hu hd
    obtain ⟨-, rfl⟩ | ⟨-, hu⟩ := call_update hu
    · by_contra hs
      have hstart := (hv.started op _ (by simpa [Record.draw] using hs)).1
      rw [ht.index op, BitVec.toNat_ofNat, Nat.mod_eq_of_lt hlt] at hstart
      omega
    · exact hv.fresh u d hu hd
  · intro u d hu hd ho
    obtain ⟨-, rfl⟩ | ⟨-, hu⟩ := call_update hu
    · simp at hd
    · exact hv.leaving u d hu hd ho

theorem Values.wait {ver : BitVec 32 → Nat} {s : State T Tid} (hv : Values b ver s) {t : Tid}
    {c : Call} {pc : WaitPc} (h : s.call t = some c) (hp : c.phase = .wait pc)
    (words : BitVec 32 → BitVec 32) (next : Option WaitPc) :
    Values b ver { s with
      word := words
      call := Function.update s.call t (some { c with phase := .ofWait next }) } := by
  refine ⟨hv.completed, hv.started, ?_, ?_, hv.resting, ?_, hv.got, hv.served⟩
  · intro u d hu hd
    obtain ⟨-, rfl⟩ | ⟨-, hu⟩ := call_update hu
    · cases next <;> simp [Phase.ofWait] at hd
    · exact hv.running u d hu hd
  · intro u d hu hd
    obtain ⟨-, rfl⟩ | ⟨-, hu⟩ := call_update hu
    · exact hv.fresh t c h (.inl ⟨pc, hp⟩)
    · exact hv.fresh u d hu hd
  · intro u d hu hd ho
    obtain ⟨-, rfl⟩ | ⟨-, hu⟩ := call_update hu
    · cases next <;> simp [Phase.ofWait] at hd
    · exact hv.leaving u d hu hd ho

theorem Values.exchange (hb : b ≤ 32) {ver : BitVec 32 → Nat} {s : State T Tid} (ht : Tickets b ver s)
    (hv : Values b ver s) {t : Tid} {c : Call} (h : s.call t = some c)
    (hp : c.phase = .advance .exchange) (words : BitVec 32 → BitVec 32) (word : BitVec 32) :
    Values b (Function.update ver (slotId (geometry b) c.index)
        (ver (slotId (geometry b) c.index) + 1))
      { s with
        word := words
        call := Function.update s.call t (c.ofExchange (afterExchange word))
        record := s.record.complete c.op c.index.toNat } := by
  have hca : c.phase.Active := .inr (.inr hp)
  have hact := ht.active t c h hca
  have hcall : ∀ u d, Function.update s.call t (c.ofExchange (afterExchange word)) u = some d →
      (u ≠ t ∧ s.call u = some d) ∨ (u = t ∧ d.phase = .advance .wake) := by
    intro u d hu
    by_cases hut : u = t
    · right
      subst hut
      refine ⟨rfl, ?_⟩
      simp only [Function.update_self, afterExchange] at hu
      split_ifs at hu
      · simp only [Call.ofExchange, Option.some.injEq] at hu
        rw [← hu]
      · simp [Call.ofExchange] at hu
    · exact .inl ⟨hut, by simpa [hut] using hu⟩
  have hver : ∀ i, ver (slotOf b i) ≤ Function.update ver (slotId (geometry b) c.index)
      (ver (slotId (geometry b) c.index) + 1) (slotOf b i) := by
    intro i
    by_cases hs : slotOf b i = slotId (geometry b) c.index
    · rw [hs, Function.update_self]; omega
    · rw [Function.update_of_ne hs]
  refine ⟨?_, ?_, ?_, ?_, ?_, ?_, hv.got, hv.served⟩
  · intro op i
    simp only [Record.complete_completed]
    by_cases hs : slotOf b i = slotId (geometry b) c.index
    · rw [hs, Function.update_self]
      split_ifs with hk
      · obtain ⟨rfl, rfl⟩ := hk
        simp [hact]
      · rw [hv.completed op i, hs]
        have hne : exactVersion b op i ≠ ver (slotId (geometry b) c.index) :=
          fun he => hk (ht.active_ticket hb h hca hs (by rw [he, hs]))
        omega
    · rw [Function.update_of_ne hs, if_neg ?_]
      · exact hv.completed op i
      · rintro ⟨-, rfl⟩
        exact hs (slotOf_index b c.index)
  · intro op i hs
    obtain ⟨h1, h2⟩ := hv.started op i hs
    exact ⟨h1, h2.trans (hver i)⟩
  · intro u d hu hd
    rcases hcall u d hu with ⟨-, hu⟩ | ⟨-, hw⟩
    · exact hv.running u d hu hd
    · simp [hw] at hd
  · intro u d hu hd
    rcases hcall u d hu with ⟨-, hu⟩ | ⟨-, hw⟩
    · exact hv.fresh u d hu hd
    · simp [hw] at hd
  · intro i he hs
    by_cases hslot : slotOf b i = slotId (geometry b) c.index
    · rw [hslot, Function.update_self] at he
      have hprev : exactVersion b .push i = ver (slotOf b i) := by
        rw [hslot]
        simp only [exactVersion] at he ⊢
        omega
      obtain ⟨ho, rfl⟩ := ht.active_ticket hb h hca hslot hprev
      rw [hslot]
      exact hv.leaving t c h hp ho.symm
    · rw [Function.update_of_ne hslot] at he
      exact hv.resting i he hs
  · intro u d hu hd ho
    rcases hcall u d hu with ⟨-, hu⟩ | ⟨-, hw⟩
    · exact hv.leaving u d hu hd ho
    · simp [hw] at hd

theorem Values.wake {ver : BitVec 32 → Nat} {s : State T Tid} (hv : Values b ver s) {t : Tid}
    (slot : BitVec 32) :
    Values b ver { s with
      call := Function.update (fun u => (s.call u).map (Call.woken (geometry b) slot)) t none } := by
  have hcall : ∀ u d, Function.update (fun u => (s.call u).map (Call.woken (geometry b) slot)) t none u =
      some d → ∃ e, s.call u = some e ∧ d.op = e.op ∧ d.index = e.index ∧
        (d.phase = e.phase ∨ ∃ pc pc', d.phase = .wait pc ∧ e.phase = .wait pc') := by
    intro u d hu
    by_cases hut : u = t
    · simp [hut] at hu
    · simp only [Function.update_of_ne hut, Option.map_eq_some_iff] at hu
      obtain ⟨e, he, rfl⟩ := hu
      refine ⟨e, he, ?_⟩
      obtain ⟨op, index, phase⟩ := e
      unfold Call.woken
      split_ifs <;> cases phase <;> simp [Phase.woken]
  refine ⟨hv.completed, hv.started, ?_, ?_, hv.resting, ?_, hv.got, hv.served⟩
  · intro u d hu hd
    obtain ⟨e, he, ho, hi, hph | ⟨pc, pc', hd', -⟩⟩ := hcall u d hu
    · rw [ho, hi]
      exact hv.running u e he (hph ▸ hd)
    · simp [hd'] at hd
  · intro u d hu hd
    obtain ⟨e, he, ho, hi, hph | ⟨pc, pc', -, he'⟩⟩ := hcall u d hu
    · rw [ho, hi]
      exact hv.fresh u e he (hph ▸ hd)
    · rw [ho, hi]
      exact hv.fresh u e he (.inl ⟨pc', he'⟩)
  · intro u d hu hd hop
    obtain ⟨e, he, ho, hi, hph | ⟨pc, pc', hd', -⟩⟩ := hcall u d hu
    · rw [hi]
      exact hv.leaving u e he (hph ▸ hd) (ho ▸ hop)
    · simp [hd'] at hd

def Inv (b : Nat) (s : State T Tid) : Prop :=
  ∃ ver, Tickets b ver s ∧ Values b ver s

omit [DecidableEq Tid] in
theorem inv_init {s : State T Tid} (h : init s) : Inv b s := by
  obtain ⟨hidx, hword, hcall, hrec⟩ := h
  have hticket : ∀ t, s.ticket t = none := fun t => by simp [State.ticket, hcall t]
  refine ⟨fun _ => 0, ?_, ?_⟩
  · constructor <;> simp [hidx, hword, hcall, hrec, hticket, Record.empty, getRawVersion]
  · constructor <;> simp [hcall, hrec, Record.empty, exactVersion]

theorem inv_step (hb : b ≤ 32) {s s' : State T Tid} (hi : Inv b s) (hbd : Bounded (geometry b) s)
    (h : Step (geometry b) s s') : Inv b s' := by
  obtain ⟨ver, ht, hv⟩ := hi
  cases h with
  | draw t op h => exact ⟨ver, ht.draw h (hbd.1 op), hv.draw ht (hbd.1 op)⟩
  | wait t c pc word next h hp hw =>
    refine ⟨ver, ht.setPhase h (by simp [hp]) (by cases next <;> simp [Phase.ofWait]) rfl rfl ?_ rfl ?_,
      hv.wait h hp _ next⟩
    · intro slot
      by_cases hs : slot = slotId (geometry b) c.index
      · subst hs
        simpa using WaitStep.raw_eq hw
      · simp [hs]
    · intro ha
      cases next with
      | some pc' => simp [Phase.ofWait, Phase.Active] at ha
      | none =>
        have hreach := WaitStep.reached hw
        rw [ht.version, expectedVersion_eq hb] at hreach
        exact ht.exact_of_truncated hb hbd (State.ticket_of_call h (by simp [hp])) hreach
  | enter t c h hp =>
    exact ⟨ver, ht.setPhase h (by simp [hp]) (by simp) rfl rfl (fun _ => rfl) rfl
      (fun _ => ht.active t c h (.inl hp)), hv.enter ht h hp⟩
  | write t c v h hp => exact ⟨ver, ht.of_same rfl rfl (fun _ => rfl) rfl ht.active, hv.write hb ht h hp v⟩
  | leave t c h hp =>
    exact ⟨ver, ht.setPhase h (by simp [hp]) (by simp) rfl rfl (fun _ => rfl) rfl
      (fun _ => ht.active t c h (.inr (.inl hp))), hv.leave hb ht h hp⟩
  | exchange t c h hp =>
    exact ⟨_, ht.exchange hb h hp hbd.1 _ rfl, hv.exchange hb ht h hp _ _⟩
  | wake t c h hp => exact ⟨ver, ht.wake h hp _, hv.wake _⟩

omit [DecidableEq Tid] in
theorem bounded_init {s : State T Tid} (h : init s) : Bounded (geometry b) s := by
  refine ⟨by simp [h.2.2.2, Record.empty], fun op slot => ?_⟩
  have he : {t | ∃ index, s.ticket t = some (op, index) ∧ slotId (geometry b) index = slot} = ∅ := by
    ext t
    simp [State.ticket, h.2.2.1 t]
  rw [he, Set.encard_empty]
  norm_num

theorem reachable_inv (hb : b ≤ 32) {s : State T Tid}
    (h : Reachable init (Within (Step (geometry b)) (Bounded (geometry b))) s) :
    Inv b s ∧ Bounded (geometry b) s := by
  apply h.invariant
  · intro s hs
    exact ⟨inv_init hs, bounded_init hs⟩
  · intro s s' _ hi hs
    exact ⟨inv_step hb hi.1 hi.2 hs.1, hs.2⟩

omit [DecidableEq Tid] in
theorem unpopped_le_capacity (hb : b ≤ 32) {ver : BitVec 32 → Nat} {s : State T Tid}
    (hv : Values b ver s) :
    {i | s.record.completed .push i = true ∧ s.record.completed .pop i = false}.encard ≤ 2 ^ b := by
  have hinj : Set.InjOn (fun i => i % 2 ^ b)
      {i | s.record.completed .push i = true ∧ s.record.completed .pop i = false} := by
    have hmid : ∀ i, s.record.completed .push i = true → s.record.completed .pop i = false →
        exactVersion b .pop i = ver (slotOf b i) := by
      intro i hpush hpop
      have h1 := (hv.completed .push i).mp hpush
      have h2 : ¬ exactVersion b .pop i < ver (slotOf b i) := by
        rw [← hv.completed .pop i, hpop]
        simp
      simp only [exactVersion] at h1 h2 ⊢
      omega
    rintro i ⟨hi, hi'⟩ j ⟨hj, hj'⟩ he
    have hs := (slotOf_eq_iff hb i j).mpr he
    exact (ticket_ext hb ((hmid i hi hi').trans (by rw [hs, hmid j hj hj'])) hs).2
  rw [← hinj.encard_image]
  calc ((fun i => i % 2 ^ b) '' _).encard
      ≤ (Set.Iio (2 ^ b)).encard := by
        apply Set.encard_le_encard
        rintro _ ⟨i, -, rfl⟩
        exact Nat.mod_lt i (Nat.two_pow_pos b)
    _ = 2 ^ b := by
        rw [← Finset.coe_Iio, Set.encard_coe_eq_coe_finsetCard, Nat.card_Iio]
        norm_num

omit [DecidableEq Tid] in
/-- A drawn ticket is completed, or held by exactly one call. -/
theorem drawn_completed_or_held {ver : BitVec 32 → Nat} {s : State T Tid} (ht : Tickets b ver s)
    (hv : Values b ver s) {op : Op} {i : Nat} (hlt : s.record.drawn op < 2 ^ 64)
    (hi : i < s.record.drawn op) :
    (s.record.completed op i = true ∧ ∀ t, s.ticket t ≠ some (op, BitVec.ofNat 64 i)) ∨
      (s.record.completed op i = false ∧ ∃! t, s.ticket t = some (op, BitVec.ofNat 64 i)) := by
  have hnat : (BitVec.ofNat 64 i).toNat = i := by
    rw [BitVec.toNat_ofNat, Nat.mod_eq_of_lt (by omega)]
  by_cases hc : s.record.completed op i = true
  · refine .inl ⟨hc, fun t htk => ?_⟩
    have hle := (ht.held t op _ htk).2
    have hgt := (hv.completed op i).mp hc
    rw [hnat] at hle
    exact absurd hgt (not_lt_of_ge hle)
  · have hle := mt (hv.completed op i).mpr hc
    obtain ⟨t, htk⟩ := ht.cover op i hi (by omega)
    exact .inr ⟨by simpa using hc, t, htk, fun u hu => ht.unique u t _ hu htk⟩

/-- In every run that keeps within the bounds: callbacks exclude each other on a
slot; a drawn ticket is completed or held by exactly one call; pop `i` starts
after push `i` completed, on the value push `i` left; no later push enters the
slot before pop `i` completed; and at most `capacity` completed pushes wait for
their pop. -/
theorem ticket_fifo (hb : b ≤ 32) {s : State T Tid}
    (h : Reachable init (Within (Step (geometry b)) (Bounded (geometry b))) s) :
    (∀ t u c d, s.call t = some c → s.call u = some d → c.phase = .callback → d.phase = .callback →
      slotId (geometry b) c.index = slotId (geometry b) d.index → t = u) ∧
    (∀ op i, i < s.record.drawn op →
      (s.record.completed op i = true ∧ ∀ t, s.ticket t ≠ some (op, BitVec.ofNat 64 i)) ∨
      (s.record.completed op i = false ∧ ∃! t, s.ticket t = some (op, BitVec.ofNat 64 i))) ∧
    (∀ i, s.record.started .pop i = true → s.record.completed .push i = true ∧
      ∃ v, s.record.got i = some v ∧ s.record.left i = some v) ∧
    (∀ i j, i < j → slotOf b i = slotOf b j → s.record.started .push j = true →
      s.record.completed .pop i = true) ∧
    {i | s.record.completed .push i = true ∧ s.record.completed .pop i = false}.encard ≤
      (geometry b).capacity.toNat := by
  obtain ⟨⟨ver, ht, hv⟩, hbd⟩ := reachable_inv hb h
  refine ⟨?_, ?_, ?_, ?_, ?_⟩
  · intro t u c d hc hd hcp hdp hs
    exact ht.active_unique hb hc hd (.inr (.inl hcp)) (.inr (.inl hdp)) hs
  · intro op i hi
    exact drawn_completed_or_held ht hv (hbd.1 op) hi
  · intro i hi
    obtain ⟨v, hg⟩ := Option.isSome_iff_exists.mp ((hv.served i).mp hi)
    refine ⟨?_, v, hg, hv.got i v hg⟩
    have hle := (hv.started .pop i hi).2
    rw [hv.completed]
    simp only [exactVersion] at hle ⊢
    omega
  · intro i j hij hs hj
    have hle := (hv.started .push j hj).2
    rw [hv.completed, hs]
    refine lt_of_lt_of_le ?_ hle
    have hmod := (slotOf_eq_iff hb i j).mp hs
    have hi := Nat.div_add_mod i (2 ^ b)
    have hj := Nat.div_add_mod j (2 ^ b)
    have hdiv : i / 2 ^ b < j / 2 ^ b := by
      by_contra hge
      have := Nat.mul_le_mul_left (2 ^ b) (Nat.le_of_not_gt hge)
      omega
    simp only [exactVersion]
    omega
  · rw [capacity_toNat hb]
    exact unpopped_le_capacity hb hv

/-- One push and one pop through a queue of capacity one. -/
theorem ticket_fifo_handover : ∃ s : State Nat Bool,
    Reachable init (Within (Step (geometry 0)) (Bounded (geometry 0))) s ∧
    s.record.started .pop 0 = true ∧ s.record.got 0 = some 7 ∧
    s.record.completed .push 0 = true ∧ s.record.left 0 = some 7 := by
  have hbd : ∀ s : State Nat Bool, s.record.drawn .push < 2 ^ 64 → s.record.drawn .pop < 2 ^ 64 →
      Bounded (geometry 0) s := by
    intro s hpush hpop
    refine ⟨fun op => by cases op <;> assumption, fun op slot => ?_⟩
    refine (Set.encard_le_encard (Set.subset_univ _)).trans_lt ?_
    rw [Set.encard_univ, ENat.card_eq_coe_fintype_card, Fintype.card_bool]
    norm_num
  have h₀ : Reachable init (Within (Step (geometry 0)) (Bounded (geometry 0)))
      (⟨fun _ => 0, fun _ => 0, fun _ => 0, fun _ => none, .empty⟩ : State Nat Bool) :=
    .of_init ⟨fun _ => rfl, fun _ => rfl, fun _ => rfl, rfl⟩
  have h₁ := h₀.tail ⟨.draw _ true .push rfl, hbd _ (by decide) (by decide)⟩
  have h₂ := h₁.tail ⟨.wait _ true _ _ _ _ rfl rfl (.load _), hbd _ (by decide) (by decide)⟩
  have h₃ := h₂.tail ⟨.enter _ true _ rfl rfl, hbd _ (by decide) (by decide)⟩
  have h₄ := h₃.tail ⟨.write _ true _ 7 rfl rfl, hbd _ (by decide) (by decide)⟩
  have h₅ := h₄.tail ⟨.leave _ true _ rfl rfl, hbd _ (by decide) (by decide)⟩
  have h₆ := h₅.tail ⟨.exchange _ true _ rfl rfl, hbd _ (by decide) (by decide)⟩
  have h₇ := h₆.tail ⟨.draw _ false .pop rfl, hbd _ (by decide) (by decide)⟩
  have h₈ := h₇.tail ⟨.wait _ false _ _ _ _ rfl rfl (.load _), hbd _ (by decide) (by decide)⟩
  have h₉ := h₈.tail ⟨.enter _ false _ rfl rfl, hbd _ (by decide) (by decide)⟩
  obtain ⟨hdone, v, hgot, hleft⟩ := (ticket_fifo (by decide) h₉).2.2.1 0 (by decide)
  exact ⟨_, h₉, by decide, by decide, hdone, by decide⟩

end Wizard.BoundedQueue
