import Mathlib.Order.Bounds.Basic
import Wizard.TicketOrder

/-! The bounded queue in the hands of one thread, with `clear` and `reserve_and_clear`. A call
that has to wait waits for ever, and has no result. Emptying keeps the indices, and a new capacity
starts them over; between two starts they must not wrap, since `size` compares them. -/

namespace Wizard.BoundedQueue.Alone

open SlotFutex

variable {T : Type*}

structure Queue (T : Type*) where
  geometry : Geometry
  nextIndex : Op → BitVec 64
  word : BitVec 32 → BitVec 32
  value : BitVec 32 → T

namespace Queue

def capacity (q : Queue T) : BitVec 64 := q.geometry.capacity

def size (q : Queue T) : BitVec 64 :=
  if q.nextIndex .pop < q.nextIndex .push then q.nextIndex .push - q.nextIndex .pop else 0

/-- The value that the callback is called on comes with the queue. -/
def process (q : Queue T) (op : Op) (index : BitVec 64) (callback : T → T) : Option (T × Queue T) :=
  let slot := slotId q.geometry index
  let version := expectedVersion q.geometry op index
  if getRawVersion (q.word slot) = version then
    some (q.value slot, { q with
      value := Function.update q.value slot (callback (q.value slot))
      word := Function.update q.word slot ((version + 1).setWidth 32) })
  else none

/-- `push` and `pop` with a callback. -/
def draw (q : Queue T) (op : Op) (callback : T → T) : Option (T × Queue T) :=
  { q with nextIndex := Function.update q.nextIndex op (q.nextIndex op + 1) }.process op (q.nextIndex op) callback

/-- `while (size() > 0)`. -/
def clearLoop : Nat → Queue T → Option (Queue T)
  | 0, q => if 0 < q.size then none else some q
  | fuel + 1, q => if 0 < q.size then (q.draw .pop id).bind fun r => clearLoop fuel r.2 else some q

/-- Each turn takes one value out. -/
def clear (q : Queue T) : Option (Queue T) := clearLoop q.size.toNat q

def reserveAndClear [Inhabited T] (q : Queue T) (minCapacity : BitVec 64) : Option (Queue T) :=
  if nextPowTwo minCapacity ≠ q.capacity then
    some ⟨.reserve minCapacity, fun _ => 0, fun _ => 0, fun _ => default⟩
  else q.clear

/-- The constructor. -/
def make [Inhabited T] (capacity : BitVec 64) : Option (Queue T) :=
  (⟨⟨0, 0⟩, fun _ => 0, fun _ => 0, fun _ => default⟩ : Queue T).reserveAndClear capacity

end Queue

/-- What the callback of a `pop` leaves in the slot is up to it, and what a move leaves up to `T`. -/
inductive Request (T : Type*)
  | push (v : T)
  | pop (callback : T → T)
  | clear
  | reserveAndClear (minCapacity : BitVec 64)

/-- The caller looks at `size()` and `capacity()` first. -/
def Request.Allowed (q : Queue T) : Request T → Prop
  | .push _ => q.size < q.capacity
  | .pop _ => 0 < q.size
  | .clear => True
  | .reserveAndClear n => n.toNat ≤ 2 ^ 32

/-- What a `pop` is to get. -/
def Request.answer (values : List T) : Request T → Option T
  | .pop _ => values.head?
  | _ => none

/-- The queue, the values that are in it, the argument of the last reserve, and how many values
have been pushed since the indices were last at 0. -/
structure State (T : Type*) where
  queue : Queue T
  values : List T
  reserved : BitVec 64
  pushed : Nat

def State.after (s : State T) (queue : Queue T) : Request T → State T
  | .push v => ⟨queue, s.values ++ [v], s.reserved, s.pushed + 1⟩
  | .pop _ => ⟨queue, s.values.tail, s.reserved, s.pushed⟩
  | .clear => ⟨queue, [], s.reserved, s.pushed⟩
  | .reserveAndClear n => ⟨queue, [], n, if nextPowTwo n = s.queue.capacity then s.pushed else 0⟩

section Runs

variable [Inhabited T]

def Queue.call (q : Queue T) : Request T → Option (Option T × Queue T)
  | .push v => (q.draw .push fun _ => v).map fun r => (none, r.2)
  | .pop callback => (q.draw .pop callback).map fun r => (some r.1, r.2)
  | .clear => q.clear.map fun q => (none, q)
  | .reserveAndClear n => (q.reserveAndClear n).map fun q => (none, q)

def init (s : State T) : Prop :=
  s.reserved.toNat ≤ 2 ^ 32 ∧ Queue.make s.reserved = some s.queue ∧ s.values = [] ∧ s.pushed = 0

inductive Step : State T → State T → Prop
  | call (s r v queue) (ha : r.Allowed s.queue) (h : s.queue.call r = some (v, queue)) : Step s (s.after queue r)

/-- The queue shows what is in it, and no call that is allowed waits. -/
structure Served (s : State T) : Prop where
  size : s.queue.size.toNat = s.values.length
  capacity : IsLeast {c | (∃ j, c = 2 ^ j) ∧ max s.reserved.toNat 1 ≤ c} s.queue.capacity.toNat
  calls : ∀ r, r.Allowed s.queue → ∃ queue, s.queue.call r = some (r.answer s.values, queue)

end Runs

/-- The indices have not wrapped. -/
def Counted (s : State T) : Prop := s.pushed < 2 ^ 64

/-- A call that need not wait is a run of the queue under contention, by a thread that nobody disturbs. -/
theorem draw_run {Tid : Type*} [DecidableEq Tid] {q q' : Queue T} {op : Op} {callback : T → T} {v : T}
    (h : q.draw op callback = some (v, q'))
    (hfree : isTaggedVersion (q.word (slotId q.geometry (q.nextIndex op))) = false)
    {s : BoundedQueue.State T Tid} {t : Tid} (hidle : s.call t = none) (hindex : s.nextIndex = q.nextIndex)
    (hword : s.word = q.word) (hvalue : s.value = q.value) :
    ∃ s', Relation.ReflTransGen (BoundedQueue.Step q.geometry) s s' ∧ s'.call t = none ∧ s'.nextIndex = q'.nextIndex ∧
      s'.word = q'.word ∧ s'.value = q'.value := by
  rw [Queue.draw, Queue.process] at h
  simp only at h
  split at h
  · rename_i hversion
    cases h
    rw [← hindex, ← hword] at hversion hfree
    have hload : afterLoad (expectedVersion q.geometry op (s.nextIndex op))
        (s.word (slotId q.geometry (s.nextIndex op))) = none := by
      rw [afterLoad, if_pos hversion]
    have hexchange : afterExchange (s.word (slotId q.geometry (s.nextIndex op))) = none := by
      rw [afterExchange, hfree]
      rfl
    have h₁ := Relation.ReflTransGen.single (BoundedQueue.Step.draw (g := q.geometry) s t op hidle)
    have h₂ := h₁.tail (.wait _ t _ .load _ _ (Function.update_self ..) rfl (.load _))
    have h₃ := h₂.tail (.enter _ t _ (Function.update_self ..) (by simp only [hload]; rfl))
    have h₄ := h₃.tail (.write _ t _ (callback (q.value (slotId q.geometry (q.nextIndex op))))
      (Function.update_self ..) rfl)
    have h₅ := h₄.tail (.leave _ t _ (Function.update_self ..) rfl)
    have h₆ := h₅.tail (.exchange _ t _ (Function.update_self ..) rfl)
    refine ⟨_, h₆, ?_, ?_, ?_, ?_⟩
    · simp [Call.ofExchange, hexchange]
    · simp [hindex]
    · simp [hindex, hword]
    · simp [hindex, hvalue]
  · cases h

/-- The call that ticket `i` is for, with `n` values from ticket `p` on. -/
def due (p n i : Nat) : Op := if i < p + n then .pop else .push

/-- The values `l` are in the queue from ticket `p` on, and the slots wait for the tickets that come next. -/
structure Holds (b p : Nat) (q : Queue T) (l : List T) : Prop where
  bits : b ≤ 32
  shape : q.geometry = geometry b
  fits : l.length ≤ 2 ^ b
  popIndex : q.nextIndex .pop = BitVec.ofNat 64 p
  pushIndex : q.nextIndex .push = BitVec.ofNat 64 (p + l.length)
  word : ∀ i, p ≤ i → i < p + 2 ^ b →
    q.word (slotOf b i) = (BitVec.ofNat 16 (exactVersion b (due p l.length i) i)).setWidth 32
  stored : ∀ i (hi : i < l.length), q.value (slotOf b (p + i)) = l[i]

section Tickets

variable {b p i j : Nat} {q : Queue T} {l : List T}

/-- Within a round no two tickets share a slot. -/
theorem slotOf_ne (hb : b ≤ 32) (hpi : p ≤ i) (hip : i < p + 2 ^ b) (hpj : p ≤ j) (hjp : j < p + 2 ^ b) (hij : i ≠ j) :
    slotOf b i ≠ slotOf b j := by
  intro he
  have hm := (slotOf_eq_iff hb i j).1 he
  rcases Nat.lt_or_gt_of_ne hij with hlt | hlt
  · have hdvd := (Nat.modEq_iff_dvd' hlt.le).1 hm
    have hle := Nat.le_of_dvd (by omega) hdvd
    omega
  · have hdvd := (Nat.modEq_iff_dvd' hlt.le).1 hm.symm
    have hle := Nat.le_of_dvd (by omega) hdvd
    omega

theorem draw_eq (hb : b ≤ 32) (hg : q.geometry = geometry b) {op : Op} (hi : i < 2 ^ 64)
    (hindex : q.nextIndex op = BitVec.ofNat 64 i)
    (hw : q.word (slotOf b i) = (BitVec.ofNat 16 (exactVersion b op i)).setWidth 32) (callback : T → T) :
    q.draw op callback = some (q.value (slotOf b i), {
      geometry := q.geometry
      nextIndex := Function.update q.nextIndex op (BitVec.ofNat 64 (i + 1))
      word := Function.update q.word (slotOf b i) ((BitVec.ofNat 16 (exactVersion b op i + 1)).setWidth 32)
      value := Function.update q.value (slotOf b i) (callback (q.value (slotOf b i))) }) := by
  have hversion : expectedVersion q.geometry op (BitVec.ofNat 64 i) = BitVec.ofNat 16 (exactVersion b op i) := by
    rw [hg, expectedVersion_eq hb, BitVec.toNat_ofNat, Nat.mod_eq_of_lt hi]
  have hslot : slotId q.geometry (BitVec.ofNat 64 i) = slotOf b i := by rw [hg]
  have hraw : getRawVersion (q.word (slotOf b i)) = BitVec.ofNat 16 (exactVersion b op i) := by
    rw [hw, getRawVersion]
    simp
  rw [Queue.draw, hindex, Queue.process]
  simp only [hversion, hslot, hraw, if_true, BitVec.ofNat_add]
  rfl

theorem Holds.size (h : Holds b p q l) (hlt : p + l.length < 2 ^ 64) : q.size.toNat = l.length := by
  have hpop : (BitVec.ofNat 64 p).toNat = p := by rw [BitVec.toNat_ofNat, Nat.mod_eq_of_lt (by omega)]
  have hpush : (BitVec.ofNat 64 (p + l.length)).toNat = p + l.length := by
    rw [BitVec.toNat_ofNat, Nat.mod_eq_of_lt hlt]
  rw [Queue.size, h.popIndex, h.pushIndex]
  split
  · rename_i hlt
    rw [BitVec.toNat_sub_of_le (BitVec.le_of_lt hlt), hpop, hpush, Nat.add_sub_cancel_left]
  · rename_i hge
    rw [BitVec.lt_def, hpop, hpush] at hge
    have hz : l.length = 0 := by omega
    rw [hz]
    rfl

theorem Holds.capacity (h : Holds b p q l) : q.capacity.toNat = 2 ^ b := by
  rw [Queue.capacity, h.shape, capacity_toNat h.bits]

theorem Holds.push (h : Holds b p q l) (hlt : p + l.length < 2 ^ 64) (hroom : l.length < 2 ^ b) (v : T) :
    ∃ r, q.draw .push (fun _ => v) = some r ∧ Holds b p r.2 (l ++ [v]) := by
  have hword := h.word (p + l.length) (by omega) (by omega)
  rw [due, if_neg (lt_irrefl _)] at hword
  have hne : ∀ i, p ≤ i → i < p + 2 ^ b → i ≠ p + l.length → slotOf b i ≠ slotOf b (p + l.length) :=
    fun i hpi hip hi => slotOf_ne h.bits hpi hip (by omega) (by omega) hi
  refine ⟨_, draw_eq h.bits h.shape hlt h.pushIndex hword _, h.bits, h.shape, ?_, h.popIndex, ?_, ?_, ?_⟩
  · rw [List.length_append]
    exact hroom
  · rw [List.length_append]
    exact Function.update_self Op.push _ q.nextIndex
  · intro i hpi hip
    by_cases hi : i = p + l.length
    · subst hi
      rw [due, if_pos (by simp)]
      exact Function.update_self ..
    · have hlen : i < p + (l ++ [v]).length ↔ i < p + l.length := by
        rw [List.length_append, List.length_singleton]
        omega
      have hdue : due p (l ++ [v]).length i = due p l.length i := by
        simp only [due, hlen]
      rw [hdue, ← h.word i hpi hip]
      exact Function.update_of_ne (hne i hpi hip hi) ..
  · intro i hi
    by_cases hlast : i = l.length
    · subst hlast
      rw [List.getElem_append_right le_rfl]
      simp
    · rw [List.length_append, List.length_singleton] at hi
      rw [List.getElem_append_left (by omega), ← h.stored i (by omega)]
      exact Function.update_of_ne (hne _ (by omega) (by omega) (by omega)) ..

theorem exactVersion_pop_add_one : exactVersion b .pop i + 1 = exactVersion b .push (i + 2 ^ b) := by
  have hd : (i + 2 ^ b) / 2 ^ b = i / 2 ^ b + 1 := Nat.add_div_right i (Nat.two_pow_pos b)
  simp only [exactVersion, hd]
  omega

theorem Holds.pop {v : T} (h : Holds b p q (v :: l)) (hlt : p < 2 ^ 64) (callback : T → T) :
    ∃ r, q.draw .pop callback = some r ∧ r.1 = v ∧ Holds b (p + 1) r.2 l := by
  have hpos := Nat.two_pow_pos b
  have hfits : l.length + 1 ≤ 2 ^ b := h.fits
  have hword := h.word p le_rfl (by omega)
  rw [due, if_pos (by simp)] at hword
  have hne : ∀ i, p < i → i < p + 2 ^ b → slotOf b i ≠ slotOf b p :=
    fun i hpi hip => slotOf_ne h.bits hpi.le hip le_rfl (by omega) hpi.ne'
  have hlen : p + (v :: l).length = p + 1 + l.length := by
    rw [List.length_cons]
    omega
  refine ⟨_, draw_eq h.bits h.shape hlt h.popIndex hword callback, h.stored 0 (by simp), h.bits, h.shape, by omega, ?_,
    ?_, ?_, ?_⟩
  · exact Function.update_self Op.pop _ q.nextIndex
  · rw [← hlen, ← h.pushIndex]
    rfl
  · intro i hpi hip
    by_cases hi : i = p + 2 ^ b
    · subst hi
      have hslot : slotOf b (p + 2 ^ b) = slotOf b p := by
        rw [slotOf_eq_iff h.bits, Nat.add_mod_right]
      rw [due, if_neg (by omega), hslot, ← exactVersion_pop_add_one]
      exact Function.update_self ..
    · have hdue : due (p + 1) l.length i = due p (v :: l).length i := by rw [due, due, hlen]
      rw [hdue, ← h.word i (by omega) (by omega)]
      exact Function.update_of_ne (hne i (by omega) (by omega)) ..
  · intro i hi
    have hstored := h.stored (i + 1) (by simpa using hi)
    rw [List.getElem_cons_succ] at hstored
    rw [← hstored, show p + 1 + i = p + (i + 1) by omega]
    exact Function.update_of_ne (hne _ (by omega) (by omega)) ..

theorem Holds.size_pos_iff (h : Holds b p q l) (hlt : p + l.length < 2 ^ 64) : 0 < q.size ↔ l ≠ [] := by
  rw [BitVec.lt_def, h.size hlt, ← List.length_pos_iff]
  rfl

theorem Holds.clear (h : Holds b p q l) (hlt : p + l.length < 2 ^ 64) :
    ∃ q', q.clear = some q' ∧ Holds b (p + l.length) q' [] := by
  rw [Queue.clear, h.size hlt]
  induction l generalizing p q with
  | nil =>
    have hnone : ¬ 0 < q.size := fun hpos => (h.size_pos_iff hlt).1 hpos rfl
    exact ⟨q, by rw [List.length_nil, Queue.clearLoop, if_neg hnone], h⟩
  | cons v l ih =>
    have hlen : p + (v :: l).length = p + 1 + l.length := by
      rw [List.length_cons]
      omega
    obtain ⟨r, hr, -, hnext⟩ := h.pop (by omega) id
    rw [hlen] at hlt ⊢
    obtain ⟨q', hq', hrest⟩ := ih hnext hlt
    refine ⟨q', ?_, hrest⟩
    rw [List.length_cons, Queue.clearLoop, if_pos ((h.size_pos_iff (by rwa [hlen])).2 (List.cons_ne_nil v l)), hr]
    exact hq'

theorem geometry_reserve {n : BitVec 64} (hb : b ≤ 32) (hn : (nextPowTwo n).toNat = 2 ^ b) :
    Geometry.reserve n = geometry b := by
  have hsame : nextPowTwo n = nextPowTwo (BitVec.ofNat 64 (2 ^ b)) :=
    BitVec.eq_of_toNat_eq (hn.trans (capacity_toNat hb).symm)
  rw [Geometry.reserve, hsame]
  rfl

theorem exists_capacity {n : BitVec 64} (hn : n.toNat ≤ 2 ^ 32) :
    ∃ b ≤ 32, (nextPowTwo n).toNat = 2 ^ b ∧ IsLeast {c | (∃ j, c = 2 ^ j) ∧ max n.toNat 1 ≤ c} (2 ^ b) := by
  have hleast := nextPowTwo_isLeast (v := n) (by omega)
  obtain ⟨b, hb⟩ := hleast.1.1
  have hle : (nextPowTwo n).toNat ≤ 2 ^ 32 := hleast.2 ⟨⟨32, rfl⟩, by omega⟩
  rw [hb] at hle hleast
  exact ⟨b, (Nat.pow_le_pow_iff_right (by omega)).1 hle, hb, hleast⟩

variable [Inhabited T]

theorem holds_reserve {n : BitVec 64} (hb : b ≤ 32) (hn : (nextPowTwo n).toNat = 2 ^ b) :
    Holds b 0 (⟨.reserve n, fun _ => 0, fun _ => 0, fun _ => default⟩ : Queue T) [] := by
  refine ⟨hb, geometry_reserve hb hn, Nat.zero_le _, rfl, rfl, ?_, fun i hi => absurd hi (Nat.not_lt_zero i)⟩
  intro i _ hi
  rw [Nat.zero_add] at hi
  rw [due, if_neg (show ¬ i < 0 + ([] : List T).length from Nat.not_lt_zero i), exactVersion, Nat.div_eq_of_lt hi]
  rfl

end Tickets

section Runs

variable [Inhabited T] {s s' : State T}

/-- The queue holds the values of the run. -/
def Inv (s : State T) : Prop :=
  ∃ b p, Holds b p s.queue s.values ∧ s.pushed = p + s.values.length ∧
    IsLeast {c | (∃ j, c = 2 ^ j) ∧ max s.reserved.toNat 1 ≤ c} (2 ^ b)

theorem make_eq {n : BitVec 64} (hn : n.toNat ≤ 2 ^ 32) :
    Queue.make n = some (⟨.reserve n, fun _ => 0, fun _ => 0, fun _ => default⟩ : Queue T) := by
  obtain ⟨b, -, hpow, -⟩ := exists_capacity hn
  have hne : nextPowTwo n ≠ 0 := by
    intro hz
    rw [hz] at hpow
    exact (Nat.two_pow_pos b).ne hpow
  exact if_pos hne

theorem inv_init (h : init s) : Inv s := by
  obtain ⟨hle, hmake, hvalues, hpushed⟩ := h
  obtain ⟨b, hb, hn, hleast⟩ := exists_capacity hle
  refine ⟨b, 0, ?_, ?_, hleast⟩
  · rw [hvalues, ← Option.some.inj ((make_eq hle).symm.trans hmake)]
    exact holds_reserve hb hn
  · rw [hvalues, hpushed]
    rfl

/-- No call that is allowed waits, and each does what it should. -/
theorem Inv.call (h : Inv s) (hc : Counted s) {r : Request T} (ha : r.Allowed s.queue) :
    ∃ queue, s.queue.call r = some (r.answer s.values, queue) ∧ Inv (s.after queue r) := by
  obtain ⟨b, p, hh, hpushed, hleast⟩ := h
  have hlt : p + s.values.length < 2 ^ 64 := hpushed ▸ hc
  cases r with
  | push v =>
    have hroom : s.values.length < 2 ^ b := by
      have hsize : s.queue.size.toNat < s.queue.capacity.toNat := ha
      rwa [hh.size hlt, hh.capacity] at hsize
    obtain ⟨r, hr, hnext⟩ := hh.push hlt hroom v
    refine ⟨r.2, by rw [Queue.call, hr]; rfl, b, p, hnext, ?_, hleast⟩
    rw [State.after, List.length_append, hpushed]
    rfl
  | pop callback =>
    obtain ⟨v, l, hl⟩ := List.exists_cons_of_ne_nil ((hh.size_pos_iff hlt).1 ha)
    rw [hl] at hh hpushed hlt
    obtain ⟨r, hr, rfl, hnext⟩ := hh.pop (by omega) callback
    refine ⟨r.2, by rw [Queue.call, hr, hl]; rfl, b, p + 1, ?_, ?_, hleast⟩
    · rw [State.after, hl]
      exact hnext
    · have hlen : s.pushed = p + 1 + l.length := by
        rw [hpushed, List.length_cons]
        omega
      rw [State.after, hl]
      exact hlen
  | clear =>
    obtain ⟨q', hq', hnext⟩ := hh.clear hlt
    exact ⟨q', by rw [Queue.call, hq']; rfl, b, _, hnext, hpushed, hleast⟩
  | reserveAndClear n =>
    obtain ⟨b', hb', hn, hleast'⟩ := exists_capacity ha
    by_cases hsame : nextPowTwo n = s.queue.capacity
    · obtain ⟨q', hq', hnext⟩ := hh.clear hlt
      refine ⟨q', by rw [Queue.call, Queue.reserveAndClear, if_neg (not_not.2 hsame), hq']; rfl, b, _, hnext, ?_, ?_⟩
      · rw [State.after, if_pos hsame]
        exact hpushed
      · rw [State.after, ← hh.capacity, ← hsame, hn]
        exact hleast'
    · refine ⟨_, by rw [Queue.call, Queue.reserveAndClear, if_pos hsame]; rfl, b', 0, holds_reserve hb' hn, ?_, hleast'⟩
      rw [State.after, if_neg hsame]
      rfl

theorem Inv.served (h : Inv s) (hc : Counted s) : Served s := by
  refine ⟨?_, ?_, fun r ha => ?_⟩
  · obtain ⟨b, p, hh, hpushed, -⟩ := h
    exact hh.size (hpushed ▸ hc)
  · obtain ⟨b, p, hh, -, hleast⟩ := h
    rwa [hh.capacity]
  · obtain ⟨queue, hq, -⟩ := h.call hc ha
    exact ⟨queue, hq⟩

theorem Inv.step (h : Inv s) (hc : Counted s) (hs : Step s s') : Inv s' := by
  obtain ⟨r, v, queue, ha, hcall⟩ := hs
  obtain ⟨queue', hcall', hnext⟩ := h.call hc ha
  rw [hcall] at hcall'
  obtain ⟨-, rfl⟩ := Prod.mk.inj (Option.some.inj hcall')
  exact hnext

theorem reachable_inv (h : Reachable init (Within Step Counted) s) : Inv s ∧ Counted s := by
  apply h.invariant
  · intro s hs
    refine ⟨inv_init hs, ?_⟩
    rw [Counted, hs.2.2.2]
    exact Nat.two_pow_pos 64
  · rintro s s' - ⟨hi, hc⟩ ⟨hs, hc'⟩
    exact ⟨hi.step hc hs, hc'⟩

theorem Served.allowed_push (h : Served s) (hv : s.values = []) (v : T) : (Request.push v).Allowed s.queue := by
  have hpos := h.capacity.1.2
  have hsize := h.size
  rw [hv, List.length_nil] at hsize
  exact show s.queue.size.toNat < s.queue.capacity.toNat by omega

/-- Sequential runs, as long as the indices do not wrap. -/
theorem served_of_counted (h : Reachable init (Within Step Counted) s) : Served s := by
  obtain ⟨hi, hc⟩ := reachable_inv h
  exact hi.served hc

end Runs

/-- Three values through two slots, and a larger queue. -/
theorem served_of_counted_three :
    ∃ s : State Nat, Reachable init (Within Step Counted) s ∧ s.values = [9] ∧ Served s := by
  have h₀ : Reachable init (Within Step Counted) (⟨⟨.reserve 2, fun _ => 0, fun _ => 0, fun _ => default⟩, [], 2, 0⟩ :
      State Nat) := .of_init ⟨by decide, rfl, rfl, rfl⟩
  have h₁ := h₀.tail ⟨.call _ (.push 5) none _ (show (_ : BitVec 64) < _ by decide) rfl, show 1 < 2 ^ 64 by norm_num⟩
  have h₂ := h₁.tail ⟨.call _ (.push 6) none _ (show (_ : BitVec 64) < _ by decide) rfl,
    show 2 < 2 ^ 64 by norm_num⟩
  have h₃ := h₂.tail ⟨.call _ (.pop fun _ => 0) (some 5) _ (show (_ : BitVec 64) < _ by decide) rfl,
    show 2 < 2 ^ 64 by norm_num⟩
  have h₄ := h₃.tail ⟨.call _ (.push 7) none _ (show (_ : BitVec 64) < _ by decide) rfl, show 3 < 2 ^ 64 by norm_num⟩
  have h₅ := h₄.tail ⟨.call _ (.reserveAndClear 3) none _ (show _ ≤ _ by decide) rfl, show 0 < 2 ^ 64 by norm_num⟩
  have h₆ := h₅.tail ⟨.call _ (.push 9) none _ (show (_ : BitVec 64) < _ by decide) rfl, show 1 < 2 ^ 64 by norm_num⟩
  exact ⟨_, h₆, rfl, served_of_counted h₆⟩

section Wrap

variable {b p : Nat} {q : Queue T} {l : List T} {s : State T}

/-- The push index has wrapped, and the pop index has not. -/
theorem Holds.size_of_wrap (h : Holds b p q l) (hwrap : p + l.length = 2 ^ 64) : q.size = 0 := by
  have hpush : BitVec.ofNat 64 (p + l.length) = 0 := by
    rw [hwrap]
    rfl
  rw [Queue.size, h.popIndex, h.pushIndex, hpush, if_neg]
  exact Nat.not_lt_zero _

variable [Inhabited T]

theorem reachable_round (h : Reachable init (Within Step Counted) s) (hv : s.values = []) (hc : s.pushed + 1 < 2 ^ 64)
    (v : T) : ∃ s' : State T, Reachable init (Within Step Counted) s' ∧ s'.values = [] ∧ s'.pushed = s.pushed + 1 := by
  obtain ⟨hi, hcounted⟩ := reachable_inv h
  have hpush := (served_of_counted h).allowed_push hv v
  obtain ⟨queue, hcall, hi₁⟩ := hi.call hcounted hpush
  have h₁ := h.tail ⟨.call s (.push v) none queue hpush hcall, hc⟩
  have hpop : (Request.pop id).Allowed (s.after queue (.push v)).queue := by
    have hsize := (served_of_counted h₁).size
    rw [show (s.after queue (.push v)).values = s.values ++ [v] from rfl, List.length_append] at hsize
    show (0 : BitVec 64).toNat < (s.after queue (.push v)).queue.size.toNat
    rw [hsize]
    exact Nat.succ_pos _
  obtain ⟨queue', hcall', -⟩ := hi₁.call hc hpop
  refine ⟨_, h₁.tail ⟨.call _ (.pop id) _ queue' hpop hcall', hc⟩, ?_, rfl⟩
  show (s.values ++ [v]).tail = []
  rw [hv]
  rfl

theorem reachable_rounds (v : T) {n : Nat} (hn : n < 2 ^ 64) :
    ∃ s : State T, Reachable init (Within Step Counted) s ∧ s.values = [] ∧ s.pushed = n := by
  induction n with
  | zero =>
    have hone : (1 : BitVec 64).toNat ≤ 2 ^ 32 := by decide
    exact ⟨⟨_, [], 1, 0⟩, .of_init ⟨hone, make_eq hone, rfl, rfl⟩, rfl, rfl⟩
  | succ n ih =>
    obtain ⟨s, h, hv, hpushed⟩ := ih (by omega)
    obtain ⟨s', h', hv', hpushed'⟩ := reachable_round h hv (by omega) v
    exact ⟨s', h', hv', by rw [hpushed', hpushed]⟩

end Wrap

/-- After `2 ^ 64` pushes `size()` is 0 although a value is in the queue. -/
theorem size_wraps : ∃ s : State Nat, Reachable init Step s ∧ s.values.length = 1 ∧ s.queue.size = 0 := by
  obtain ⟨s, h, hv, hpushed⟩ := reachable_rounds 0 (n := 2 ^ 64 - 1) (by norm_num)
  obtain ⟨hi, hcounted⟩ := reachable_inv h
  have hpush := (served_of_counted h).allowed_push hv 0
  obtain ⟨queue, hcall, b, p, hh, hp, -⟩ := hi.call hcounted hpush
  have hlen : (s.after queue (.push 0)).values.length = 1 := by
    show (s.values ++ [0]).length = 1
    rw [hv]
    rfl
  have hwrap : (s.after queue (.push 0)).pushed = 2 ^ 64 := by
    show s.pushed + 1 = 2 ^ 64
    omega
  exact ⟨_, h.of_within.tail (.call s _ _ queue hpush hcall), hlen, hh.size_of_wrap (by omega)⟩

end Wizard.BoundedQueue.Alone
