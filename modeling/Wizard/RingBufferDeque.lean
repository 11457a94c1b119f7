import Wizard.RingBuffer

/-! Sequences of operations on a ring buffer against a list of bounded length. -/

namespace Wizard.RingBuffer

variable {T : Type} {k : Kind} {b b' : RingBuffer T} {h c i j n : Nat} {l : List T} {x : T}

section Index

theorem nextIndex_of_lt {i : Int} (hi : -1 ≤ i) (hlt : i + 1 < 2 ^ 31) (hpos : 0 < c) (hn : (i + 1).toNat = n) :
    nextIndex i c = some ((n % c : Nat) : Int) := by
  have hi' : i + 1 = n := by omega
  have hmod : n % c ≤ n := Nat.mod_le n c
  have hnat : n < 2 ^ 64 := by omega
  rw [nextIndex, incr, if_pos hlt, hi']
  simp only [Option.bind_eq_bind, Option.bind_some]
  rw [toSize_natCast hnat, rem, if_neg hpos.ne', Option.bind_some, toInt_of_lt (by omega)]
  rfl

theorem nextIndex_eq {i : Int} (hi : -1 ≤ i) (hlt : i < c) (hpos : 0 < c) (hc : c < 2 ^ 31) (hn : (i + 1).toNat = n) :
    nextIndex i c = some ((n % c : Nat) : Int) :=
  nextIndex_of_lt hi (by omega) hpos hn

theorem slot_ne (h : Nat) (hij : i < j) (hj : j < c) : (h + i) % c ≠ (h + j) % c := by
  intro he
  have hmod : i % c = j % c := Nat.ModEq.add_left_cancel' h he
  rw [Nat.mod_eq_of_lt (hij.trans hj), Nat.mod_eq_of_lt hj] at hmod
  omega

theorem slot_succ (h c i : Nat) : ((h + 1) % c + i) % c = (h + (i + 1)) % c := by
  rw [Nat.mod_add_mod]
  congr 1
  omega

/-- What a forward iterator reads when it gets from each slot to the next one. -/
theorem upTo_forward {C : Bool} {last : RingBufferIterator C false} (hlast : last.plusCount = l.length)
    (hslot : ∀ i (hi : i < l.length), b.slot (toSize ((h + i) % b.capacity : Nat)) = some l[i])
    (hnext : ∀ i < l.length, nextIndex ((h + i) % b.capacity : Nat) b.capacity =
      some (((h + (i + 1)) % b.capacity : Nat) : Int))
    (fuel : Nat) (hi : i ≤ l.length) (hf : l.length < i + fuel) :
    RingBufferIterator.upTo b last fuel ⟨((h + i) % b.capacity : Nat), i⟩ = some (l.drop i) := by
  induction fuel generalizing i with
  | zero => omega
  | succ fuel ih =>
    rw [RingBufferIterator.upTo]
    by_cases he : i = l.length
    · rw [if_pos (he.trans hlast.symm), he, List.drop_length]
    · have hlt : i < l.length := by omega
      have hrest := ih (i := i + 1) (by omega) (by omega)
      rw [if_neg (by rw [hlast]; exact he), List.drop_eq_getElem_cons hlt]
      simp only [RingBufferIterator.deref, hslot i hlt, RingBufferIterator.next, hnext i hlt, Option.bind_eq_bind,
        Option.bind_some, Bool.false_eq_true, if_false, pure, hrest]

end Index

/-- The buffer holds `l` from slot `h` on. -/
structure Holds (b : RingBuffer T) (h : Nat) (l : List T) : Prop where
  small : b.capacity < 2 ^ 31
  head : b.head = h
  lt : h < b.capacity
  size : b.size = l.length
  fits : l.length ≤ b.capacity
  tail : -1 ≤ b.tail ∧ b.tail < b.capacity
  last : l ≠ [] → 0 ≤ b.tail
  ring : (b.tail + 1).toNat % b.capacity = (h + l.length) % b.capacity
  elements : ∀ i (hi : i < l.length), b.elements ((h + i) % b.capacity) = some l[i]

namespace Holds

theorem toSize_head (hb : Holds b h l) : toSize b.head = h := by
  rw [hb.head, toSize_natCast ((hb.lt.trans hb.small).trans (by decide))]

theorem nextIndex_head (hb : Holds b h l) :
    nextIndex b.head b.capacity = some (((h + 1) % b.capacity : Nat) : Int) := by
  have hlt := hb.lt
  rw [hb.head]
  exact nextIndex_eq (by omega) (by omega) (by omega) hb.small (by omega)

theorem nextIndex_tail (hb : Holds b h l) :
    nextIndex b.tail b.capacity = some (((h + l.length) % b.capacity : Nat) : Int) := by
  rw [← hb.ring]
  exact nextIndex_eq hb.tail.1 hb.tail.2 (Nat.zero_lt_of_lt hb.lt) hb.small rfl

theorem emplaceBackImpl (hb : Holds b h l) (hfull : l.length < b.capacity) (x : T) :
    ∃ b', b.emplaceBackImpl x = some b' ∧ Holds b' h (l ++ [x]) ∧ b'.capacity = b.capacity := by
  have hmod : (h + l.length) % b.capacity < b.capacity := Nat.mod_lt _ (by have := hb.lt; omega)
  refine ⟨{ b with
    elements := Function.update b.elements ((h + l.length) % b.capacity) (some x)
    tail := ((h + l.length) % b.capacity : Nat)
    size := b.size + 1 }, ?_, ⟨hb.small, hb.head, hb.lt, ?_, ?_, ?_, fun _ => ?_, ?_, fun i hi => ?_⟩, rfl⟩
  · have hin : (0 : Int) ≤ ((h + l.length) % b.capacity : Nat) ∧
        (((h + l.length) % b.capacity : Nat) : Int) < b.capacity := by omega
    simp only [RingBuffer.emplaceBackImpl, hb.nextIndex_tail, Option.bind_eq_bind, Option.bind_some, if_pos hin,
      Int.toNat_natCast]
  · simp [hb.size]
  · rw [List.length_append]
    exact hfull
  · change -1 ≤ (((h + l.length) % b.capacity : Nat) : Int) ∧ (((h + l.length) % b.capacity : Nat) : Int) < b.capacity
    omega
  · exact Int.natCast_nonneg _
  · change ((((h + l.length) % b.capacity : Nat) : Int) + 1).toNat % b.capacity =
      (h + (l ++ [x]).length) % b.capacity
    have hnat : ((((h + l.length) % b.capacity : Nat) : Int) + 1).toNat = (h + l.length) % b.capacity + 1 := by
      omega
    rw [hnat, Nat.mod_add_mod, List.length_append]
    rfl
  · change Function.update b.elements _ _ ((h + i) % b.capacity) = _
    rw [List.length_append, List.length_singleton] at hi
    by_cases he : i = l.length
    · subst he
      simp
    · have hlt : i < l.length := by omega
      rw [Function.update_of_ne (slot_ne h hlt hfull), hb.elements i hlt, List.getElem_append_left hlt]

theorem destroy (hb : Holds b h (x :: l)) : ∃ e, b.destroy k (toSize b.head) = some { b with elements := e } ∧
    ∀ i (hi : i < l.length), e ((h + (i + 1)) % b.capacity) = some l[i] := by
  have hfits := hb.fits
  rw [List.length_cons] at hfits
  have hrest : ∀ i (hi : i < l.length), b.elements ((h + (i + 1)) % b.capacity) = some l[i] := by
    intro i hi
    rw [hb.elements (i + 1) (by simpa using hi)]
    rfl
  by_cases hk : k.trivial
  · exact ⟨b.elements, by simp [RingBuffer.destroy, hk], hrest⟩
  · refine ⟨Function.update b.elements h none, ?_, fun i hi => ?_⟩
    · have hx : b.elements h = some x := by
        have h0 := hb.elements 0 (by simp)
        rwa [Nat.add_zero, Nat.mod_eq_of_lt hb.lt] at h0
      simp [RingBuffer.destroy, hk, slot, hb.toSize_head, hb.lt, hx]
    · have hne := slot_ne h (Nat.succ_pos i) (show i + 1 < b.capacity by omega)
      rw [Nat.add_zero, Nat.mod_eq_of_lt hb.lt] at hne
      rw [Function.update_of_ne hne.symm, hrest i hi]

theorem dropHead (hb : Holds b h (x :: l)) {e : Nat → Option T}
    (he : ∀ i (hi : i < l.length), e ((h + (i + 1)) % b.capacity) = some l[i]) :
    Holds { b with elements := e, size := b.size - 1, head := ((h + 1) % b.capacity : Nat) }
      ((h + 1) % b.capacity) l := by
  have hfits := hb.fits
  have hsize := hb.size
  have hring := hb.ring
  rw [List.length_cons] at hfits hsize hring
  refine ⟨hb.small, rfl, Nat.mod_lt _ (by omega), ?_, ?_, hb.tail, fun _ => hb.last (by simp), ?_, fun i hi => ?_⟩
  · change b.size - 1 = l.length
    omega
  · change l.length ≤ b.capacity
    omega
  · change (b.tail + 1).toNat % b.capacity = ((h + 1) % b.capacity + l.length) % b.capacity
    rw [hring, slot_succ]
  · change e (((h + 1) % b.capacity + i) % b.capacity) = _
    rw [slot_succ, he i hi]

theorem popFront (hb : Holds b h l) :
    ∃ b' h', b.popFront k = some b' ∧ Holds b' h' l.tail ∧ b'.capacity = b.capacity := by
  cases l with
  | nil => exact ⟨b, h, by simp [RingBuffer.popFront, empty, hb.size], hb, rfl⟩
  | cons x l =>
    obtain ⟨e, he, hrest⟩ := hb.destroy (k := k)
    refine ⟨_, _, ?_, hb.dropHead hrest, rfl⟩
    simp [RingBuffer.popFront, empty, hb.size, he, hb.nextIndex_head]

theorem destroyAll (hb : Holds b h l) {fuel : Nat} (hf : l.length < fuel) :
    ∃ b' h', b.destroyAll k fuel = some b' ∧ Holds b' h' [] ∧ b'.capacity = b.capacity := by
  induction l generalizing b h fuel with
  | nil =>
    obtain ⟨fuel, rfl⟩ : ∃ m, fuel = m + 1 := ⟨fuel - 1, by simp at hf; omega⟩
    exact ⟨b, h, by simp [RingBuffer.destroyAll, empty, hb.size], hb, rfl⟩
  | cons x l ih =>
    obtain ⟨fuel, rfl⟩ : ∃ m, fuel = m + 1 := ⟨fuel - 1, by simp at hf; omega⟩
    obtain ⟨e, he, hrest⟩ := hb.destroy (k := k)
    obtain ⟨b', h', hb', hh', hc⟩ := ih (hb.dropHead hrest) (by simpa using hf)
    refine ⟨b', h', ?_, hh', hc⟩
    have hne : b.empty = false := by simp [empty, hb.size]
    rw [RingBuffer.destroyAll, hne]
    simp only [Bool.false_eq_true, if_false, he, Option.bind_eq_bind, Option.bind_some, hb.nextIndex_head]
    exact hb'

theorem clear (hb : Holds b h l) : ∃ b' h', b.clear k = some b' ∧ Holds b' h' [] ∧ b'.capacity = b.capacity := by
  by_cases hk : k.trivial
  · have hpos : 0 < b.capacity := Nat.zero_lt_of_lt hb.lt
    refine ⟨_, 0, if_pos hk, ⟨hb.small, rfl, hpos, rfl, Nat.zero_le _, ?_, fun hn => absurd rfl hn, ?_, ?_⟩, rfl⟩
    · change (-1 : Int) ≤ -1 ∧ (-1 : Int) < b.capacity
      omega
    · rfl
    · intro i hi
      cases hi
  · rw [RingBuffer.clear, if_neg hk]
    exact hb.destroyAll (by rw [hb.size]; omega)

end Holds

inductive Op (T : Type) where
  | emplaceBack (x : T)
  | popFront
  | clear

def Op.step (k : Kind) (b : RingBuffer T) : Op T → Option (RingBuffer T)
  | emplaceBack x => b.emplaceBack k x
  | popFront => b.popFront k
  | clear => b.clear k

def run (k : Kind) (b : RingBuffer T) (ops : List (Op T)) : Option (RingBuffer T) :=
  ops.foldlM (Op.step k) b

/-- What an operation leaves of the list in a buffer of capacity `c`. -/
def Op.replay (k : Kind) (c : Nat) (l : List T) : Op T → List T
  | emplaceBack x => if l.length = c then if k.overwrite then l.tail ++ [x] else l else l ++ [x]
  | popFront => l.tail
  | clear => []

/-- What the buffer shows of its content. -/
structure Shows (b : RingBuffer T) (c : Nat) (l : List T) : Prop where
  size : b.size = l.length
  empty : b.empty = l.isEmpty
  full : b.full = decide (l.length = c)
  front : b.front = l.head?
  back : b.back = l.getLast?
  elements : ∀ i, b.at? i = l[i]?
  forward : b.traverse b.begin b.end' = some l ∧ b.traverse b.cbegin b.cend = some l
  reverse : b.traverse b.rbegin b.rend = some l.reverse ∧ b.traverse b.crbegin b.crend = some l.reverse
  ring : b.tail ≡ b.head + b.size - 1 [ZMOD c]

theorem Holds.step (hb : Holds b h l) (op : Op T) :
    ∃ b' h', op.step k b = some b' ∧ Holds b' h' (op.replay k b.capacity l) ∧ b'.capacity = b.capacity := by
  cases op with
  | popFront => exact hb.popFront
  | clear => exact hb.clear
  | emplaceBack x =>
    have hfits := hb.fits
    by_cases hfull : l.length = b.capacity
    · have hf : b.full = true := by simp [full, hb.size, hfull]
      by_cases hk : k.overwrite
      · obtain ⟨b₁, h₁, hpop, hb₁, hc₁⟩ := hb.popFront (k := k)
        have hlt : l.tail.length < b₁.capacity := by
          rw [List.length_tail, hc₁]
          have hpos := hb.lt
          omega
        obtain ⟨b₂, hpush, hb₂, hc₂⟩ := hb₁.emplaceBackImpl hlt x
        refine ⟨b₂, h₁, ?_, ?_, hc₂.trans hc₁⟩
        · simp [Op.step, RingBuffer.emplaceBack, hf, hk, hpop, hpush]
        · simpa [Op.replay, hfull, hk] using hb₂
      · refine ⟨b, h, ?_, ?_, rfl⟩
        · simp [Op.step, RingBuffer.emplaceBack, hf, hk]
        · simpa [Op.replay, hfull, hk] using hb
    · have hf : b.full = false := by simp [full, hb.size, hfull]
      obtain ⟨b₂, hpush, hb₂, hc₂⟩ := hb.emplaceBackImpl (by omega) x
      refine ⟨b₂, h, ?_, ?_, hc₂⟩
      · simp [Op.step, RingBuffer.emplaceBack, hf, hpush]
      · simpa [Op.replay, hfull] using hb₂

theorem Holds.run (hb : Holds b h l) (ops : List (Op T)) : ∃ b' h', b.run k ops = some b' ∧
    Holds b' h' (ops.foldl (Op.replay k b.capacity) l) ∧ b'.capacity = b.capacity := by
  induction ops generalizing b h l with
  | nil => exact ⟨b, h, rfl, hb, rfl⟩
  | cons op ops ih =>
    obtain ⟨b₁, h₁, hs, hb₁, hc₁⟩ := hb.step (k := k) op
    obtain ⟨b₂, h₂, hr, hb₂, hc₂⟩ := ih hb₁
    rw [hc₁] at hb₂
    refine ⟨b₂, h₂, ?_, hb₂, hc₂.trans hc₁⟩
    rw [RingBuffer.run, List.foldlM_cons, hs]
    exact hr

theorem Holds.make (hpos : 0 < c) (hc : c < 2 ^ 31) : Holds (RingBuffer.make c : RingBuffer T) 0 [] := by
  refine ⟨hc, rfl, hpos, rfl, Nat.zero_le _, ?_, fun hn => absurd rfl hn, rfl, fun i hi => by cases hi⟩
  change (-1 : Int) ≤ -1 ∧ (-1 : Int) < c
  omega

namespace Holds

theorem mod_lt (hb : Holds b h l) (n : Nat) : n % b.capacity < b.capacity :=
  Nat.mod_lt n (Nat.zero_lt_of_lt hb.lt)

theorem toSize_mod (hb : Holds b h l) (n : Nat) : toSize ((n % b.capacity : Nat) : Int) = n % b.capacity :=
  toSize_natCast (((hb.mod_lt n).trans hb.small).trans (by decide))

theorem slot_eq (hb : Holds b h l) (hi : i < l.length) : b.slot ((h + i) % b.capacity) = some l[i] := by
  rw [slot, if_pos (hb.mod_lt _), hb.elements i hi]

theorem tail_eq (hb : Holds b h l) (hl : l ≠ []) : b.tail = ((h + (l.length - 1)) % b.capacity : Nat) := by
  have hlen : 0 < l.length := List.length_pos_of_ne_nil hl
  have h0 := hb.last hl
  have hlt := hb.tail.2
  have hring := hb.ring
  have hmod : b.tail.toNat % b.capacity = (h + (l.length - 1)) % b.capacity := by
    have hcancel : b.tail.toNat + 1 ≡ h + (l.length - 1) + 1 [MOD b.capacity] := by
      have h₁ : b.tail.toNat + 1 = (b.tail + 1).toNat := by omega
      have h₂ : h + (l.length - 1) + 1 = h + l.length := by omega
      rw [h₁, h₂]
      exact hring
    exact Nat.ModEq.add_right_cancel' 1 hcancel
  rw [Nat.mod_eq_of_lt (show b.tail.toNat < b.capacity by omega)] at hmod
  omega

theorem front_eq (hb : Holds b h l) : b.front = l.head? := by
  cases l with
  | nil => simp [front, hb.size]
  | cons x l =>
    have h0 := hb.slot_eq (i := 0) (by simp)
    rw [Nat.add_zero, Nat.mod_eq_of_lt hb.lt] at h0
    rw [front, if_pos (by rw [hb.size]; simp), hb.toSize_head, h0]
    rfl

theorem back_eq (hb : Holds b h l) : b.back = l.getLast? := by
  by_cases hl : l = []
  · subst hl
    simp [back, hb.size]
  · have hlen : 0 < l.length := List.length_pos_of_ne_nil hl
    rw [back, if_pos (by rw [hb.size]; exact hlen), hb.tail_eq hl, hb.toSize_mod, hb.slot_eq (by omega),
      List.getLast?_eq_getElem?, List.getElem?_eq_getElem (by omega)]

theorem at_eq (hb : Holds b h l) (i : Nat) : b.at? i = l[i]? := by
  rw [at?, hb.size]
  split
  · rename_i hi
    have hlt := hb.lt
    have hsmall := hb.small
    have hfits := hb.fits
    have hmod : (i + h) % 2 ^ 64 = h + i := by omega
    rw [hb.toSize_head, hmod, rem, if_neg (by omega), Option.bind_eq_bind, Option.bind_some, hb.slot_eq hi,
      List.getElem?_eq_getElem hi]
  · rename_i hi
    rw [List.getElem?_eq_none (by omega)]

/-- A forward iterator after `i` steps is at the element `i`. -/
theorem forward {C : Bool} (hb : Holds b h l) {last : RingBufferIterator C false} (hlast : last.plusCount = b.size)
    (fuel : Nat) (hi : i ≤ l.length) (hf : l.length < i + fuel) :
    RingBufferIterator.upTo b last fuel ⟨((h + i) % b.capacity : Nat), i⟩ = some (l.drop i) := by
  refine upTo_forward (hlast.trans hb.size) (fun i hi => ?_) (fun i hi => ?_) fuel hi hf
  · rw [hb.toSize_mod, hb.slot_eq hi]
  · have hm := hb.mod_lt (h + i)
    rw [nextIndex_eq (n := (h + i) % b.capacity + 1) (by omega) (by omega) (by omega) hb.small (by omega),
      Nat.mod_add_mod]
    rfl

/-- A reverse iterator after `i` steps is `i` elements before the last. -/
theorem reverse {C : Bool} (hb : Holds b h l) {last : RingBufferIterator C true} (hlast : last.plusCount = b.size)
    (fuel : Nat) (hi : i ≤ l.length) (hf : l.length < i + fuel) (index : Int)
    (hindex : i < l.length → index = ((h + (l.length - 1 - i)) % b.capacity : Nat)) :
    RingBufferIterator.upTo b last fuel ⟨index, i⟩ = some (l.take (l.length - i)).reverse := by
  induction fuel generalizing i index with
  | zero => omega
  | succ fuel ih =>
    rw [RingBufferIterator.upTo]
    by_cases he : i = l.length
    · rw [if_pos (by rw [hlast, hb.size, he]), he, Nat.sub_self]
      rfl
    · have hlt : i < l.length := by omega
      obtain ⟨j, hj⟩ : ∃ j, l.length = i + j + 1 := ⟨l.length - i - 1, by omega⟩
      have hjl : j < l.length := by omega
      have hidx := hindex hlt
      rw [show l.length - 1 - i = j by omega] at hidx
      subst hidx
      have hm := hb.mod_lt (h + j)
      have hsmall := hb.small
      have hstep : ((h + j) % b.capacity + b.capacity + (2 ^ 64 - 1)) % 2 ^ 64 =
          (h + j) % b.capacity + (b.capacity - 1) := by omega
      have hnext : (rem (((h + j) % b.capacity + b.capacity + (2 ^ 64 - 1)) % 2 ^ 64) b.capacity).map toInt =
          some (((h + j + (b.capacity - 1)) % b.capacity : Nat) : Int) := by
        rw [hstep, rem, if_neg (by omega), Nat.mod_add_mod, Option.map_some,
          toInt_of_lt ((hb.mod_lt _).trans hb.small)]
      have hrest := ih (i := i + 1) (by omega) (by omega)
        ((h + j + (b.capacity - 1)) % b.capacity : Nat) (fun hlt' => by
          have hj' : h + j + (b.capacity - 1) = h + (l.length - 1 - (i + 1)) + b.capacity := by omega
          rw [hj', Nat.add_mod_right])
      have htake : (l.take (l.length - i)).reverse = l[j] :: (l.take (l.length - (i + 1))).reverse := by
        rw [show l.length - i = j + 1 by omega, show l.length - (i + 1) = j by omega,
          List.take_succ_eq_append_getElem hjl,
          List.reverse_append]
        rfl
      rw [if_neg (by rw [hlast, hb.size]; exact he), htake]
      simp only [RingBufferIterator.deref, hb.toSize_mod, hb.slot_eq hjl, RingBufferIterator.next, hnext,
        Option.bind_eq_bind, Option.bind_some, if_true, pure, hrest]

theorem shows (hb : Holds b h l) : Shows b b.capacity l := by
  have hforward : ∀ {C : Bool} {last : RingBufferIterator C false}, last.plusCount = b.size →
      b.traverse ⟨b.head, 0⟩ last = some l := by
    intro C last hlast
    have hh := hb.forward hlast (b.size + 1) (Nat.zero_le _) (by rw [hb.size]; omega)
    have h0 : (((h + 0) % b.capacity : Nat) : Int) = b.head := by
      rw [Nat.add_zero, Nat.mod_eq_of_lt hb.lt, hb.head]
    rwa [h0] at hh
  have hreverse : ∀ {C : Bool} {last : RingBufferIterator C true}, last.plusCount = b.size →
      b.traverse ⟨b.tail, 0⟩ last = some l.reverse := by
    intro C last hlast
    have hh := hb.reverse hlast (b.size + 1) (Nat.zero_le _) (by rw [hb.size]; omega) b.tail
      (fun hlt => hb.tail_eq (List.ne_nil_of_length_pos hlt))
    rwa [Nat.sub_zero, List.take_length] at hh
  refine ⟨hb.size, ?_, ?_, hb.front_eq, hb.back_eq, hb.at_eq, ⟨hforward rfl, hforward rfl⟩,
    ⟨hreverse rfl, hreverse rfl⟩, ?_⟩
  · cases l <;> simp [empty, hb.size]
  · simp [full, hb.size]
  · have hring : (b.tail + 1).toNat ≡ h + l.length [MOD b.capacity] := hb.ring
    have hz := (Int.natCast_modEq_iff.2 hring).sub_right 1
    have htail := hb.tail.1
    rw [hb.size, hb.head]
    rwa [Int.toNat_of_nonneg (by omega), add_sub_cancel_right, Nat.cast_add] at hz

end Holds

/-- Every operation of a sequence on a fresh buffer returns, and the buffer
shows the list. -/
theorem run_refines_deque (k : Kind) (hpos : 0 < c) (hc : c < 2 ^ 31) (ops : List (Op T)) :
    ∃ b, (RingBuffer.make c : RingBuffer T).run k ops = some b ∧ Shows b c (ops.foldl (Op.replay k c) []) := by
  obtain ⟨b, h, hr, hb, hcap⟩ := (Holds.make hpos hc).run (k := k) ops
  have hcap' : b.capacity = c := hcap
  have hs := hb.shows
  rw [hcap'] at hs
  exact ⟨b, hr, hs⟩

/-- The third element takes the place of the first. -/
theorem run_refines_deque_two : (0 < 2 ∧ 2 < 2 ^ 31) ∧ ∃ b, (RingBuffer.make 2 : RingBuffer Nat).run ⟨true, false⟩
    [.emplaceBack 5, .emplaceBack 6, .emplaceBack 7] = some b ∧ Shows b 2 [6, 7] :=
  ⟨by decide, run_refines_deque ⟨true, false⟩ (by decide) (by decide) [.emplaceBack 5, .emplaceBack 6, .emplaceBack 7]⟩

end Wizard.RingBuffer
