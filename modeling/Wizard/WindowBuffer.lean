import Mathlib.Data.List.DropRight
import Wizard.RingBufferDeque

/-! The ring buffer of `window.cc`. It overwrites, its array starts with an object in every
slot, and `clear` does nothing for a trivially destructible type. Everything else is as in
`ringbuffer.h`. -/

namespace Wizard.Window

open RingBuffer

variable {T : Type}

section Model

def make [Inhabited T] (capacity : Nat) : RingBuffer T := ⟨fun _ => some default, -1, 0, 0, capacity⟩

/-- `Overwrite` is true. -/
def kind (trivial : Bool) : Kind := ⟨true, trivial⟩

/-- `_destroy_all`. -/
def clear (k : Kind) (b : RingBuffer T) : Option (RingBuffer T) :=
  if k.trivial then some b else b.destroyAll k (b.size + 1)

end Model

variable {k : Kind} {b : RingBuffer T} {c i m n p : Nat} {l : List T} {x : T}

section Index

/-- No index of the first `n` elements is the largest `int`. -/
def Small (c n : Nat) : Prop := c < 2 ^ 31 ∨ n < 2 ^ 31

theorem Small.mono (h : Small c n) (hm : m ≤ n) : Small c m := h.imp_right hm.trans_lt

theorem Small.index (h : Small c n) (hc : 0 < c) (hi : i < n) : i % c + 1 < 2 ^ 31 := by
  have hlt := Nat.mod_lt i hc
  have hle := Nat.mod_le i c
  obtain h | h := h <;> omega

theorem nextIndex_mod (hc : 0 < c) :
    nextIndex ((i % c : Nat) : Int) c = if i % c + 1 < 2 ^ 31 then some (((i + 1) % c : Nat) : Int) else none := by
  split
  · rename_i hlt
    rw [nextIndex_of_lt (n := i % c + 1) (by omega) (by omega) hc (by omega), Nat.mod_add_mod]
  · rename_i hlt
    rw [nextIndex, incr, if_neg (by omega)]
    rfl

theorem Small.index_le (h : Small c n) (hc : 0 < c) (hi : i ≤ n) : i % c < 2 ^ 31 := by
  have hlt := Nat.mod_lt i hc
  have hle := Nat.mod_le i c
  obtain h | h := h <;> omega

theorem toSize_mod (hi : i % c < 2 ^ 31) : toSize ((i % c : Nat) : Int) = i % c :=
  toSize_natCast (by omega)

end Index

/-- The buffer holds `l` after `p` elements went. -/
structure Holds (b : RingBuffer T) (p : Nat) (l : List T) : Prop where
  pos : 0 < b.capacity
  head : b.head = ((p % b.capacity : Nat) : Int)
  tail : b.tail = if p + l.length = 0 then -1 else (((p + l.length - 1) % b.capacity : Nat) : Int)
  size : b.size = l.length
  fits : l.length ≤ b.capacity
  elements : ∀ i (hi : i < l.length), b.elements ((p + i) % b.capacity) = some l[i]

/-- What the buffer shows of its content. -/
structure Shows (b : RingBuffer T) (l : List T) : Prop where
  size : b.size = l.length
  empty : b.empty = l.isEmpty
  front : b.front = l.head?
  back : b.back = l.getLast?
  elements : ∀ i, b.at? i = l[i]?
  forward : b.traverse b.begin b.end' = some l

namespace Holds

theorem make [Inhabited T] (hc : 0 < c) : Holds (make c : RingBuffer T) 0 [] :=
  ⟨hc, by simp [Window.make], rfl, rfl, Nat.zero_le _, fun i hi => absurd hi (Nat.not_lt_zero i)⟩

theorem slot_eq (hb : Holds b p l) (hi : i < l.length) : b.slot ((p + i) % b.capacity) = some l[i] := by
  rw [slot, if_pos (Nat.mod_lt _ hb.pos), hb.elements i hi]

theorem destroy (hb : Holds b p (x :: l)) (hp : p % b.capacity + 1 < 2 ^ 31) :
    ∃ e, b.destroy k (toSize b.head) = some { b with elements := e } ∧
      ∀ i (hi : i < l.length), e ((p + (i + 1)) % b.capacity) = some l[i] := by
  have hfits := hb.fits
  rw [List.length_cons] at hfits
  have hrest : ∀ i (hi : i < l.length), b.elements ((p + (i + 1)) % b.capacity) = some l[i] := by
    intro i hi
    rw [hb.elements (i + 1) (by simpa using hi)]
    rfl
  by_cases hk : k.trivial
  · exact ⟨b.elements, by simp [RingBuffer.destroy, hk], hrest⟩
  · refine ⟨Function.update b.elements (p % b.capacity) none, ?_, fun i hi => ?_⟩
    · have hx := hb.slot_eq (i := 0) (by simp)
      rw [Nat.add_zero] at hx
      rw [RingBuffer.destroy, if_neg hk, hb.head, toSize_mod (Nat.lt_of_succ_lt hp), hx]
      rfl
    · have hne := slot_ne p (Nat.succ_pos i) (show i + 1 < b.capacity by omega)
      rw [Nat.add_zero] at hne
      rw [Function.update_of_ne hne.symm, hrest i hi]

theorem dropHead (hb : Holds b p (x :: l)) {e : Nat → Option T}
    (he : ∀ i (hi : i < l.length), e ((p + (i + 1)) % b.capacity) = some l[i]) :
    Holds { b with elements := e, size := b.size - 1, head := ((p + 1) % b.capacity : Nat) } (p + 1) l := by
  have hfits := hb.fits
  have hsize := hb.size
  have htail := hb.tail
  rw [List.length_cons] at hfits hsize htail
  refine ⟨hb.pos, rfl, ?_, ?_, ?_, fun i hi => ?_⟩
  · change b.tail = _
    rw [htail, show p + (l.length + 1) = p + 1 + l.length by omega]
  · change b.size - 1 = l.length
    omega
  · change l.length ≤ b.capacity
    omega
  · change e ((p + 1 + i) % b.capacity) = _
    rw [show p + 1 + i = p + (i + 1) by omega, he i hi]

theorem popFront (hb : Holds b p (x :: l)) (hp : p % b.capacity + 1 < 2 ^ 31) :
    ∃ b', b.popFront k = some b' ∧ Holds b' (p + 1) l ∧ b'.capacity = b.capacity := by
  obtain ⟨e, he, hrest⟩ := hb.destroy (k := k) hp
  have hnext : nextIndex b.head b.capacity = some (((p + 1) % b.capacity : Nat) : Int) := by
    rw [hb.head, nextIndex_mod hb.pos, if_pos hp]
  refine ⟨_, ?_, hb.dropHead hrest, rfl⟩
  simp [RingBuffer.popFront, empty, hb.size, he, hnext]

theorem emplaceBackImpl (hb : Holds b p l) (hfull : l.length < b.capacity) (hs : Small b.capacity (p + l.length))
    (x : T) : ∃ b', b.emplaceBackImpl x = some b' ∧ Holds b' p (l ++ [x]) ∧ b'.capacity = b.capacity := by
  have hmod : (p + l.length) % b.capacity < b.capacity := Nat.mod_lt _ hb.pos
  have hnext : nextIndex b.tail b.capacity = some (((p + l.length) % b.capacity : Nat) : Int) := by
    rw [hb.tail]
    split
    · rename_i hz
      rw [hz, nextIndex_of_lt (n := 0) (by decide) (by decide) hb.pos rfl]
    · rename_i hz
      rw [nextIndex_mod hb.pos, if_pos (hs.index hb.pos (by omega)),
        show p + l.length - 1 + 1 = p + l.length by omega]
  refine ⟨{ b with
    elements := Function.update b.elements ((p + l.length) % b.capacity) (some x)
    tail := ((p + l.length) % b.capacity : Nat)
    size := b.size + 1 }, ?_, ⟨hb.pos, hb.head, ?_, ?_, ?_, fun i hi => ?_⟩, rfl⟩
  · have hin : (0 : Int) ≤ ((p + l.length) % b.capacity : Nat) ∧
        (((p + l.length) % b.capacity : Nat) : Int) < b.capacity := by omega
    simp only [RingBuffer.emplaceBackImpl, hnext, Option.bind_eq_bind, Option.bind_some, if_pos hin, Int.toNat_natCast]
  · rw [List.length_append, List.length_singleton, if_neg (by omega)]
    rfl
  · simp [hb.size]
  · rw [List.length_append]
    exact hfull
  · change Function.update b.elements _ _ ((p + i) % b.capacity) = _
    rw [List.length_append, List.length_singleton] at hi
    by_cases he : i = l.length
    · subst he
      simp
    · have hlt : i < l.length := by omega
      rw [Function.update_of_ne (slot_ne p hlt hfull), hb.elements i hlt, List.getElem_append_left hlt]

theorem destroyAll (hb : Holds b p l) (hs : Small b.capacity (p + l.length)) {fuel : Nat} (hf : l.length < fuel) :
    ∃ b' p', b.destroyAll k fuel = some b' ∧ Holds b' p' [] ∧ p' = p + l.length ∧ b'.capacity = b.capacity := by
  induction l generalizing b p fuel with
  | nil =>
    obtain ⟨fuel, rfl⟩ : ∃ m, fuel = m + 1 := ⟨fuel - 1, by simp at hf; omega⟩
    exact ⟨b, p, by simp [RingBuffer.destroyAll, empty, hb.size], hb, rfl, rfl⟩
  | cons x l ih =>
    obtain ⟨fuel, rfl⟩ : ∃ m, fuel = m + 1 := ⟨fuel - 1, by simp at hf; omega⟩
    have hp := hs.index hb.pos (show p < p + (x :: l).length by simp)
    have hlen : p + (x :: l).length = p + 1 + l.length := by
      rw [List.length_cons]
      omega
    obtain ⟨e, he, hrest⟩ := hb.destroy (k := k) hp
    rw [hlen] at hs ⊢
    obtain ⟨b', p', hb', hh', hn, hc⟩ := ih (hb.dropHead hrest) hs (by simpa using hf)
    refine ⟨b', p', ?_, hh', hn, hc⟩
    have hne : b.empty = false := by simp [empty, hb.size]
    have hnext : nextIndex b.head b.capacity = some (((p + 1) % b.capacity : Nat) : Int) := by
      rw [hb.head, nextIndex_mod hb.pos, if_pos hp]
    rw [RingBuffer.destroyAll, hne]
    simp only [Bool.false_eq_true, if_false, he, Option.bind_eq_bind, Option.bind_some, hnext]
    exact hb'

theorem front_eq (hb : Holds b p l) (hs : Small b.capacity (p + l.length - 1)) : b.front = l.head? := by
  cases l with
  | nil => simp [front, hb.size]
  | cons x l =>
    have hp := hs.index_le hb.pos (show p ≤ p + (x :: l).length - 1 by simp)
    have h0 := hb.slot_eq (i := 0) (by simp)
    rw [Nat.add_zero] at h0
    rw [front, if_pos (by rw [hb.size]; simp), hb.head, toSize_mod hp, h0]
    rfl

theorem back_eq (hb : Holds b p l) (hs : Small b.capacity (p + l.length)) : b.back = l.getLast? := by
  by_cases hl : l = []
  · subst hl
    simp [back, hb.size]
  · have hlen : 0 < l.length := List.length_pos_of_ne_nil hl
    have hlast : p + l.length - 1 = p + (l.length - 1) := by omega
    have hi := hs.index_le hb.pos (show p + (l.length - 1) ≤ p + l.length by omega)
    rw [back, if_pos (by rw [hb.size]; exact hlen), hb.tail, if_neg (by omega), hlast, toSize_mod hi,
      hb.slot_eq (by omega), List.getLast?_eq_getElem?, List.getElem?_eq_getElem (by omega)]

theorem at_eq (hb : Holds b p l) (hs : Small b.capacity (p + l.length)) (i : Nat) : b.at? i = l[i]? := by
  rw [at?, hb.size]
  split
  · rename_i hi
    have hp := hs.index_le hb.pos (show p ≤ p + l.length by omega)
    have hfits := hb.fits
    have hsum : i + p % b.capacity < 2 ^ 64 := by
      obtain hs | hs := hs <;> omega
    have hpos := hb.pos
    rw [hb.head, toSize_mod hp, Nat.mod_eq_of_lt hsum, rem, if_neg hpos.ne', Option.bind_eq_bind, Option.bind_some,
      Nat.add_mod_mod, Nat.add_comm, hb.slot_eq hi, List.getElem?_eq_getElem hi]
  · rename_i hi
    rw [List.getElem?_eq_none (by omega)]

theorem begin_eq (hb : Holds b p l) : b.begin = ⟨((p + 0) % b.capacity : Nat), 0⟩ := by
  rw [Nat.add_zero, ← hb.head]
  rfl

/-- An iterator after `i` steps is at the element `i`. -/
theorem upTo_eq (hb : Holds b p l) (hs : Small b.capacity (p + l.length)) {last : RingBufferIterator false false}
    (hlast : last.plusCount = b.size) (fuel : Nat) (hi : i ≤ l.length) (hf : l.length < i + fuel) :
    RingBufferIterator.upTo b last fuel ⟨((p + i) % b.capacity : Nat), i⟩ = some (l.drop i) := by
  have hidx (i : Nat) (hi : i < l.length) := hs.index hb.pos (show p + i < p + l.length by omega)
  refine upTo_forward (hlast.trans hb.size) (fun i hi => ?_) (fun i hi => ?_) fuel hi hf
  · rw [toSize_mod (Nat.lt_of_succ_lt (hidx i hi)), hb.slot_eq hi]
  · rw [nextIndex_mod hb.pos, if_pos (hidx i hi), Nat.add_assoc]

/-- An iterator has to move past every element. -/
theorem index_of_upTo (hb : Holds b p l) {last : RingBufferIterator false false} (hlast : last.plusCount = b.size)
    {fuel : Nat} {r : List T}
    (h : RingBufferIterator.upTo b last fuel ⟨((p + i) % b.capacity : Nat), i⟩ = some r) {j : Nat} (hij : i ≤ j)
    (hj : j < l.length) : (p + j) % b.capacity + 1 < 2 ^ 31 := by
  induction fuel generalizing i r with
  | zero => cases h
  | succ fuel ih =>
    have hne : i ≠ last.plusCount := by
      rw [hlast, hb.size]
      omega
    rw [RingBufferIterator.upTo, if_neg hne] at h
    obtain ⟨x, -, h⟩ := Option.bind_eq_some_iff.1 h
    obtain ⟨it, hnext, h⟩ := Option.bind_eq_some_iff.1 h
    rw [RingBufferIterator.next] at hnext
    simp only [Bool.false_eq_true, if_false, nextIndex_mod hb.pos] at hnext
    by_cases hidx : (p + i) % b.capacity + 1 < 2 ^ 31
    · rw [if_pos hidx] at hnext
      cases hnext
      obtain rfl | hlt := Nat.eq_or_lt_of_le hij
      · exact hidx
      · obtain ⟨r', hr, -⟩ := Option.bind_eq_some_iff.1 h
        exact ih hr hlt
    · rw [if_neg hidx] at hnext
      cases hnext

theorem shows (hb : Holds b p l) (hs : Small b.capacity (p + l.length)) : Shows b l := by
  have hlast : b.end'.plusCount = b.size := rfl
  have hforward := hb.upTo_eq hs hlast (b.size + 1) (Nat.zero_le _) (by rw [hb.size]; omega)
  refine ⟨hb.size, ?_, hb.front_eq (hs.mono (Nat.sub_le _ _)), hb.back_eq hs, hb.at_eq hs, ?_⟩
  · cases l <;> simp [empty, hb.size]
  · rw [← hb.begin_eq, List.drop_zero] at hforward
    exact hforward

end Holds

/-- The buffer of capacity `c` holds `l` after `n` elements were put into it. -/
def Keeps (b : RingBuffer T) (c n : Nat) (l : List T) : Prop :=
  b.capacity = c ∧ ∃ p, Holds b p l ∧ p + l.length = n

theorem rtake_concat (hc : 0 < c) (hl : l.length ≤ c) (x : T) :
    (l ++ [x]).rtake c = (if l.length = c then l.tail else l) ++ [x] := by
  rw [List.rtake, List.length_append, List.length_singleton]
  split
  · rename_i he
    have hne : l ≠ [] := by
      rintro rfl
      rw [List.length_nil] at he
      omega
    rw [he, Nat.add_sub_cancel_left, List.drop_one, List.tail_append_of_ne_nil hne]
  · rename_i hne
    rw [show l.length + 1 - c = 0 by omega, List.drop_zero]

namespace Keeps

theorem make [Inhabited T] (hc : 0 < c) : Keeps (Window.make c : RingBuffer T) c 0 [] :=
  ⟨rfl, 0, Holds.make hc, rfl⟩

theorem pos (hb : Keeps b c n l) : 0 < c := by
  obtain ⟨rfl, p, hb, -⟩ := hb
  exact hb.pos

theorem length_le (hb : Keeps b c n l) : l.length ≤ c ∧ l.length ≤ n := by
  obtain ⟨rfl, p, hb, rfl⟩ := hb
  exact ⟨hb.fits, Nat.le_add_left _ _⟩

/-- The first element can go unless its index is the largest `int`. -/
theorem popFront (hb : Keeps b c n (x :: l)) (hs : Small c (n - l.length)) :
    ∃ b', b.popFront k = some b' ∧ Keeps b' c n l := by
  obtain ⟨rfl, p, hb, rfl⟩ := hb
  rw [List.length_cons] at hs ⊢
  obtain ⟨b', hpop, hb', hc⟩ := hb.popFront (k := k) (hs.index hb.pos (by omega))
  exact ⟨b', hpop, hc, p + 1, hb', by omega⟩

theorem emplaceBack (hb : Keeps b c n l) (hs : Small c n) (t : Bool) (x : T) :
    ∃ b', b.emplaceBack (kind t) x = some b' ∧ Keeps b' c (n + 1) ((l ++ [x]).rtake c) := by
  rw [rtake_concat hb.pos hb.length_le.1]
  split
  · rename_i he
    have hsize : b.full = true := by
      obtain ⟨rfl, p, hb, -⟩ := hb
      simp [full, hb.size, he]
    cases l with
    | nil =>
      have hpos := hb.pos
      rw [List.length_nil] at he
      omega
    | cons y l =>
      have hlen := hb.length_le.1
      rw [List.length_cons] at hlen
      obtain ⟨b₁, hpop, rfl, p, hb₁, rfl⟩ := hb.popFront (k := kind t) (hs.mono (Nat.sub_le _ _))
      obtain ⟨b₂, hpush, hb₂, hc⟩ := hb₁.emplaceBackImpl (by omega) hs x
      refine ⟨b₂, ?_, hc, p, hb₂, by rw [List.tail_cons, List.length_append]; rfl⟩
      rw [RingBuffer.emplaceBack, if_pos hsize, if_pos (show (kind t).overwrite = true from rfl), hpop]
      exact hpush
  · rename_i hne
    have hlen := hb.length_le.1
    obtain ⟨rfl, p, hb, rfl⟩ := hb
    have hsize : b.full = false := by simp [full, hb.size, hne]
    obtain ⟨b₂, hpush, hb₂, hc⟩ := hb.emplaceBackImpl (by omega) hs x
    exact ⟨b₂, by simp [RingBuffer.emplaceBack, hsize, hpush], hc, p, hb₂, by rw [List.length_append]; rfl⟩

/-- A type with a destructor. -/
theorem clear (hb : Keeps b c n l) (hs : Small c n) :
    ∃ b', Window.clear (kind false) b = some b' ∧ Keeps b' c n [] := by
  obtain ⟨rfl, p, hb, rfl⟩ := hb
  obtain ⟨b', p', hd, hb', rfl, hc⟩ := hb.destroyAll (k := kind false) hs (Nat.lt_succ_self l.length)
  refine ⟨b', ?_, hc, _, hb', rfl⟩
  rw [Window.clear, if_neg (by simp [kind]), hb.size]
  exact hd

theorem front_eq (hb : Keeps b c n l) (hs : Small c (n - 1)) : b.front = l.head? := by
  obtain ⟨rfl, p, hb, rfl⟩ := hb
  exact hb.front_eq hs

theorem empty_eq (hb : Keeps b c n l) : b.empty = l.isEmpty := by
  obtain ⟨rfl, p, hb, rfl⟩ := hb
  cases l <;> simp [RingBuffer.empty, hb.size]

theorem shows (hb : Keeps b c n l) (hs : Small c n) : Shows b l := by
  obtain ⟨rfl, p, hb, rfl⟩ := hb
  exact hb.shows hs

/-- A traversal passes the last element. -/
theorem small_of_traverse (hb : Keeps b c (n + 1) (l ++ [x])) (hs : Small c n) {r : List T}
    (h : b.traverse b.begin b.end' = some r) : Small c (n + 1) := by
  obtain ⟨rfl, p, hb, hn⟩ := hb
  have hlen : p + l.length = n := by
    rw [List.length_append, List.length_singleton] at hn
    omega
  by_cases hc : b.capacity < 2 ^ 31
  · exact .inl hc
  · right
    have hlt : n < 2 ^ 31 := hs.resolve_left hc
    rw [RingBuffer.traverse, hb.begin_eq] at h
    have hidx := hb.index_of_upTo rfl h (Nat.zero_le l.length) (by simp)
    rw [hlen, Nat.mod_eq_of_lt (by omega)] at hidx
    exact hidx

end Keeps

end Wizard.Window
