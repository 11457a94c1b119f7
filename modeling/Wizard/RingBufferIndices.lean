import Wizard.Runs
import Wizard.WindowBuffer

/-! The indices of the ring buffer, for every capacity. The functions of `ringbuffer.h` are
here again with the faults that their index arithmetic can have. -/

namespace Wizard.RingBuffer.Indices

/-- `overflow` is also a `size_t` that an `int` index cannot hold, and `outside` is a slot
that the array does not have. -/
inductive Fault where
  | divisionByZero
  | overflow
  | outside
deriving DecidableEq

variable {T : Type}

section Model

def incr (i : Int) : Except Fault Int := if i + 1 < 2 ^ 31 then .ok (i + 1) else .error .overflow

def rem (n c : Nat) : Except Fault Nat := if c = 0 then .error .divisionByZero else .ok (n % c)

/-- A `size_t` stored in an `int`. -/
def store (n : Nat) : Except Fault Int := if n < 2 ^ 31 then .ok n else .error .overflow

/-- `(i + 1) % capacity`. -/
def nextIndex (i : Int) (c : Nat) : Except Fault Int := do
  let r ← rem (toSize (← incr i)) c
  store r

/-- `i + capacity - 1`, which is an expression of `size_t`s. -/
def pred (i : Int) (c : Nat) : Nat := (toSize i + c + (2 ^ 64 - 1)) % 2 ^ 64

/-- `(i + capacity - 1) % capacity`. -/
def prevIndex (i : Int) (c : Nat) : Except Fault Int := do
  let r ← rem (pred i c) c
  store r

def destroy (k : Kind) (b : RingBuffer T) (index : Nat) : Except Fault (RingBuffer T) :=
  if k.trivial then .ok b
  else if index < b.capacity then .ok { b with elements := Function.update b.elements index none }
  else .error .outside

def popFront (k : Kind) (b : RingBuffer T) : Except Fault (RingBuffer T) :=
  if b.empty then .ok b else do
    let b ← destroy k b (toSize b.head)
    return { b with size := b.size - 1, head := ← nextIndex b.head b.capacity }

def emplaceBackImpl (b : RingBuffer T) (x : T) : Except Fault (RingBuffer T) := do
  let tail ← nextIndex b.tail b.capacity
  if 0 ≤ tail ∧ tail < b.capacity then
    .ok { b with elements := Function.update b.elements tail.toNat (some x), tail := tail, size := b.size + 1 }
  else .error .outside

def emplaceBack (k : Kind) (b : RingBuffer T) (x : T) : Except Fault (RingBuffer T) :=
  if b.full then
    if k.overwrite then do emplaceBackImpl (← popFront k b) x else .ok b
  else emplaceBackImpl b x

/-- The loop of `_destroy_all` for a type with a destructor. It ends after `size_` rounds. -/
def destroyAll (k : Kind) : Nat → RingBuffer T → Except Fault (RingBuffer T)
  | 0, b => .ok b
  | n + 1, b =>
    if b.empty then .ok b else do
      let b ← destroy k b (toSize b.head)
      destroyAll k n { b with head := ← nextIndex b.head b.capacity, size := b.size - 1 }

def clear (k : Kind) (b : RingBuffer T) : Except Fault (RingBuffer T) :=
  if k.trivial then .ok { b with head := 0, tail := -1, size := 0 } else destroyAll k b.size b

def next {C R : Bool} (it : RingBufferIterator C R) (b : RingBuffer T) : Except Fault (RingBufferIterator C R) :=
  (if R then prevIndex it.index b.capacity else nextIndex it.index b.capacity).map fun index =>
    ⟨index, it.plusCount + 1⟩

/-- An iterator that the program has. -/
structure Held where
  C : Bool
  R : Bool
  it : RingBufferIterator C R

inductive Source where
  | begin | end' | rbegin | rend | cbegin | cend | crbegin | crend

def Source.get (b : RingBuffer T) : Source → Held
  | begin => ⟨_, _, b.begin⟩
  | end' => ⟨_, _, b.end'⟩
  | rbegin => ⟨_, _, b.rbegin⟩
  | rend => ⟨_, _, b.rend⟩
  | cbegin => ⟨_, _, b.cbegin⟩
  | cend => ⟨_, _, b.cend⟩
  | crbegin => ⟨_, _, b.crbegin⟩
  | crend => ⟨_, _, b.crend⟩

/-- Iterators live on while the buffer changes. -/
structure State (T : Type) where
  buf : RingBuffer T
  iterators : List Held

inductive Op (T : Type) where
  | apply (op : RingBuffer.Op T)
  | get (source : Source)
  | copy (n : Nat)
  | increment (n : Nat)

def apply (k : Kind) (b : RingBuffer T) : RingBuffer.Op T → Except Fault (RingBuffer T)
  | .emplaceBack x => emplaceBack k b x
  | .popFront => popFront k b
  | .clear => clear k b

def Op.step (k : Kind) (s : State T) : Op T → Except Fault (State T)
  | apply op => do return { s with buf := ← Indices.apply k s.buf op }
  | get source => .ok { s with iterators := s.iterators ++ [source.get s.buf] }
  | copy n => .ok { s with iterators := s.iterators ++ s.iterators[n]?.toList }
  | increment n =>
    match s.iterators[n]? with
    | none => .ok s
    | some x => do return { s with iterators := s.iterators.set n ⟨x.C, x.R, ← next x.it s.buf⟩ }

def run (k : Kind) (c : Nat) (ops : List (Op T)) : Except Fault (State T) :=
  ops.foldlM (Op.step k) ⟨RingBuffer.make c, []⟩

end Model

/-- Every element that can be read is in a slot of the array. An iterator at `-1` was taken
from the end of an empty buffer. -/
structure Inside (s : State T) : Prop where
  front : 0 < s.buf.size → toSize s.buf.head < s.buf.capacity
  back : 0 < s.buf.size → toSize s.buf.tail < s.buf.capacity
  at' : ∀ i < s.buf.size, ∃ j < s.buf.capacity, rem ((i + toSize s.buf.head) % 2 ^ 64) s.buf.capacity = .ok j
  deref : ∀ x ∈ s.iterators, 0 < s.buf.capacity → x.it.index ≠ -1 → toSize x.it.index < s.buf.capacity

/-- No index of a run has a fault. -/
def Safe (k : Kind) (c : Nat) (ops : List (Op T)) : Prop := ∃ s, run k c ops = .ok s ∧ Inside s

/-- The capacity is at most the largest `int`, or the index is before it. -/
def Fits (c : Nat) (i : Int) : Prop := c < 2 ^ 31 ∨ i < 2 ^ 31 - 1

/-- Only an element that is stored moves the tail, and only one that goes moves the head. -/
def Ready (k : Kind) (b : RingBuffer T) : RingBuffer.Op T → Prop
  | .emplaceBack _ => (b.full → k.overwrite) → 0 < b.capacity ∧ Fits b.capacity b.tail
  | .popFront => b.empty = false → Fits b.capacity b.head
  | .clear => k.trivial = false → b.empty = false → Fits b.capacity (b.head + b.size - 1)

def Movable (b : RingBuffer T) (x : Held) : Prop :=
  0 < b.capacity ∧
    if x.R then x.it.index ≤ 0 → (b.capacity : Int) + x.it.index ≤ 2 ^ 31 else Fits b.capacity x.it.index

def Op.Careful (k : Kind) (s : State T) : Op T → Prop
  | apply op => Ready k s.buf op
  | get _ | copy _ => True
  | increment n => ∀ x ∈ s.iterators[n]?, Movable s.buf x

def Careful (k : Kind) (c : Nat) (ops : List (Op T)) : Prop :=
  EachStep (Op.step k) (Op.Careful k) ⟨RingBuffer.make c, []⟩ ops

variable {k : Kind} {b b' : RingBuffer T} {s s' : State T} {ops : List (Op T)} {c i j m n p : Nat} {l : List T} {x : T}

section Index

theorem room_of_nextIndex {i j : Int} (h : nextIndex i c = .ok j) : 0 < c ∧ i + 1 < 2 ^ 31 := by
  rw [nextIndex, incr] at h
  by_cases hi : i + 1 < 2 ^ 31
  · rw [if_pos hi] at h
    change (Indices.rem (toSize (i + 1)) c).bind store = _ at h
    by_cases hc : c = 0
    · rw [Indices.rem, if_pos hc] at h
      cases h
    · exact ⟨Nat.pos_of_ne_zero hc, hi⟩
  · rw [if_neg hi] at h
    cases h

theorem nextIndex_of_lt {i : Int} (hi : -1 ≤ i) (hlt : i + 1 < 2 ^ 31) (hpos : 0 < c) (hn : (i + 1).toNat = n) :
    nextIndex i c = .ok ((n % c : Nat) : Int) := by
  have hi' : i + 1 = n := by omega
  have hmod : n % c ≤ n := Nat.mod_le n c
  have hnat : n < 2 ^ 64 := by omega
  rw [nextIndex, incr, if_pos hlt, hi']
  change (Indices.rem (toSize n) c).bind store = _
  rw [toSize_natCast hnat, Indices.rem, if_neg hpos.ne']
  exact if_pos (by omega)

/-- Both versions compute the same index. -/
theorem nextIndex_of_some {i j : Int} (hi : -1 ≤ i) (h : RingBuffer.nextIndex i c = some j) :
    nextIndex i c = .ok j := by
  by_cases hlt : i + 1 < 2 ^ 31
  · by_cases hc : c = 0
    · rw [RingBuffer.nextIndex, RingBuffer.incr, if_pos hlt] at h
      simp only [RingBuffer.rem, if_pos hc, Option.bind_eq_bind, Option.bind_some, Option.bind_none] at h
      cases h
    · have hpos := Nat.pos_of_ne_zero hc
      rw [RingBuffer.nextIndex_of_lt hi hlt hpos rfl] at h
      cases h
      exact nextIndex_of_lt hi hlt hpos rfl
  · rw [RingBuffer.nextIndex, RingBuffer.incr, if_neg hlt] at h
    cases h

theorem lt_of_store {i : Int} (h : store n = .ok i) : i = n ∧ n < 2 ^ 31 := by
  rw [store] at h
  split at h
  · rename_i hn
    cases h
    exact ⟨rfl, hn⟩
  · cases h

/-- What the two ends of a step backwards need of the capacity. -/
theorem pred_mod_lt_iff {i : Int} (hi : -1 ≤ i) (hic : i < c) (hlt : i < 2 ^ 31) (hpos : 0 < c) (hc : c < 2 ^ 64) :
    pred i c % c < 2 ^ 31 ↔ (i ≤ 0 → (c : Int) + i ≤ 2 ^ 31) := by
  rw [pred]
  obtain rfl | rfl | hpos' : i = -1 ∨ i = 0 ∨ 0 < i := by omega
  · have hsize : toSize (-1) = 2 ^ 64 - 1 := rfl
    rw [hsize]
    obtain rfl | hc' : c = 1 ∨ 1 < c := by omega
    · simp [Nat.mod_one]
    · have hm : (2 ^ 64 - 1 + c + (2 ^ 64 - 1)) % 2 ^ 64 = c - 2 := by omega
      rw [hm, Nat.mod_eq_of_lt (by omega)]
      omega
  · have hsize : toSize 0 = 0 := rfl
    have hm : (0 + c + (2 ^ 64 - 1)) % 2 ^ 64 = c - 1 := by omega
    rw [hsize, hm, Nat.mod_eq_of_lt (by omega)]
    omega
  · obtain ⟨n, rfl⟩ : ∃ n : Nat, i = n + 1 := ⟨(i - 1).toNat, by omega⟩
    have hsize : toSize ((n : Int) + 1) = n + 1 := toSize_natCast (n := n + 1) (by omega)
    have hle : (n + 1 + c + (2 ^ 64 - 1)) % 2 ^ 64 % c ≤ n := by
      -- with a very large capacity the sum itself wraps
      obtain h | h : n + c < 2 ^ 64 ∨ 2 ^ 64 ≤ n + c := by omega
      · have hm : (n + 1 + c + (2 ^ 64 - 1)) % 2 ^ 64 = n + c := by omega
        rw [hm, Nat.add_mod_right]
        exact Nat.mod_le n c
      · have hm : (n + 1 + c + (2 ^ 64 - 1)) % 2 ^ 64 ≤ n := by omega
        exact (Nat.mod_le _ _).trans hm
    rw [hsize]
    omega

theorem pos_of_prevIndex {i j : Int} (h : prevIndex i c = .ok j) : 0 < c := by
  by_contra hc
  rw [prevIndex, Indices.rem, if_pos (by omega)] at h
  cases h

theorem prevIndex_eq (hpos : 0 < c) (i : Int) : prevIndex i c = store (pred i c % c) := by
  rw [prevIndex, Indices.rem, if_neg hpos.ne']
  exact pure_bind _ _

/-- Where an index may be. -/
structure Bounded (c : Nat) (i : Int) : Prop where
  ge : -1 ≤ i
  lt : i < c
  fits : i < 2 ^ 31

theorem exists_prevIndex_iff {i : Int} (hi : Bounded c i) (hpos : 0 < c) (hc : c < 2 ^ 64) :
    (∃ j, prevIndex i c = .ok j) ↔ (i ≤ 0 → (c : Int) + i ≤ 2 ^ 31) := by
  rw [prevIndex_eq hpos, ← pred_mod_lt_iff hi.ge hi.lt hi.fits hpos hc]
  constructor
  · rintro ⟨j, hj⟩
    exact (lt_of_store hj).2
  · intro h
    exact ⟨_, if_pos h⟩

theorem exists_nextIndex_iff {i : Int} (hi : Bounded c i) (hpos : 0 < c) :
    (∃ j, nextIndex i c = .ok j) ↔ Fits c i := by
  constructor
  · rintro ⟨j, hj⟩
    have hroom := (room_of_nextIndex hj).2
    exact .inr (by omega)
  · intro h
    have hlt := hi.lt
    have hroom : i + 1 < 2 ^ 31 := by
      obtain h | h := h <;> omega
    exact ⟨_, nextIndex_of_lt hi.ge hroom hpos rfl⟩

theorem bounded_of_prevIndex {i j : Int} (hpos : 0 < c) (h : prevIndex i c = .ok j) : Bounded c j := by
  rw [prevIndex_eq hpos] at h
  obtain ⟨rfl, hn⟩ := lt_of_store h
  have hmod := Nat.mod_lt (pred i c) hpos
  exact ⟨by omega, by omega, by omega⟩

theorem bounded_of_nextIndex {i j : Int} (hi : -1 ≤ i) (h : nextIndex i c = .ok j) : Bounded c j := by
  obtain ⟨hpos, hroom⟩ := room_of_nextIndex h
  rw [nextIndex_of_lt hi hroom hpos rfl] at h
  cases h
  have hmod := Nat.mod_lt (i + 1).toNat hpos
  have hle := Nat.mod_le (i + 1).toNat c
  exact ⟨by omega, by omega, by omega⟩

end Index

section Iterators

variable {C R : Bool} {it it' : RingBufferIterator C R}

/-- Both versions move an iterator to the same place. -/
theorem next_of_ok (hi : -1 ≤ it.index) (h : Indices.next it b = .ok it') : it.next b = some it' := by
  obtain ⟨i, hi', rfl⟩ := map_eq_ok.1 h
  rw [RingBufferIterator.next]
  cases R
  · change nextIndex it.index b.capacity = _ at hi'
    obtain ⟨hpos, hroom⟩ := room_of_nextIndex hi'
    rw [nextIndex_of_lt hi hroom hpos rfl] at hi'
    cases hi'
    simp only [Bool.false_eq_true, if_false, RingBuffer.nextIndex_of_lt hi hroom hpos rfl, Option.bind_eq_bind,
      Option.bind_some, pure]
  · change prevIndex it.index b.capacity = _ at hi'
    have hpos := pos_of_prevIndex hi'
    rw [prevIndex_eq hpos] at hi'
    obtain ⟨rfl, hlt⟩ := lt_of_store hi'
    have hrem : RingBuffer.rem (pred it.index b.capacity) b.capacity = some (pred it.index b.capacity % b.capacity) :=
      if_neg hpos.ne'
    have hstep : (RingBuffer.rem (pred it.index b.capacity) b.capacity).map toInt =
        some ((pred it.index b.capacity % b.capacity : Nat) : Int) := by
      rw [hrem, Option.map_some, toInt_of_lt hlt]
    rw [pred] at hstep
    simp only [if_true, hstep, Option.bind_eq_bind, Option.bind_some, pure, pred]

theorem pos_of_next (h : next it b = .ok it') : 0 < b.capacity := by
  obtain ⟨i, hi, -⟩ := map_eq_ok.1 h
  cases R
  · exact (room_of_nextIndex hi).1
  · exact pos_of_prevIndex hi

theorem exists_next_iff (hi : 0 < b.capacity → Bounded b.capacity it.index) (hc : b.capacity < 2 ^ 64) :
    (∃ it', next it b = .ok it') ↔ Movable b ⟨C, R, it⟩ := by
  have hiff (hpos : 0 < b.capacity) : (∃ it', next it b = .ok it') ↔
      if R then it.index ≤ 0 → (b.capacity : Int) + it.index ≤ 2 ^ 31 else Fits b.capacity it.index := by
    rw [next, exists_map_eq_ok]
    cases R
    · exact exists_nextIndex_iff (hi hpos) hpos
    · exact exists_prevIndex_iff (hi hpos) hpos hc
  constructor
  · rintro ⟨it', h⟩
    have hpos := pos_of_next h
    exact ⟨hpos, (hiff hpos).1 ⟨it', h⟩⟩
  · rintro ⟨hpos, h⟩
    exact (hiff hpos).2 h

theorem step_increment {x : Held} {it' : RingBufferIterator x.C x.R} (hn : s.iterators[n]? = some x)
    (h : next x.it s.buf = .ok it') :
    (Op.increment n).step k s = .ok { s with iterators := s.iterators.set n ⟨x.C, x.R, it'⟩ } := by
  rw [Op.step, hn]
  exact bind_eq_ok.2 ⟨it', h, rfl⟩

theorem bounded_of_next (hi : -1 ≤ it.index) (hpos : 0 < b.capacity) (h : next it b = .ok it') :
    Bounded b.capacity it'.index := by
  obtain ⟨i, hi', rfl⟩ := map_eq_ok.1 h
  cases R
  · exact bounded_of_nextIndex hi hi'
  · exact bounded_of_prevIndex hpos hi'

end Iterators

/-! Where an operation of `RingBuffer` returns, its indices have no fault. -/

section Buffer

theorem destroy_of_some (h : b.destroy k i = some b') : Indices.destroy k b i = .ok b' := by
  rw [RingBuffer.destroy] at h
  rw [Indices.destroy]
  split at h
  · rename_i hk
    cases h
    exact if_pos hk
  · rename_i hk
    obtain ⟨x, hx, he⟩ := Option.bind_eq_some_iff.1 h
    cases he
    rw [if_neg hk]
    rw [slot] at hx
    split at hx
    · rename_i hi
      exact if_pos hi
    · cases hx

theorem destroy_eq_ok (h : Indices.destroy k b i = .ok b') : ∃ e, b' = { b with elements := e } := by
  rw [Indices.destroy] at h
  split at h
  · cases h
    exact ⟨b.elements, rfl⟩
  · split at h
    · cases h
      exact ⟨_, rfl⟩
    · cases h

theorem popFront_of_some (hh : -1 ≤ b.head) (h : b.popFront k = some b') : Indices.popFront k b = .ok b' := by
  rw [RingBuffer.popFront] at h
  rw [Indices.popFront]
  split at h
  · rename_i he
    cases h
    exact if_pos he
  · rename_i he
    obtain ⟨b₁, h₁, h⟩ := Option.bind_eq_some_iff.1 h
    obtain ⟨j, hj, h⟩ := Option.bind_eq_some_iff.1 h
    cases h
    have h₁' := destroy_of_some h₁
    obtain ⟨e, rfl⟩ := destroy_eq_ok h₁'
    rw [if_neg he]
    exact bind_eq_ok.2 ⟨_, h₁', bind_eq_ok.2 ⟨j, nextIndex_of_some hh hj, rfl⟩⟩

theorem popFront_eq_ok (hne : b.empty = false) (h : Indices.popFront k b = .ok b') :
    ∃ e j, nextIndex b.head b.capacity = .ok j ∧ b' = { b with elements := e, size := b.size - 1, head := j } := by
  rw [Indices.popFront, hne] at h
  obtain ⟨b₁, h₁, h⟩ := bind_eq_ok.1 h
  obtain ⟨j, hj, h⟩ := bind_eq_ok.1 h
  obtain ⟨e, rfl⟩ := destroy_eq_ok h₁
  cases h
  exact ⟨e, j, hj, rfl⟩

theorem emplaceBackImpl_of_some (ht : -1 ≤ b.tail) (h : b.emplaceBackImpl x = some b') :
    Indices.emplaceBackImpl b x = .ok b' := by
  obtain ⟨j, hj, h⟩ := Option.bind_eq_some_iff.1 h
  refine bind_eq_ok.2 ⟨j, nextIndex_of_some ht hj, ?_⟩
  split at h
  · rename_i hin
    cases h
    exact if_pos hin
  · cases h

theorem room_of_emplaceBackImpl (h : Indices.emplaceBackImpl b x = .ok b') : 0 < b.capacity ∧ b.tail + 1 < 2 ^ 31 := by
  obtain ⟨j, hj, -⟩ := bind_eq_ok.1 h
  exact room_of_nextIndex hj

theorem popFront_frame (h : Indices.popFront k b = .ok b') : b'.tail = b.tail ∧ b'.capacity = b.capacity := by
  cases he : b.empty with
  | true =>
    rw [Indices.popFront, he] at h
    cases h
    exact ⟨rfl, rfl⟩
  | false =>
    obtain ⟨e, j, -, rfl⟩ := popFront_eq_ok he h
    exact ⟨rfl, rfl⟩

theorem emplaceBack_of_some (hh : -1 ≤ b.head) (ht : -1 ≤ b.tail) (h : b.emplaceBack k x = some b') :
    Indices.emplaceBack k b x = .ok b' := by
  rw [RingBuffer.emplaceBack] at h
  rw [Indices.emplaceBack]
  split at h
  · rename_i hf
    rw [if_pos hf]
    split at h
    · rename_i ho
      obtain ⟨b₁, h₁, h⟩ := Option.bind_eq_some_iff.1 h
      have h₁' := popFront_of_some hh h₁
      rw [if_pos ho]
      exact bind_eq_ok.2 ⟨b₁, h₁', emplaceBackImpl_of_some (by rw [(popFront_frame h₁').1]; exact ht) h⟩
    · rename_i ho
      cases h
      exact if_neg ho
  · rename_i hf
    rw [if_neg hf]
    exact emplaceBackImpl_of_some ht h

theorem room_of_emplaceBack (hs : b.full → k.overwrite) (h : Indices.emplaceBack k b x = .ok b') :
    0 < b.capacity ∧ b.tail + 1 < 2 ^ 31 := by
  rw [Indices.emplaceBack] at h
  split at h
  · rename_i hf
    rw [if_pos (hs hf)] at h
    obtain ⟨b₁, h₁, h⟩ := bind_eq_ok.1 h
    obtain ⟨ht, hc⟩ := popFront_frame h₁
    rw [← ht, ← hc]
    exact room_of_emplaceBackImpl h
  · exact room_of_emplaceBackImpl h

theorem destroyAll_succ (hne : b.empty = false) : Indices.destroyAll k (n + 1) b = .ok b' ↔
    ∃ e j, Indices.destroy k b (toSize b.head) = .ok { b with elements := e } ∧
      nextIndex b.head b.capacity = .ok j ∧
      Indices.destroyAll k n { b with elements := e, head := j, size := b.size - 1 } = .ok b' := by
  rw [Indices.destroyAll, hne]
  constructor
  · intro h
    obtain ⟨b₁, h₁, h⟩ := bind_eq_ok.1 h
    obtain ⟨j, hj, h⟩ := bind_eq_ok.1 h
    obtain ⟨e, rfl⟩ := destroy_eq_ok h₁
    exact ⟨e, j, h₁, hj, h⟩
  · rintro ⟨e, j, h₁, hj, h⟩
    exact bind_eq_ok.2 ⟨_, h₁, bind_eq_ok.2 ⟨j, hj, h⟩⟩

theorem destroyAll_of_empty (he : b.empty = true) : Indices.destroyAll k n b = .ok b := by
  cases n with
  | zero => rfl
  | succ n => exact if_pos he

theorem destroyAll_of_some {fuel : Nat} (hh : -1 ≤ b.head) (hn : b.size ≤ n) (h : b.destroyAll k fuel = some b') :
    Indices.destroyAll k n b = .ok b' := by
  induction fuel generalizing b n with
  | zero => cases h
  | succ fuel ih =>
    cases he : b.empty with
    | true =>
      rw [RingBuffer.destroyAll, he] at h
      cases h
      exact destroyAll_of_empty he
    | false =>
      rw [RingBuffer.destroyAll, he] at h
      obtain ⟨b₁, h₁, h⟩ := Option.bind_eq_some_iff.1 h
      obtain ⟨j, hj, h⟩ := Option.bind_eq_some_iff.1 h
      have h₁' := destroy_of_some h₁
      obtain ⟨e, rfl⟩ := destroy_eq_ok h₁'
      have hj' := nextIndex_of_some hh hj
      obtain ⟨n, rfl⟩ : ∃ m, n = m + 1 := by
        have hpos : b.size ≠ 0 := by simpa [empty] using he
        exact ⟨n - 1, by omega⟩
      refine (destroyAll_succ he).2 ⟨e, j, h₁', hj', ?_⟩
      exact ih (bounded_of_nextIndex hh hj').ge (Nat.sub_le_of_le_add hn) h

/-- Its rounds are enough. -/
theorem empty_of_destroyAll (hn : b.size ≤ n) (h : Indices.destroyAll k n b = .ok b') : b'.empty = true := by
  induction n generalizing b with
  | zero =>
    cases h
    simpa [empty] using hn
  | succ n ih =>
    cases he : b.empty with
    | true =>
      rw [destroyAll_of_empty he] at h
      cases h
      exact he
    | false =>
      obtain ⟨e, j, -, -, h⟩ := (destroyAll_succ he).1 h
      exact ih (Nat.sub_le_of_le_add hn) h

/-- The head moves past every element, and it cannot come back to `0`. -/
theorem room_of_destroyAll (hn : b.size ≤ n) (h : Indices.destroyAll k n b = .ok b') (hh : 0 ≤ b.head)
    (hc : 2 ^ 31 ≤ b.capacity) (hne : b.empty = false) : b.head + b.size < 2 ^ 31 := by
  induction n generalizing b with
  | zero =>
    have hsize : b.size = 0 := Nat.le_zero.1 hn
    simp [empty, hsize] at hne
  | succ n ih =>
    obtain ⟨e, j, -, hj, h⟩ := (destroyAll_succ hne).1 h
    have hroom := (room_of_nextIndex hj).2
    rw [nextIndex_of_lt (by omega) hroom (by omega) rfl, Nat.mod_eq_of_lt (by omega)] at hj
    cases hj
    by_cases hone : b.size = 1
    · rw [hone]
      exact hroom
    · have hpos : b.size ≠ 0 := by simpa [empty] using hne
      have hrest := ih (b := { b with elements := e, head := ((b.head + 1).toNat : Int), size := b.size - 1 })
        (Nat.sub_le_of_le_add hn) h (Int.natCast_nonneg _) hc (by simp only [empty, decide_eq_false_iff_not]; omega)
      change ((b.head + 1).toNat : Int) + (b.size - 1 : Nat) < 2 ^ 31 at hrest
      omega

theorem clear_of_some (hh : -1 ≤ b.head) (h : b.clear k = some b') : Indices.clear k b = .ok b' := by
  rw [RingBuffer.clear] at h
  rw [Indices.clear]
  split at h
  · rename_i hk
    cases h
    exact if_pos hk
  · rename_i hk
    rw [if_neg hk]
    exact destroyAll_of_some hh (Nat.le_refl _) h

theorem apply_of_step {op : RingBuffer.Op T} (hh : -1 ≤ b.head) (ht : -1 ≤ b.tail) (h : op.step k b = some b') :
    apply k b op = .ok b' := by
  cases op with
  | emplaceBack x => exact emplaceBack_of_some hh ht h
  | popFront => exact popFront_of_some hh h
  | clear => exact clear_of_some hh h

theorem ready_of_apply {op : RingBuffer.Op T} (hh : b.empty = false → 0 ≤ b.head) (h : apply k b op = .ok b') :
    Ready k b op := by
  cases op with
  | emplaceBack x =>
    intro hs
    obtain ⟨hpos, hroom⟩ := room_of_emplaceBack hs h
    exact ⟨hpos, .inr (by omega)⟩
  | popFront =>
    intro he
    obtain ⟨e, j, hj, -⟩ := popFront_eq_ok he h
    have hroom := (room_of_nextIndex hj).2
    exact .inr (by omega)
  | clear =>
    intro hk he
    by_cases hc : b.capacity < 2 ^ 31
    · exact .inl hc
    · change Indices.clear k b = _ at h
      rw [Indices.clear, if_neg (by rw [hk]; decide)] at h
      have hroom := room_of_destroyAll (Nat.le_refl _) h (hh he) (by omega) he
      exact .inr (by omega)

/-- A buffer without slots is empty and full. -/
theorem apply_of_idle {op : RingBuffer.Op T} (hc : b.capacity = 0) (hs : b.size = 0) (hr : Ready k b op) :
    ∃ b', apply k b op = .ok b' ∧ b'.capacity = 0 ∧ b'.size = 0 := by
  have he : b.empty = true := by simp [empty, hs]
  cases op with
  | emplaceBack x =>
    have hf : b.full = true := by simp [full, hs, hc]
    have ho : ¬ k.overwrite = true := by
      intro ho
      have hpos := (hr fun _ => ho).1
      omega
    refine ⟨b, ?_, hc, hs⟩
    change Indices.emplaceBack k b x = _
    rw [Indices.emplaceBack, if_pos hf, if_neg ho]
  | popFront => exact ⟨b, if_pos he, hc, hs⟩
  | clear =>
    change ∃ b', Indices.clear k b = _ ∧ _
    rw [Indices.clear]
    split
    · exact ⟨_, rfl, hc, rfl⟩
    · exact ⟨b, destroyAll_of_empty he, hc, hs⟩

end Buffer

/-- The buffer holds `l` after `p` elements went, and no index was past the largest `int`. -/
structure Sound (b : RingBuffer T) (p : Nat) (l : List T) : Prop where
  holds : Window.Holds b p l
  head : Window.Small b.capacity p
  tail : Window.Small b.capacity (p + l.length - 1)

theorem small_succ (h : Window.Small c m) (hf : Fits c ((m % c : Nat) : Int)) : Window.Small c (m + 1) := by
  obtain h | h := h
  · exact .inl h
  · by_cases hc : c < 2 ^ 31
    · exact .inl hc
    · rw [Nat.mod_eq_of_lt (by omega)] at hf
      obtain hf | hf := hf
      · exact .inl hf
      · exact .inr (by omega)

theorem bounded_of_small (h : Window.Small c m) (hpos : 0 < c) : Bounded c ((m % c : Nat) : Int) := by
  have hmod := Nat.mod_lt m hpos
  have hfits := h.index_le hpos (Nat.le_refl m)
  exact ⟨by omega, by omega, by omega⟩

namespace Sound

/-- Both the fresh buffer and one of a trivially destructible type after `clear`. -/
theorem of_start (hc : 0 < c) (e : Nat → Option T) : Sound (⟨e, -1, 0, 0, c⟩ : RingBuffer T) 0 [] := by
  refine ⟨⟨hc, ?_, rfl, rfl, Nat.zero_le _, fun i hi => absurd hi (Nat.not_lt_zero i)⟩, .inr (by omega), .inr ?_⟩
  · rw [Nat.zero_mod]
    rfl
  · rw [List.length_nil]
    omega

theorem make (hc : 0 < c) : Sound (RingBuffer.make c : RingBuffer T) 0 [] := of_start hc _

theorem bounded_head (hb : Sound b p l) : Bounded b.capacity b.head := by
  rw [hb.holds.head]
  exact bounded_of_small hb.head hb.holds.pos

theorem bounded_tail (hb : Sound b p l) : Bounded b.capacity b.tail := by
  rw [hb.holds.tail]
  split
  · have hpos := hb.holds.pos
    exact ⟨by omega, by omega, by omega⟩
  · exact bounded_of_small hb.tail hb.holds.pos

theorem small_of_fits (hb : Sound b p l) (hf : Fits b.capacity b.tail) : Window.Small b.capacity (p + l.length) := by
  by_cases hz : p + l.length = 0
  · rw [hz]
    exact .inr (by omega)
  · rw [hb.holds.tail, if_neg hz] at hf
    have hsucc := small_succ hb.tail hf
    rwa [Nat.sub_add_cancel (Nat.pos_of_ne_zero hz)] at hsucc

theorem popFront (hb : Sound b p l) (hf : b.empty = false → Fits b.capacity b.head) :
    ∃ b' p' l', b.popFront k = some b' ∧ Sound b' p' l' ∧ b'.capacity = b.capacity := by
  cases l with
  | nil =>
    have he : b.empty = true := by simp [empty, hb.holds.size]
    exact ⟨b, p, [], if_pos he, hb, rfl⟩
  | cons x l =>
    have he : b.empty = false := by simp [empty, hb.holds.size]
    have hfits := hf he
    rw [hb.holds.head] at hfits
    have hsmall := small_succ hb.head hfits
    obtain ⟨b', hpop, hb', hc⟩ := hb.holds.popFront (k := k) (hsmall.index hb.holds.pos (Nat.lt_succ_self p))
    refine ⟨b', p + 1, l, hpop, ⟨hb', ?_, ?_⟩, hc⟩
    · rw [hc]
      exact hsmall
    · have htail := hb.tail
      rw [List.length_cons] at htail
      rw [hc, show p + 1 + l.length - 1 = p + (l.length + 1) - 1 by omega]
      exact htail

theorem emplaceBackImpl (hb : Sound b p l) (hfull : l.length < b.capacity) (hs : Window.Small b.capacity (p + l.length))
    (x : T) : ∃ b' p' l', b.emplaceBackImpl x = some b' ∧ Sound b' p' l' ∧ b'.capacity = b.capacity := by
  obtain ⟨b', hpush, hb', hc⟩ := hb.holds.emplaceBackImpl hfull hs x
  refine ⟨b', p, l ++ [x], hpush, ⟨hb', ?_, ?_⟩, hc⟩
  · rw [hc]
    exact hb.head
  · rw [hc, List.length_append]
    exact hs

theorem emplaceBack (hb : Sound b p l) (x : T) (hf : (b.full → k.overwrite) → Fits b.capacity b.tail) :
    ∃ b' p' l', b.emplaceBack k x = some b' ∧ Sound b' p' l' ∧ b'.capacity = b.capacity := by
  rw [RingBuffer.emplaceBack]
  have hsize := hb.holds.size
  have hfits := hb.holds.fits
  split
  · rename_i hfull
    split
    · rename_i ho
      have hs := hb.small_of_fits (hf fun _ => ho)
      have hlen : l.length = b.capacity := by simpa [full, hsize] using hfull
      cases l with
      | nil =>
        have hpos := hb.holds.pos
        rw [List.length_nil] at hlen
        omega
      | cons y l =>
        rw [List.length_cons] at hlen hs
        obtain ⟨b₁, hpop, hb₁, hc₁⟩ := hb.holds.popFront (k := k) (hs.index hb.holds.pos (by omega))
        have hlast : p + 1 + l.length = p + (l.length + 1) := by omega
        have hsound : Sound b₁ (p + 1) l := by
          refine ⟨hb₁, ?_, ?_⟩
          · rw [hc₁]
            exact hs.mono (by omega)
          · rw [hc₁]
            exact hs.mono (by omega)
        obtain ⟨b₂, p₂, l₂, hpush, hb₂, hc₂⟩ :=
          hsound.emplaceBackImpl (by omega) (by rw [hc₁, hlast]; exact hs) x
        refine ⟨b₂, p₂, l₂, ?_, hb₂, hc₂.trans hc₁⟩
        rw [hpop]
        exact hpush
    · exact ⟨b, p, l, rfl, hb, rfl⟩
  · rename_i hfull
    have hne : b.full = true → k.overwrite = true := fun h => absurd h hfull
    have hlen : l.length ≠ b.capacity := by simpa [full, hsize] using hfull
    exact hb.emplaceBackImpl (by omega) (hb.small_of_fits (hf hne)) x

theorem clear (hb : Sound b p l)
    (hf : k.trivial = false → b.empty = false → Fits b.capacity (b.head + b.size - 1)) :
    ∃ b' p' l', b.clear k = some b' ∧ Sound b' p' l' ∧ b'.capacity = b.capacity := by
  by_cases hk : k.trivial
  · exact ⟨_, 0, [], if_pos hk, .of_start hb.holds.pos b.elements, rfl⟩
  · have hs : Window.Small b.capacity (p + l.length) := by
      cases l with
      | nil => exact hb.head
      | cons x l =>
        by_cases hc : b.capacity < 2 ^ 31
        · exact .inl hc
        · have hp := hb.head.resolve_left hc
          have hend := (hf (by simpa using hk) (by simp [empty, hb.holds.size])).resolve_left hc
          rw [hb.holds.head, hb.holds.size, Nat.mod_eq_of_lt (by omega)] at hend
          exact .inr (by omega)
    obtain ⟨b', p', hd, hb', rfl, hc⟩ := hb.holds.destroyAll (k := k) hs (Nat.lt_succ_self l.length)
    refine ⟨b', _, [], ?_, ⟨hb', ?_, ?_⟩, hc⟩
    · rw [RingBuffer.clear, if_neg hk, hb.holds.size]
      exact hd
    · rw [hc]
      exact hs
    · rw [hc]
      exact hs.mono (Nat.sub_le _ _)

theorem step (hb : Sound b p l) {op : RingBuffer.Op T} (hr : Ready k b op) :
    ∃ b' p' l', op.step k b = some b' ∧ Sound b' p' l' ∧ b'.capacity = b.capacity := by
  cases op with
  | emplaceBack x => exact hb.emplaceBack x fun hs => (hr hs).2
  | popFront => exact hb.popFront hr
  | clear => exact hb.clear hr

theorem apply (hb : Sound b p l) {op : RingBuffer.Op T} (hr : Ready k b op) :
    ∃ b' p' l', Indices.apply k b op = .ok b' ∧ Sound b' p' l' ∧ b'.capacity = b.capacity := by
  obtain ⟨b', p', l', h, hb', hc⟩ := hb.step hr
  exact ⟨b', p', l', apply_of_step hb.bounded_head.ge hb.bounded_tail.ge h, hb', hc⟩

theorem ready (hb : Sound b p l) {op : RingBuffer.Op T} (h : Indices.apply k b op = .ok b') : Ready k b op := by
  refine ready_of_apply (fun _ => ?_) h
  rw [hb.holds.head]
  exact Int.natCast_nonneg _

/-- Nothing but a fault of an index stops an operation of `RingBuffer`. -/
theorem apply_eq_ok_iff (hb : Sound b p l) {op : RingBuffer.Op T} :
    Indices.apply k b op = .ok b' ↔ op.step k b = some b' := by
  constructor
  · intro h
    obtain ⟨b₁, -, -, h₁, -, -⟩ := hb.step (hb.ready h)
    have h₁' := apply_of_step hb.bounded_head.ge hb.bounded_tail.ge h₁
    rw [h] at h₁'
    cases h₁'
    exact h₁
  · exact apply_of_step hb.bounded_head.ge hb.bounded_tail.ge

theorem of_apply (hb : Sound b p l) {op : RingBuffer.Op T} (h : Indices.apply k b op = .ok b') :
    ∃ p' l', Sound b' p' l' := by
  obtain ⟨b₁, p', l', h₁, hb₁, -⟩ := hb.apply (hb.ready h)
  rw [h] at h₁
  cases h₁
  exact ⟨p', l', hb₁⟩

theorem bounded_get (hb : Sound b p l) (source : Source) : Bounded b.capacity (source.get b).it.index := by
  cases source with
  | begin | rend | cbegin | crend => exact hb.bounded_head
  | end' | rbegin | cend | crbegin => exact hb.bounded_tail

end Sound

/-- What holds between two operations. -/
structure Sane (c : Nat) (s : State T) : Prop where
  capacity : s.buf.capacity = c
  idle : c = 0 → s.buf.size = 0
  sound : 0 < c → ∃ p l, Sound s.buf p l
  iterators : 0 < c → ∀ x ∈ s.iterators, Bounded c x.it.index

namespace Sane

theorem make (c : Nat) : Sane c (⟨RingBuffer.make c, []⟩ : State T) :=
  ⟨rfl, fun _ => rfl, fun hpos => ⟨0, [], .make hpos⟩, fun _ _ hx => absurd hx List.not_mem_nil⟩

theorem apply (hs : Sane c s) {op : RingBuffer.Op T} (hr : Ready k s.buf op) :
    ∃ b, Indices.apply k s.buf op = .ok b ∧ Sane c ⟨b, s.iterators⟩ := by
  obtain rfl | hpos := Nat.eq_zero_or_pos c
  · obtain ⟨b, h, hc, hsize⟩ := apply_of_idle hs.capacity (hs.idle rfl) hr
    exact ⟨b, h, hc, fun _ => hsize, fun h0 => absurd h0 (Nat.lt_irrefl 0), fun h0 => absurd h0 (Nat.lt_irrefl 0)⟩
  · obtain ⟨p, l, hb⟩ := hs.sound hpos
    obtain ⟨b, p', l', h, hb', hc⟩ := hb.apply hr
    exact ⟨b, h, hc.trans hs.capacity, fun h0 => absurd h0 hpos.ne', fun _ => ⟨p', l', hb'⟩, hs.iterators⟩

theorem hold (hs : Sane c s) {l : List Held} (hl : 0 < c → ∀ x ∈ l, Bounded c x.it.index) : Sane c ⟨s.buf, l⟩ :=
  ⟨hs.capacity, hs.idle, hs.sound, hl⟩

theorem bounded (hs : Sane c s) {x : Held} (hx : x ∈ s.iterators) (hpos : 0 < s.buf.capacity) :
    Bounded s.buf.capacity x.it.index := by
  rw [hs.capacity] at hpos ⊢
  exact hs.iterators hpos x hx

theorem step (hs : Sane c s) (hc : c < 2 ^ 64) (op : Op T) (hcareful : op.Careful k s) :
    ∃ s', op.step k s = .ok s' ∧ Sane c s' := by
  have hlt : s.buf.capacity < 2 ^ 64 := hs.capacity.trans_lt hc
  cases op with
  | apply op =>
    obtain ⟨b, h, hs'⟩ := hs.apply hcareful
    exact ⟨_, bind_eq_ok.2 ⟨b, h, rfl⟩, hs'⟩
  | get source =>
    refine ⟨_, rfl, hs.hold fun hpos x hx => ?_⟩
    obtain hx | hx := List.mem_append.1 hx
    · exact hs.iterators hpos x hx
    · obtain ⟨p, l, hb⟩ := hs.sound hpos
      rw [List.mem_singleton.1 hx, ← hs.capacity]
      exact hb.bounded_get source
  | copy n =>
    refine ⟨_, rfl, hs.hold fun hpos x hx => ?_⟩
    obtain hx | hx := List.mem_append.1 hx
    · exact hs.iterators hpos x hx
    · exact hs.iterators hpos x (List.mem_of_getElem? (Option.mem_toList.1 hx))
  | increment n =>
    cases hn : s.iterators[n]? with
    | none =>
      refine ⟨s, ?_, hs⟩
      rw [Op.step, hn]
    | some x =>
      have hx := List.mem_of_getElem? hn
      obtain ⟨it', h⟩ := (exists_next_iff (hs.bounded hx) hlt).2 (hcareful x hn)
      refine ⟨_, step_increment hn h, hs.hold fun hpos y hy => ?_⟩
      obtain hy | rfl := List.mem_or_eq_of_mem_set hy
      · exact hs.iterators hpos y hy
      · rw [← hs.capacity] at hpos ⊢
        exact bounded_of_next (hs.bounded hx hpos).ge hpos h

theorem careful (hs : Sane c s) (hc : c < 2 ^ 64) (op : Op T) (h : op.step k s = .ok s') : op.Careful k s := by
  have hlt : s.buf.capacity < 2 ^ 64 := hs.capacity.trans_lt hc
  cases op with
  | apply op =>
    obtain ⟨b, hb, -⟩ := bind_eq_ok.1 h
    obtain rfl | hpos := Nat.eq_zero_or_pos c
    · have he : s.buf.empty = true := by simp [empty, hs.idle rfl]
      exact ready_of_apply (fun hne => by rw [he] at hne; cases hne) hb
    · obtain ⟨p, l, hsound⟩ := hs.sound hpos
      exact hsound.ready hb
  | get source => exact trivial
  | copy n => exact trivial
  | increment n =>
    intro x hx
    rw [Op.step, hx] at h
    obtain ⟨it', hnext, -⟩ := bind_eq_ok.1 h
    exact (exists_next_iff (hs.bounded (List.mem_of_getElem? hx)) hlt).1 ⟨it', hnext⟩

theorem inside (hs : Sane c s) : Inside s := by
  have hread {i : Int} (hi : Bounded s.buf.capacity i) (h0 : 0 ≤ i) : toSize i < s.buf.capacity := by
    obtain ⟨n, rfl⟩ := Int.eq_ofNat_of_zero_le h0
    have hfits := hi.fits
    rw [toSize_natCast (by omega)]
    exact Int.ofNat_lt.1 hi.lt
  have hsound (hsize : 0 < s.buf.size) : ∃ p l, Sound s.buf p l := by
    refine hs.sound (Nat.pos_of_ne_zero fun h0 => ?_)
    rw [hs.idle h0] at hsize
    exact absurd hsize (Nat.lt_irrefl 0)
  refine ⟨fun hsize => ?_, fun hsize => ?_, fun i hi => ?_, fun x hx hpos hne => ?_⟩
  · obtain ⟨p, l, hb⟩ := hsound hsize
    refine hread hb.bounded_head ?_
    rw [hb.holds.head]
    exact Int.natCast_nonneg _
  · obtain ⟨p, l, hb⟩ := hsound hsize
    refine hread hb.bounded_tail ?_
    rw [hb.holds.size] at hsize
    rw [hb.holds.tail, if_neg (by omega)]
    exact Int.natCast_nonneg _
  · obtain ⟨p, l, hb⟩ := hsound (Nat.zero_lt_of_lt hi)
    exact ⟨_, Nat.mod_lt _ hb.holds.pos, if_neg hb.holds.pos.ne'⟩
  · have hx' := hs.bounded hx hpos
    have hge := hx'.ge
    exact hread hx' (by omega)

theorem careful_of_small (hs : Sane c s) (hpos : 0 < c) (hc : c < 2 ^ 31) (op : Op T) : op.Careful k s := by
  have hfits (i : Int) : Fits s.buf.capacity i := .inl (hs.capacity.trans_lt hc)
  have hpos' : 0 < s.buf.capacity := hpos.trans_eq hs.capacity.symm
  cases op with
  | apply op =>
    cases op with
    | emplaceBack x => exact fun _ => ⟨hpos', hfits _⟩
    | popFront => exact fun _ => hfits _
    | clear => exact fun _ _ => hfits _
  | get source => exact trivial
  | copy n => exact trivial
  | increment n =>
    intro x hx
    refine ⟨hpos', ?_⟩
    split
    · intro hi
      rw [hs.capacity]
      omega
    · exact hfits _

end Sane

section Runs

theorem foldlM_apply_iff (hb : Sound b p l) {ops : List (RingBuffer.Op T)} {its : List Held} :
    (ops.map .apply).foldlM (Op.step k) ⟨b, its⟩ = .ok s ↔ ∃ b', RingBuffer.run k b ops = some b' ∧ s = ⟨b', its⟩ := by
  induction ops generalizing b p l with
  | nil =>
    constructor
    · intro h
      cases h
      exact ⟨b, rfl, rfl⟩
    · rintro ⟨b', h, rfl⟩
      cases h
      rfl
  | cons op ops ih =>
    rw [List.map_cons, List.foldlM_cons, RingBuffer.run, List.foldlM_cons]
    constructor
    · intro h
      obtain ⟨s₁, h₁, h⟩ := bind_eq_ok.1 h
      obtain ⟨b₁, hb₁, hs₁⟩ := bind_eq_ok.1 h₁
      cases hs₁
      obtain ⟨p', l', hsound⟩ := hb.of_apply hb₁
      rw [hb.apply_eq_ok_iff.1 hb₁]
      exact (ih hsound).1 h
    · rintro ⟨b', h, rfl⟩
      obtain ⟨b₁, hb₁, h⟩ := Option.bind_eq_some_iff.1 h
      have hb₁' := hb.apply_eq_ok_iff.2 hb₁
      obtain ⟨p', l', hsound⟩ := hb.of_apply hb₁'
      exact bind_eq_ok.2 ⟨⟨b₁, its⟩, bind_eq_ok.2 ⟨b₁, hb₁', rfl⟩, (ih hsound).2 ⟨b', h, rfl⟩⟩

/-- The runs of `RingBuffer` are the ones whose indices have no fault. -/
theorem run_apply_iff (hpos : 0 < c) {ops : List (RingBuffer.Op T)} :
    run k c (ops.map .apply) = .ok s ↔ ∃ b, RingBuffer.run k (RingBuffer.make c) ops = some b ∧ s = ⟨b, []⟩ :=
  foldlM_apply_iff (.make hpos)

theorem careful_of_run (hc : c < 2 ^ 64) (h : run k c ops = .ok s) : Careful k c ops :=
  eachStep_of_foldlM (fun _ op hs => Sane.step hs hc op) (fun _ op _ hs => Sane.careful hs hc op) (Sane.make c) h

theorem safe_of_careful (hc : c < 2 ^ 64) (h : Careful k c ops) : Safe k c ops := by
  obtain ⟨s, hrun, hs⟩ := EachStep.exists_foldlM (fun _ op hs => Sane.step hs hc op) (Sane.make c) h
  exact ⟨s, hrun, hs.inside⟩

theorem careful_of_small (hpos : 0 < c) (hc : c < 2 ^ 31) : Careful k c ops :=
  eachStep_of_inv (fun _ op hs => Sane.step hs (by omega) op) (fun _ op hs => Sane.careful_of_small hs hpos hc op)
    (Sane.make c)

/-- A forward iterator that gets to the largest `int`. -/
theorem lt_of_careful_increments (hc : 2 ^ 31 ≤ b.capacity) (hi : i < 2 ^ 31)
    (h : EachStep (Op.step k) (Op.Careful k) (⟨b, [⟨false, false, i, m⟩]⟩ : State T)
      (List.replicate n (.increment 0))) : i + n < 2 ^ 31 := by
  induction n generalizing i m with
  | zero => exact hi
  | succ n ih =>
    rw [List.replicate_succ] at h
    obtain ⟨hmove, hrest⟩ := h
    have hfits : Fits b.capacity (i : Int) := (hmove _ rfl).2
    have hlt : (i : Int) < 2 ^ 31 - 1 := hfits.resolve_left (by omega)
    have hnext : nextIndex (i : Int) b.capacity = .ok ((i + 1 : Nat) : Int) := by
      rw [nextIndex_of_lt (n := i + 1) (by omega) (by omega) (by omega) (by omega), Nat.mod_eq_of_lt (by omega)]
    have hmoved : Indices.next (⟨i, m⟩ : RingBufferIterator false false) b = .ok ⟨(i + 1 : Nat), m + 1⟩ :=
      map_eq_ok.2 ⟨_, (if_neg Bool.false_ne_true).trans hnext, rfl⟩
    have hstep : Op.step k (⟨b, [⟨false, false, i, m⟩]⟩ : State T) (.increment 0) =
        .ok ⟨b, [⟨false, false, (i + 1 : Nat), m + 1⟩]⟩ :=
      step_increment (s := ⟨b, [⟨false, false, i, m⟩]⟩) (n := 0) rfl hmoved
    have hle := ih (by omega) (hrest _ hstep)
    omega

theorem lt_of_careful_traversal (hc : 2 ^ 31 ≤ c)
    (h : Careful k c (.get .begin :: List.replicate n (.increment 0) : List (Op T))) : n < 2 ^ 31 := by
  have hlt := lt_of_careful_increments (b := RingBuffer.make c) (i := 0) (m := 0) hc (by omega) (h.2 _ rfl)
  omega

/-- A sequence has no fault exactly when each of its operations is careful, and every
sequence is exactly when the capacity is an `int` that is not `0`. -/
theorem safe_iff_careful (k : Kind) (hc : c < 2 ^ 64) :
    (∀ ops : List (Op T), Safe k c ops ↔ Careful k c ops) ∧
      ((∀ ops : List (Op T), Safe k c ops) ↔ 0 < c ∧ c < 2 ^ 31) := by
  refine ⟨fun ops => ⟨?_, safe_of_careful hc⟩, ?_, ?_⟩
  · rintro ⟨s, hrun, -⟩
    exact careful_of_run hc hrun
  · intro hsafe
    have hcareful (ops : List (Op T)) : Careful k c ops := by
      obtain ⟨s, hrun, -⟩ := hsafe ops
      exact careful_of_run hc hrun
    constructor
    · exact (((hcareful [.get .begin, .increment 0]).2 _ rfl).1 _ rfl).1
    · by_contra hge
      have hlt := lt_of_careful_traversal (n := 2 ^ 31) (by omega) (hcareful _)
      exact Nat.lt_irrefl _ hlt
  · rintro ⟨hpos, hlt⟩ ops
    exact safe_of_careful hc (careful_of_small hpos hlt)

theorem safe_iff_careful_two : (2 : Nat) < 2 ^ 64 ∧
    (∀ ops : List (Op Nat), Safe ⟨true, true⟩ 2 ops ↔ Careful ⟨true, true⟩ 2 ops) ∧
      ((∀ ops : List (Op Nat), Safe ⟨true, true⟩ 2 ops) ↔ 0 < 2 ∧ 2 < 2 ^ 31) :=
  ⟨by decide, safe_iff_careful ⟨true, true⟩ (by decide)⟩

/-- The buffer is full, so it pops; it is empty, so nothing goes; and then the tail moves. -/
theorem emplaceBack_of_zero : run ⟨true, true⟩ 0 [Op.apply (.emplaceBack 5)] = .error .divisionByZero ∧
    ¬ Safe ⟨true, true⟩ 0 [Op.apply (.emplaceBack 5)] := by
  have hrun : run ⟨true, true⟩ 0 [Op.apply (.emplaceBack 5)] = .error .divisionByZero := rfl
  refine ⟨hrun, ?_⟩
  rintro ⟨s, h, -⟩
  rw [hrun] at h
  cases h

/-- The index before the first slot is too large for an `int`. -/
example : run ⟨true, true⟩ (2 ^ 31 + 1) [(Op.get .rend : Op Nat), .increment 0] = .error .overflow := rfl

end Runs

end Wizard.RingBuffer.Indices
