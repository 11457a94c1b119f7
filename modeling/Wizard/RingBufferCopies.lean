import Wizard.RingBufferObjects
import Wizard.Runs

/-! Copies of ring buffers. A buffer points to a block of memory, which holds its slots.
The copy constructor copies the slots from the first one on, wherever the head is. -/

namespace Wizard.RingBuffer

variable {T Name : Type}

section Copy

variable (k : Kind)

/-- `_construct`, which does nothing for a trivially destructible type. -/
def construct [Inhabited T] (b : RingBuffer T) (index : Nat) : RingBuffer T :=
  if k.trivial then b else { b with elements := Function.update b.elements index (some default) }

def constructAll [Inhabited T] (b : RingBuffer T) : RingBuffer T :=
  (List.range b.capacity).foldl (construct k) b

/-- One assignment of `std::copy`. Without a destructor the bytes are copied, whatever they
are; otherwise there has to be an object on both sides. -/
def assign (rhs b : RingBuffer T) (index : Nat) : Option (RingBuffer T) :=
  if index < rhs.capacity ∧ index < b.capacity ∧
      (k.trivial ∨ (rhs.elements index).isSome ∧ (b.elements index).isSome) then
    some { b with elements := Function.update b.elements index (rhs.elements index) }
  else none

/-- `std::copy(rhs.elements_, rhs.elements_ + size_, elements_)`. -/
def copyElements (rhs b : RingBuffer T) : Option (RingBuffer T) :=
  (List.range b.size).foldlM (assign k rhs) b

/-- The copy constructor, in new memory. -/
def copy [Inhabited T] (rhs : RingBuffer T) : Option (RingBuffer T) :=
  copyElements k rhs (constructAll k { rhs with elements := fun _ => none })

end Copy

/-- The fields of a buffer. -/
structure Header where
  elements : Nat
  tail : Int
  head : Int
  size : Nat
  capacity : Nat

/-- The blocks that have been allocated, and the buffers of a program. The buffer without a
name is the temporary of `operator=`. -/
structure Memory (T Name : Type) where
  block : Nat → Nat → Option T
  blockCount : Nat
  buffer : Option Name → Option Header

namespace Memory

def withBlock (block : Nat → Nat → Option T) (r : Header) : RingBuffer T :=
  ⟨block r.elements, r.tail, r.head, r.size, r.capacity⟩

def view (s : Memory T Name) (n : Option Name) : Option (RingBuffer T) :=
  (s.buffer n).map (withBlock s.block)

variable [DecidableEq Name]

/-- A buffer with its slots in the block `p`. -/
def put (s : Memory T Name) (n : Option Name) (p : Nat) (b : RingBuffer T) : Memory T Name :=
  { s with
    block := Function.update s.block p b.elements
    buffer := Function.update s.buffer n (some ⟨p, b.tail, b.head, b.size, b.capacity⟩) }

def use (s : Memory T Name) (n : Option Name) (f : RingBuffer T → Option (RingBuffer T)) :
    Option (Memory T Name) := do
  let r ← s.buffer n
  let b ← f (withBlock s.block r)
  return s.put n r.elements b

/-- A buffer in a new block. -/
def allocate (s : Memory T Name) (n : Option Name) (b : RingBuffer T) : Memory T Name :=
  { s with blockCount := s.blockCount + 1 }.put n s.blockCount b

def construct (s : Memory T Name) (n : Option Name) (capacity : Nat) : Memory T Name :=
  s.allocate n (make capacity)

def copyConstruct [Inhabited T] (k : Kind) (s : Memory T Name) (m n : Option Name) : Option (Memory T Name) := do
  let b ← (← s.view n).copy k
  return s.allocate m b

def swap (s : Memory T Name) (m n : Option Name) : Memory T Name :=
  { s with buffer := fun p => s.buffer (Equiv.swap m n p) }

/-- `~RingBuffer`. -/
def destruct (k : Kind) (s : Memory T Name) (n : Option Name) : Option (Memory T Name) := do
  let r ← s.buffer n
  let s ← s.use n (RingBuffer.clear k)
  return { s with
    block := Function.update s.block r.elements (fun _ => none)
    buffer := Function.update s.buffer n none }

/-- `operator=`. -/
def copyAssign [Inhabited T] (k : Kind) (s : Memory T Name) (m n : Option Name) : Option (Memory T Name) := do
  let s ← s.copyConstruct k none n
  (s.swap none m).destruct k none

end Memory

namespace Copies

inductive Op (T Name : Type)
  | construct (n : Name) (capacity : Nat)
  | emplaceBack (n : Name) (v : T)
  | popFront (n : Name)
  | clear (n : Name)
  | copyConstruct (m n : Name)
  | copyAssign (m n : Name)
  | swap (m n : Name)
  | destruct (n : Name)

def Op.step [Inhabited T] [DecidableEq Name] (k : Kind) (s : Memory T Name) : Op T Name → Option (Memory T Name)
  | construct n capacity => some (s.construct (some n) capacity)
  | emplaceBack n v => s.use (some n) (RingBuffer.emplaceBack k · v)
  | popFront n => s.use (some n) (RingBuffer.popFront k)
  | clear n => s.use (some n) (RingBuffer.clear k)
  | copyConstruct m n => s.copyConstruct k (some m) (some n)
  | copyAssign m n => s.copyAssign k (some m) (some n)
  | swap m n => some (s.swap (some m) (some n))
  | destruct n => s.destruct k (some n)

/-- A name stands for a buffer from its construction to its destruction, and no more than
`2 ^ 63 - 1` bytes can be allocated. -/
def Op.Enabled (s : Memory T Name) : Op T Name → Prop
  | construct n capacity => s.buffer (some n) = none ∧ 0 < capacity ∧ capacity < 2 ^ 63
  | emplaceBack n _ | popFront n | clear n | destruct n => (s.buffer (some n)).isSome
  | copyConstruct m n => s.buffer (some m) = none ∧ (s.buffer (some n)).isSome
  | copyAssign m n | swap m n => (s.buffer (some m)).isSome ∧ (s.buffer (some n)).isSome

/-- The buffers that an operation is applied to. -/
def Op.targets : Op T Name → List Name
  | construct n _ | emplaceBack n _ | popFront n | clear n | destruct n => [n]
  | copyConstruct m _ | copyAssign m _ => [m]
  | swap m n => [m, n]

end Copies

variable {k : Kind} {b b' : RingBuffer T} {h i j n c : Nat} {e : Nat → Option T}

theorem nextIndex_inv {i j : Int} (hi : -1 ≤ i) (hj : nextIndex i c = some j) :
    0 < c ∧ i + 1 < 2 ^ 31 ∧ j = ((i + 1).toNat % c : Nat) := by
  by_cases hlt : i + 1 < 2 ^ 31
  · rcases Nat.eq_zero_or_pos c with rfl | hpos
    · rw [nextIndex, incr, if_pos hlt] at hj
      cases hj
    · rw [nextIndex_of_lt hi hlt hpos rfl] at hj
      exact ⟨hpos, hlt, (Option.some.inj hj).symm⟩
  · rw [nextIndex, incr, if_neg hlt] at hj
    cases hj

theorem destroy_inv (hd : b.destroy k i = some b') :
    ∃ e, b' = { b with elements := e } ∧ ∀ j, j ≠ i → e j = b.elements j := by
  by_cases hk : k.trivial
  · rw [destroy, if_pos hk] at hd
    cases hd
    exact ⟨b.elements, rfl, fun _ _ => rfl⟩
  · rw [destroy, if_neg hk] at hd
    obtain ⟨x, -, hx⟩ := Option.bind_eq_some_iff.1 hd
    cases hx
    exact ⟨_, rfl, fun j hj => Function.update_of_ne hj _ _⟩

/-- A buffer with its head in slot `h`. The index of a large array overflows before it comes
around. -/
structure Sound (b : RingBuffer T) (h : Nat) : Prop where
  bound : b.capacity < 2 ^ 63
  head : b.head = h
  lt : h < b.capacity
  small : h < 2 ^ 31
  tail : -1 ≤ b.tail ∧ b.tail < b.capacity ∧ b.tail < 2 ^ 31
  fits : b.size ≤ b.capacity
  ring : (b.tail + 1).toNat % b.capacity = (h + b.size) % b.capacity
  last : 0 < b.size → 0 ≤ b.tail
  room : b.capacity < 2 ^ 31 ∨ b.tail + 1 = h + b.size
  filled : ∀ j < b.size, (b.elements ((h + j) % b.capacity)).isSome

namespace Sound

theorem toSize_head (hb : Sound b h) : toSize b.head = h := by
  have hlt := hb.small
  rw [hb.head, toSize_natCast (by omega)]

theorem make (hpos : 0 < c) (hc : c < 2 ^ 63) : Sound (RingBuffer.make c : RingBuffer T) 0 := by
  refine ⟨hc, rfl, hpos, by decide, ⟨le_refl _, ?_, ?_⟩, Nat.zero_le _, rfl, fun hs => absurd hs (lt_irrefl 0),
    .inr rfl, fun j hj => absurd hj (Nat.not_lt_zero j)⟩
  · change (-1 : Int) < c
    omega
  · exact (by decide : (-1 : Int) < 2 ^ 31)

/-- The first object goes, and the head moves on. -/
theorem dropHead (hb : Sound b h) {head : Int} (hs : 0 < b.size) (hn : nextIndex b.head b.capacity = some head)
    (he : ∀ j, j ≠ h → e j = b.elements j) :
    Sound { b with elements := e, size := b.size - 1, head := head } ((h + 1) % b.capacity) := by
  have hfits := hb.fits
  have hbound := hb.bound
  obtain ⟨hpos, hlt, rfl⟩ := nextIndex_inv (by rw [hb.head]; omega) hn
  rw [hb.head] at hlt
  have hnat : (b.head + 1).toNat = h + 1 := by rw [hb.head]; rfl
  have hmod : (h + 1) % b.capacity ≤ h + 1 := Nat.mod_le _ _
  refine ⟨hbound, by rw [hnat], Nat.mod_lt _ hpos, by omega, hb.tail, ?_, ?_, fun _ => hb.last hs, ?_, fun j hj => ?_⟩
  · change b.size - 1 ≤ b.capacity
    omega
  · change (b.tail + 1).toNat % b.capacity = ((h + 1) % b.capacity + (b.size - 1)) % b.capacity
    rw [hb.ring, slot_succ, Nat.sub_add_cancel hs]
  · change b.capacity < 2 ^ 31 ∨ b.tail + 1 = ((h + 1) % b.capacity : Nat) + ((b.size - 1 : Nat) : Int)
    obtain hc | hc := hb.room
    · exact .inl hc
    · by_cases hc' : b.capacity < 2 ^ 31
      · exact .inl hc'
      · rw [Nat.mod_eq_of_lt (show h + 1 < b.capacity by omega)]
        omega
  · change j < b.size - 1 at hj
    change (e (((h + 1) % b.capacity + j) % b.capacity)).isSome
    have hne := slot_ne h (Nat.succ_pos j) (show j + 1 < b.capacity by omega)
    rw [Nat.add_zero, Nat.mod_eq_of_lt hb.lt] at hne
    rw [slot_succ, he _ hne.symm]
    exact hb.filled (j + 1) (by omega)

theorem popFront (hb : Sound b h) (hp : b.popFront k = some b') :
    (∃ h', Sound b' h') ∧ b'.capacity = b.capacity ∧ b'.size = b.size - 1 := by
  by_cases hs : b.size = 0
  · simp only [RingBuffer.popFront, empty, hs, decide_true, if_true] at hp
    cases hp
    exact ⟨⟨h, hb⟩, rfl, by omega⟩
  · have hne : b.empty = false := by simp [empty, hs]
    rw [RingBuffer.popFront, hne] at hp
    obtain ⟨b₁, hd, hp⟩ := Option.bind_eq_some_iff.1 hp
    obtain ⟨e, rfl, he⟩ := destroy_inv hd
    obtain ⟨head, hn, hp⟩ := Option.bind_eq_some_iff.1 hp
    cases hp
    rw [hb.toSize_head] at he
    exact ⟨⟨_, hb.dropHead (Nat.pos_of_ne_zero hs) hn he⟩, rfl, rfl⟩

theorem emplaceBackImpl (hb : Sound b h) (hs : b.size < b.capacity) {x : T} (hp : b.emplaceBackImpl x = some b') :
    Sound b' h := by
  obtain ⟨tail, hn, hp⟩ := Option.bind_eq_some_iff.1 hp
  obtain ⟨hpos, hlt, rfl⟩ := nextIndex_inv hb.tail.1 hn
  have hmod : (h + b.size) % b.capacity < b.capacity := Nat.mod_lt _ hpos
  have hle : (b.tail + 1).toNat % b.capacity ≤ (b.tail + 1).toNat := Nat.mod_le _ _
  have htail := hb.tail.1
  rw [hb.ring] at hp hle
  rw [if_pos (by omega)] at hp
  cases hp
  refine ⟨hb.bound, hb.head, hb.lt, hb.small, ?_, hs, ?_, fun _ => Int.natCast_nonneg _, ?_, fun j hj => ?_⟩
  · change -1 ≤ (((h + b.size) % b.capacity : Nat) : Int) ∧ (((h + b.size) % b.capacity : Nat) : Int) < b.capacity ∧
      (((h + b.size) % b.capacity : Nat) : Int) < 2 ^ 31
    omega
  · change ((((h + b.size) % b.capacity : Nat) : Int) + 1).toNat % b.capacity = (h + (b.size + 1)) % b.capacity
    have hnat : ((((h + b.size) % b.capacity : Nat) : Int) + 1).toNat = (h + b.size) % b.capacity + 1 := by omega
    rw [hnat, Nat.mod_add_mod]
    rfl
  · change b.capacity < 2 ^ 31 ∨ (((h + b.size) % b.capacity : Nat) : Int) + 1 = h + ((b.size + 1 : Nat) : Int)
    obtain hc | hc := hb.room
    · exact .inl hc
    · by_cases hc' : b.capacity < 2 ^ 31
      · exact .inl hc'
      · rw [Nat.mod_eq_of_lt (show h + b.size < b.capacity by omega)]
        omega
  · change j < b.size + 1 at hj
    change (Function.update b.elements _ _ ((h + j) % b.capacity)).isSome
    rw [Int.toNat_natCast]
    by_cases he : j = b.size
    · rw [he, Function.update_self]
      rfl
    · have hlt : j < b.size := by omega
      rw [Function.update_of_ne (slot_ne h hlt hs)]
      exact hb.filled j hlt

theorem emplaceBack (hb : Sound b h) {x : T} (hp : b.emplaceBack k x = some b') : ∃ h', Sound b' h' := by
  have hfits := hb.fits
  have hpos := Nat.zero_lt_of_lt hb.lt
  by_cases hfull : b.size = b.capacity
  · rw [RingBuffer.emplaceBack, full, if_pos (by simpa using hfull)] at hp
    by_cases hk : k.overwrite
    · rw [if_pos hk] at hp
      obtain ⟨b₁, hpop, hp⟩ := Option.bind_eq_some_iff.1 hp
      obtain ⟨⟨h', hb₁⟩, hc, hs⟩ := hb.popFront hpop
      exact ⟨h', hb₁.emplaceBackImpl (by omega) hp⟩
    · rw [if_neg hk] at hp
      cases hp
      exact ⟨h, hb⟩
  · rw [RingBuffer.emplaceBack, full, if_neg (by simpa using hfull)] at hp
    exact ⟨h, hb.emplaceBackImpl (by omega) hp⟩

theorem destroyAll {fuel : Nat} (hb : Sound b h) (hd : b.destroyAll k fuel = some b') : ∃ h', Sound b' h' := by
  induction fuel generalizing b h with
  | zero => cases hd
  | succ fuel ih =>
    rw [RingBuffer.destroyAll] at hd
    by_cases hs : b.size = 0
    · rw [if_pos (by simpa [empty] using hs)] at hd
      cases hd
      exact ⟨h, hb⟩
    · rw [if_neg (by simpa [empty] using hs)] at hd
      obtain ⟨b₁, hdestroy, hd⟩ := Option.bind_eq_some_iff.1 hd
      obtain ⟨e, rfl, he⟩ := destroy_inv hdestroy
      obtain ⟨head, hn, hd⟩ := Option.bind_eq_some_iff.1 hd
      rw [hb.toSize_head] at he
      exact ih (hb.dropHead (Nat.pos_of_ne_zero hs) hn he) hd

theorem clear (hb : Sound b h) (hp : b.clear k = some b') : ∃ h', Sound b' h' := by
  by_cases hk : k.trivial
  · rw [RingBuffer.clear, if_pos hk] at hp
    cases hp
    have hpos := Nat.zero_lt_of_lt hb.lt
    refine ⟨0, hb.bound, rfl, hpos, by decide, ⟨le_refl _, ?_, ?_⟩, Nat.zero_le _, rfl,
      fun hs => absurd hs (lt_irrefl 0), .inr rfl, fun j hj => absurd hj (Nat.not_lt_zero j)⟩
    · change (-1 : Int) < b.capacity
      omega
    · exact (by decide : (-1 : Int) < 2 ^ 31)
  · rw [RingBuffer.clear, if_neg hk] at hp
    exact hb.destroyAll hp

/-- Other slots do not matter. -/
theorem congr (hb : Sound b h) (he : ∀ j < b.size, (e ((h + j) % b.capacity)).isSome) :
    Sound { b with elements := e } h :=
  ⟨hb.bound, hb.head, hb.lt, hb.small, hb.tail, hb.fits, hb.ring, hb.last, hb.room, he⟩

/-- The objects of a type with a destructor can be destroyed if the head can move past them. -/
theorem destroyAll_isSome (hb : Sound b h) {overwrite : Bool} {fuel : Nat} (hf : b.size < fuel) :
    (b.destroyAll ⟨overwrite, false⟩ fuel).isSome ↔ b.capacity < 2 ^ 31 ∨ h + b.size < 2 ^ 31 := by
  induction fuel generalizing b h with
  | zero => omega
  | succ fuel ih =>
    have hsmall := hb.small
    have hlt := hb.lt
    rw [RingBuffer.destroyAll]
    by_cases hs : b.size = 0
    · rw [if_pos (by simpa [empty] using hs)]
      simp only [Option.isSome_some, true_iff]
      omega
    · have hpos := Nat.pos_of_ne_zero hs
      obtain ⟨x, hx⟩ := Option.isSome_iff_exists.1 (hb.filled 0 hpos)
      rw [Nat.add_zero, Nat.mod_eq_of_lt hlt] at hx
      have hd : b.destroy ⟨overwrite, false⟩ (toSize b.head) =
          some { b with elements := Function.update b.elements h none } := by
        rw [hb.toSize_head, RingBuffer.destroy, slot, if_pos hlt, hx]
        rfl
      rw [if_neg (by simpa [empty] using hs), hd, Option.bind_eq_bind, Option.bind_some]
      by_cases hh : h + 1 < 2 ^ 31
      · have hn := nextIndex_of_lt (i := b.head) (c := b.capacity) (n := h + 1) (by rw [hb.head]; omega)
          (by rw [hb.head]; omega) (by omega) (by rw [hb.head]; rfl)
        have hdrop := hb.dropHead hpos hn (e := Function.update b.elements h none)
          fun j hj => Function.update_of_ne hj _ _
        have hiff := ih hdrop (by change b.size - 1 < fuel; omega)
        simp only [hn, Option.bind_eq_bind, Option.bind_some]
        refine hiff.trans ?_
        change b.capacity < 2 ^ 31 ∨ (h + 1) % b.capacity + (b.size - 1) < 2 ^ 31 ↔ _
        by_cases hc : b.capacity < 2 ^ 31
        · exact iff_of_true (.inl hc) (.inl hc)
        · rw [Nat.mod_eq_of_lt (show h + 1 < b.capacity by omega)]
          omega
      · have hn : nextIndex b.head b.capacity = none := by
          have hlarge : ¬ b.head + 1 < 2 ^ 31 := by rw [hb.head]; omega
          rw [nextIndex, incr, if_neg hlarge]
          rfl
        simp only [hn, Option.bind_eq_bind, Option.bind_none, Option.isSome_none, Bool.false_eq_true, false_iff]
        omega

theorem clear_isSome (hb : Sound b h) : (b.clear k).isSome ↔ k.trivial ∨ b.capacity < 2 ^ 31 ∨ h + b.size < 2 ^ 31 := by
  obtain ⟨overwrite, trivial⟩ := k
  cases trivial with
  | true => simp [RingBuffer.clear]
  | false => simpa [RingBuffer.clear] using hb.destroyAll_isSome (Nat.lt_succ_self _)

end Sound

namespace Sound

theorem mod_small (hb : Sound b h) (hj : j < b.size) : (h + j) % b.capacity < b.capacity ∧
    (h + j) % b.capacity < 2 ^ 31 ∧ (b.capacity < 2 ^ 31 ∨ (h + j) % b.capacity = h + j) := by
  have hmod : (h + j) % b.capacity < b.capacity := Nat.mod_lt _ (Nat.zero_lt_of_lt hb.lt)
  obtain hc | hc := hb.room
  · exact ⟨hmod, by omega, .inl hc⟩
  · have htail := hb.tail
    rw [Nat.mod_eq_of_lt (show h + j < b.capacity by omega)]
    exact ⟨by omega, by omega, .inr rfl⟩

theorem tail_eq (hb : Sound b h) (hs : 0 < b.size) : b.tail = ((h + (b.size - 1)) % b.capacity : Nat) := by
  have h0 := hb.last hs
  have hlt := hb.tail.2.1
  have hmod : b.tail.toNat % b.capacity = (h + (b.size - 1)) % b.capacity := by
    have hcancel : b.tail.toNat + 1 ≡ h + (b.size - 1) + 1 [MOD b.capacity] := by
      have h₁ : b.tail.toNat + 1 = (b.tail + 1).toNat := by omega
      have h₂ : h + (b.size - 1) + 1 = h + b.size := by omega
      rw [h₁, h₂]
      exact hb.ring
    exact Nat.ModEq.add_right_cancel' 1 hcancel
  rw [Nat.mod_eq_of_lt (show b.tail.toNat < b.capacity by omega)] at hmod
  omega

/-- Which slot is read does not depend on the slots. -/
theorem at_eq (hb : Sound b h) (hi : i < b.size) (e : Nat → Option T) :
    at? { b with elements := e } i = e ((h + i) % b.capacity) := by
  have hsmall := hb.small
  have hbound := hb.bound
  have hfits := hb.fits
  have hlt := hb.lt
  have hmod : (i + h) % 2 ^ 64 = h + i := by omega
  have hnz : b.capacity ≠ 0 := by omega
  simp only [at?, if_pos hi, hb.toSize_head, hmod, rem, if_neg hnz, Option.bind_eq_bind, Option.bind_some]
  exact if_pos (hb.mod_small hi).1

section Agree

variable (hb : Sound b h) (he : ∀ j < b.size, e ((h + j) % b.capacity) = b.elements ((h + j) % b.capacity))

include hb he

end Agree

end Sound

section CopyConstructor

variable [Inhabited T]

/-- The slots of a copy. -/
def copied (k : Kind) (b : RingBuffer T) (i : Nat) : Option T :=
  if i < b.size then b.elements i else if k.trivial = false ∧ i < b.capacity then some default else none

theorem foldl_construct (k : Kind) (b : RingBuffer T) (n : Nat) :
    (List.range n).foldl (construct k) b =
      { b with elements := fun i => if k.trivial = false ∧ i < n then some default else b.elements i } := by
  induction n with
  | zero => simp
  | succ n ih =>
    rw [List.range_succ, List.foldl_append, ih, List.foldl_cons, List.foldl_nil, construct]
    by_cases hk : k.trivial
    · simp [hk]
    · rw [if_neg hk]
      congr 1
      funext i
      by_cases hi : i = n
      · simp [hi, hk]
      · have hiff : i < n + 1 ↔ i < n := by omega
        simp only [Function.update_of_ne hi, hiff]

omit [Inhabited T] in
theorem assign_eq_some {rhs : RingBuffer T} (hr : n < rhs.capacity) (hn : n < b.capacity)
    (hb : k.trivial = false → (b.elements n).isSome) : assign k rhs b n = some b' ↔
      (k.trivial = false → (rhs.elements n).isSome) ∧
      b' = { b with elements := Function.update b.elements n (rhs.elements n) } := by
  have hiff : (n < rhs.capacity ∧ n < b.capacity ∧
      (k.trivial ∨ (rhs.elements n).isSome ∧ (b.elements n).isSome)) ↔
      (k.trivial = false → (rhs.elements n).isSome) := by
    cases hk : k.trivial with
    | true => simp [hr, hn]
    | false => simp [hr, hn, hb hk]
  simp only [assign, hiff]
  split
  · rename_i hs
    rw [Option.some.injEq, and_iff_right hs]
    exact eq_comm
  · rename_i hs
    exact iff_of_false (fun hno => by cases hno) fun hs' => hs hs'.1

omit [Inhabited T] in
theorem foldlM_assign {rhs : RingBuffer T} (hr : n ≤ rhs.capacity) (hn : n ≤ b.capacity)
    (hb : ∀ i < n, k.trivial = false → (b.elements i).isSome) :
    (List.range n).foldlM (assign k rhs) b = some b' ↔ (k.trivial = false → ∀ i < n, (rhs.elements i).isSome) ∧
      b' = { b with elements := fun i => if i < n then rhs.elements i else b.elements i } := by
  induction n generalizing b' with
  | zero =>
    rw [List.range_zero, List.foldlM_nil]
    constructor
    · intro hs
      cases hs
      exact ⟨fun _ i hi => absurd hi (Nat.not_lt_zero i), by simp⟩
    · rintro ⟨-, rfl⟩
      simp
  | succ n ih =>
    have hupdate : Function.update (fun i => if i < n then rhs.elements i else b.elements i) n (rhs.elements n) =
        fun i => if i < n + 1 then rhs.elements i else b.elements i := by
      funext i
      by_cases hi : i = n
      · simp [hi]
      · have hiff : i < n + 1 ↔ i < n := by omega
        simp only [Function.update_of_ne hi, hiff]
    have hstep : assign k rhs { b with elements := fun i => if i < n then rhs.elements i else b.elements i } n =
        some b' ↔ _ := assign_eq_some hr hn (by simpa using hb n (Nat.lt_succ_self n))
    rw [hupdate] at hstep
    simp only [List.range_succ, List.foldlM_append, List.foldlM_cons, List.foldlM_nil, bind_pure, Option.bind_eq_bind,
      Option.bind_eq_some_iff, ih (Nat.le_of_succ_le hr) (Nat.le_of_succ_le hn)
        fun i hi => hb i (hi.trans (Nat.lt_succ_self n))]
    constructor
    · rintro ⟨b₁, ⟨hsome, rfl⟩, hassign⟩
      obtain ⟨hlast, rfl⟩ := hstep.1 hassign
      refine ⟨fun hk i hi => ?_, rfl⟩
      obtain hi | rfl := Nat.lt_succ_iff_lt_or_eq.1 hi
      · exact hsome hk i hi
      · exact hlast hk
    · rintro ⟨hsome, hb'⟩
      exact ⟨_, ⟨fun hk i hi => hsome hk i (hi.trans (Nat.lt_succ_self n)), rfl⟩,
        hstep.2 ⟨fun hk => hsome hk n (Nat.lt_succ_self n), hb'⟩⟩

/-- `std::copy` returns if every slot that it reads has an object. -/
theorem copy_eq_some (hfits : b.size ≤ b.capacity) : b.copy k = some b' ↔
    (k.trivial = false → ∀ i < b.size, (b.elements i).isSome) ∧ b' = { b with elements := copied k b } := by
  rw [copy, constructAll, foldl_construct]
  refine foldlM_assign hfits hfits fun i hi hk => ?_
  change (if k.trivial = false ∧ i < b.capacity then some default else none : Option T).isSome
  rw [if_pos ⟨hk, hi.trans_le hfits⟩]
  rfl

/-- The window lies in the slots that are copied, or by accident the other slots of a copy
look like it. -/
def CopyOk (k : Kind) (b : RingBuffer T) : Prop :=
  b.size = 0 ∨ b.head = 0 ∨ b.full ∨ k.trivial = false ∧ (∀ i < b.size, (b.elements i).isSome) ∧
    ∀ j < b.size, b.size ≤ (b.head.toNat + j) % b.capacity →
      b.elements ((b.head.toNat + j) % b.capacity) = some default

theorem Sound.copy (hb : Sound b h) (hok : CopyOk k b) : ∃ e, b.copy k = some { b with elements := e } ∧
    ∀ j < b.size, e ((h + j) % b.capacity) = b.elements ((h + j) % b.capacity) := by
  have hfits := hb.fits
  have hnat : b.head.toNat = h := by rw [hb.head]; rfl
  simp only [copy_eq_some hfits]
  refine ⟨copied k b, ?_⟩
  obtain hs | hh | hfull | ⟨hk, hsome, hdef⟩ := hok
  · exact ⟨⟨fun _ i hi => by omega, rfl⟩, fun j hj => by omega⟩
  · obtain rfl : h = 0 := by
      rw [hb.head] at hh
      exact_mod_cast hh
    have hin : ∀ j < b.size, (0 + j) % b.capacity = j := by
      intro j hj
      rw [Nat.zero_add, Nat.mod_eq_of_lt (by omega)]
    refine ⟨⟨fun _ i hi => ?_, rfl⟩, fun j hj => ?_⟩
    · rw [← hin i hi]
      exact hb.filled i hi
    · rw [hin j hj, copied, if_pos hj]
  · have hsize : b.size = b.capacity := of_decide_eq_true hfull
    refine ⟨⟨fun _ i hi => ?_, rfl⟩, fun j hj => ?_⟩
    · obtain ⟨j, hj, rfl⟩ := exists_slot (hi.trans_le hfits) hb.lt
      exact hb.filled j (by omega)
    · rw [copied, if_pos (by rw [hsize]; exact (hb.mod_small hj).1)]
  · refine ⟨⟨fun _ => hsome, rfl⟩, fun j hj => ?_⟩
    rw [copied]
    split
    · rfl
    · rename_i hle
      rw [if_pos ⟨hk, (hb.mod_small hj).1⟩]
      rw [hnat] at hdef
      exact (hdef j hj (by omega)).symm

theorem Sound.of_copy (hb : Sound b h) (hok : CopyOk k b) (hcopy : b.copy k = some b') : Sound b' h := by
  obtain ⟨e, he, hagree⟩ := hb.copy hok
  rw [he] at hcopy
  cases hcopy
  exact hb.congr fun j hj => by
    rw [hagree j hj]
    exact hb.filled j hj

end CopyConstructor

variable {s s' : Memory T Name} {m p q : Option Name} {r r₀ : Header}

namespace Memory

/-- Two buffers do not share a block. -/
structure Apart (s : Memory T Name) : Prop where
  own : ∀ p q r r', s.buffer p = some r → s.buffer q = some r' → r.elements = r'.elements → p = q
  old : ∀ p r, s.buffer p = some r → r.elements < s.blockCount

theorem withBlock_congr {block block' : Nat → Nat → Option T} (h : block' r.elements = block r.elements) :
    withBlock block' r = withBlock block r := by
  rw [withBlock, withBlock, h]

variable [DecidableEq Name]

/-- A buffer and its block are gone. -/
def free (s : Memory T Name) (n : Option Name) (r : Header) : Memory T Name :=
  { s with
    block := Function.update s.block r.elements (fun _ => none)
    buffer := Function.update s.buffer n none }

theorem view_put : (s.put p i b).view p = some b := by
  simp [view, put, withBlock]

theorem view_put_of_ne (hq : q ≠ p) (hi : ∀ r, s.buffer q = some r → r.elements ≠ i) :
    (s.put p i b).view q = s.view q := by
  simp only [view, put, Function.update_of_ne hq]
  cases hr : s.buffer q with
  | none => rfl
  | some r => exact congrArg some (withBlock_congr (Function.update_of_ne (hi r hr) _ _))

theorem view_free_of_ne (hq : q ≠ p) (hr : ∀ r', s.buffer q = some r' → r'.elements ≠ r.elements) :
    (s.free p r).view q = s.view q := by
  simp only [view, free, Function.update_of_ne hq]
  cases hq' : s.buffer q with
  | none => rfl
  | some r' => exact congrArg some (withBlock_congr (Function.update_of_ne (hr r' hq') _ _))

theorem use_eq_some {f : RingBuffer T → Option (RingBuffer T)} : s.use p f = some s' ↔
    ∃ r b, s.buffer p = some r ∧ f (withBlock s.block r) = some b ∧ s' = s.put p r.elements b := by
  rw [use, Option.bind_eq_bind, Option.bind_eq_some_iff]
  constructor
  · rintro ⟨r, hr, hf⟩
    obtain ⟨b, hb, hs'⟩ := Option.bind_eq_some_iff.1 hf
    cases hs'
    exact ⟨r, b, hr, hb, rfl⟩
  · rintro ⟨r, b, hr, hb, rfl⟩
    exact ⟨r, hr, Option.bind_eq_some_iff.2 ⟨b, hb, rfl⟩⟩

theorem destruct_eq (hp : s.buffer p = some r) :
    s.destruct k p = ((withBlock s.block r).clear k).map fun _ => s.free p r := by
  simp only [destruct, use, hp, Option.bind_eq_bind, Option.bind_some]
  cases (withBlock s.block r).clear k with
  | none => rfl
  | some b => simp [put, free]

namespace Apart

theorem put (hs : Apart s) (hp : s.buffer p = some r) : Apart (s.put p r.elements b) := by
  have hfield : ∀ q r', (s.put p r.elements b).buffer q = some r' →
      ∃ r₁, s.buffer q = some r₁ ∧ r₁.elements = r'.elements := by
    intro q r' hq
    by_cases hqp : q = p
    · subst hqp
      simp only [Memory.put, Function.update_self, Option.some.injEq] at hq
      exact ⟨r, hp, by rw [← hq]⟩
    · simp only [Memory.put, Function.update_of_ne hqp] at hq
      exact ⟨r', hq, rfl⟩
  constructor
  · intro q q' r₁ r₂ hq hq' he
    obtain ⟨r₁', hr₁, he₁⟩ := hfield q r₁ hq
    obtain ⟨r₂', hr₂, he₂⟩ := hfield q' r₂ hq'
    exact hs.own q q' r₁' r₂' hr₁ hr₂ (by rw [he₁, he₂, he])
  · intro q r' hq
    obtain ⟨r₁, hr, he⟩ := hfield q r' hq
    rw [← he]
    exact hs.old q r₁ hr

theorem allocate (hs : Apart s) : Apart (s.allocate p b) := by
  have hfield : ∀ q r, (s.allocate p b).buffer q = some r →
      q = p ∧ r.elements = s.blockCount ∨ s.buffer q = some r := by
    intro q r hq
    by_cases hqp : q = p
    · subst hqp
      simp only [Memory.allocate, Memory.put, Function.update_self, Option.some.injEq] at hq
      exact .inl ⟨rfl, by rw [← hq]⟩
    · simp only [Memory.allocate, Memory.put, Function.update_of_ne hqp] at hq
      exact .inr hq
  constructor
  · intro q q' r r' hq hq' he
    obtain ⟨hqp, hr⟩ | hold := hfield q r hq
    · obtain ⟨hqp', -⟩ | hold' := hfield q' r' hq'
      · rw [hqp, hqp']
      · have hlt := hs.old q' r' hold'
        omega
    · obtain ⟨-, hr'⟩ | hold' := hfield q' r' hq'
      · have hlt := hs.old q r hold
        omega
      · exact hs.own q q' r r' hold hold' he
  · intro q r hq
    change r.elements < s.blockCount + 1
    obtain ⟨-, hr⟩ | hold := hfield q r hq
    · omega
    · exact (hs.old q r hold).trans (Nat.lt_succ_self _)

theorem swap (hs : Apart s) (p q : Option Name) : Apart (s.swap p q) where
  own := by
    intro p' q' r r' hp' hq' he
    exact (Equiv.swap p q).injective (hs.own _ _ r r' hp' hq' he)
  old := fun p' => hs.old (Equiv.swap p q p')

theorem free (hs : Apart s) (p : Option Name) (r : Header) : Apart (s.free p r) := by
  have hfield : ∀ q r', (s.free p r).buffer q = some r' → s.buffer q = some r' := by
    intro q r' hq
    by_cases hqp : q = p
    · subst hqp
      simp [Memory.free] at hq
    · simpa only [Memory.free, Function.update_of_ne hqp] using hq
  constructor
  · exact fun q q' r r' hq hq' => hs.own q q' r r' (hfield q r hq) (hfield q' r' hq')
  · exact fun q r hq => hs.old q r (hfield q r hq)

theorem view_put_of_ne (hs : Apart s) (hp : s.buffer p = some r) (hq : q ≠ p) :
    (s.put p r.elements b).view q = s.view q :=
  Memory.view_put_of_ne hq fun r' hr he => hq (hs.own q p r' r hr hp he)

theorem view_allocate_of_ne (hs : Apart s) (hq : q ≠ p) : (s.allocate p b).view q = s.view q :=
  Memory.view_put_of_ne hq fun r hr => (hs.old q r hr).ne

theorem view_free_of_ne (hs : Apart s) (hp : s.buffer p = some r) (hq : q ≠ p) : (s.free p r).view q = s.view q :=
  Memory.view_free_of_ne hq fun r' hr he => hq (hs.own q p r' r hr hp he)

end Apart

/-- The target of `operator=` has the block of the copy, and its old block is gone. -/
def assigned (s : Memory T Name) (p : Option Name) (r : Header) (b : RingBuffer T) : Memory T Name :=
  ((s.allocate none b).swap none p).free none r

section Assign

variable (hs : Apart s) (htmp : s.buffer none = none) (hp : s.buffer p = some r)

include htmp hp

theorem buffer_swap_none : ((s.allocate none b).swap none p).buffer none = some r := by
  have hne : p ≠ none := by
    rintro rfl
    rw [htmp] at hp
    cases hp
  simp only [swap, Equiv.swap_apply_left, allocate, put, Function.update_of_ne hne, hp]

include hs

theorem view_assigned : (s.assigned p r b).view p = some b := by
  have hne : p ≠ none := by
    rintro rfl
    rw [htmp] at hp
    cases hp
  rw [assigned, (hs.allocate.swap none p).view_free_of_ne (buffer_swap_none htmp hp) hne]
  change (s.allocate none b).view (Equiv.swap none p p) = some b
  rw [Equiv.swap_apply_right]
  exact view_put

theorem view_assigned_of_ne (hq : q ≠ p) (hq' : q ≠ none) : (s.assigned p r b).view q = s.view q := by
  rw [assigned, (hs.allocate.swap none p).view_free_of_ne (buffer_swap_none htmp hp) hq']
  change (s.allocate none b).view (Equiv.swap none p q) = s.view q
  rw [Equiv.swap_apply_of_ne_of_ne hq' hq]
  exact hs.view_allocate_of_ne hq'

variable [Inhabited T]

theorem copyAssign_eq_some : s.copyAssign k p q = some s' ↔ ∃ b b', s.view q = some b ∧ b.copy k = some b' ∧
    ((withBlock s.block r).clear k).isSome ∧ s' = s.assigned p r b' := by
  have hdestruct : ∀ b', ((s.allocate none b').swap none p).destruct k none =
      ((withBlock s.block r).clear k).map fun _ => s.assigned p r b' := by
    intro b'
    rw [destruct_eq (buffer_swap_none htmp hp)]
    have hover : withBlock ((s.allocate none b').swap none p).block r = withBlock s.block r :=
      withBlock_congr (Function.update_of_ne (hs.old p r hp).ne _ _)
    rw [hover]
    rfl
  simp only [copyAssign, copyConstruct, Option.bind_eq_bind, Option.bind_eq_some_iff]
  constructor
  · rintro ⟨s₁, ⟨b, hb, b', hcopy, hs₁⟩, hd⟩
    cases hs₁
    rw [hdestruct] at hd
    obtain ⟨b₀, hclear, rfl⟩ := Option.map_eq_some_iff.1 hd
    exact ⟨b, b', hb, hcopy, by rw [hclear]; rfl, rfl⟩
  · rintro ⟨b, b', hb, hcopy, hclear, rfl⟩
    refine ⟨_, ⟨b, hb, b', hcopy, rfl⟩, ?_⟩
    obtain ⟨b₀, hb₀⟩ := Option.isSome_iff_exists.1 hclear
    rw [hdestruct, hb₀]
    rfl

end Assign

theorem copyConstruct_eq_some [Inhabited T] : s.copyConstruct k p q = some s' ↔
    ∃ b b', s.view q = some b ∧ b.copy k = some b' ∧ s' = s.allocate p b' := by
  simp only [copyConstruct, Option.bind_eq_bind, Option.bind_eq_some_iff]
  constructor
  · rintro ⟨b, hb, b', hcopy, hs'⟩
    cases hs'
    exact ⟨b, b', hb, hcopy, rfl⟩
  · rintro ⟨b, b', hb, hcopy, rfl⟩
    exact ⟨b, hb, b', hcopy, rfl⟩

end Memory

namespace Copies

open Memory

def Init (s : Memory T Name) : Prop := s = ⟨fun _ _ => none, 0, fun _ => none⟩

/-- The copied buffer is one that can be copied. -/
def Op.Careful [Inhabited T] (k : Kind) (s : Memory T Name) : Op T Name → Prop
  | copyConstruct _ n | copyAssign _ n => ∀ b, s.view (some n) = some b → CopyOk k b
  | _ => True

variable [DecidableEq Name] [Inhabited T]

def Step (k : Kind) (s s' : Memory T Name) : Prop :=
  ∃ op : Op T Name, op.Enabled s ∧ op.step k s = some s'

def CarefulStep (k : Kind) (s s' : Memory T Name) : Prop :=
  ∃ op : Op T Name, op.Enabled s ∧ op.Careful k s ∧ op.step k s = some s'

/-- An operation touches the buffers only that it is applied to. -/
theorem Op.step_frame {op : Op T Name} (hs : Apart s) (htmp : s.buffer none = none) (he : op.Enabled s)
    (hstep : op.step k s = some s') :
    Apart s' ∧ s'.buffer none = none ∧ ∀ n, n ∉ op.targets → s'.view (some n) = s.view (some n) := by
  have hput : ∀ {n : Name} {f : RingBuffer T → Option (RingBuffer T)}, s.use (some n) f = some s' →
      Apart s' ∧ s'.buffer none = none ∧ ∀ n', n' ∉ [n] → s'.view (some n') = s.view (some n') := by
    intro n f huse
    obtain ⟨r, b, hr, -, rfl⟩ := use_eq_some.1 huse
    refine ⟨hs.put hr, by simp [Memory.put, htmp], fun n' hn' => hs.view_put_of_ne hr ?_⟩
    simpa using hn'
  have hallocate : ∀ (n : Name) (b : RingBuffer T), Apart (s.allocate (some n) b) ∧
      (s.allocate (some n) b).buffer none = none ∧
      ∀ n', n' ∉ [n] → (s.allocate (some n) b).view (some n') = s.view (some n') := by
    intro n b
    refine ⟨hs.allocate, by simp [Memory.allocate, Memory.put, htmp], fun n' hn' => hs.view_allocate_of_ne ?_⟩
    simpa using hn'
  cases op with
  | construct n c =>
    cases hstep
    exact hallocate n _
  | emplaceBack n v => exact hput (f := (RingBuffer.emplaceBack k · v)) hstep
  | popFront n => exact hput hstep
  | clear n => exact hput hstep
  | copyConstruct m n =>
    obtain ⟨b, b', -, -, rfl⟩ := copyConstruct_eq_some.1 hstep
    exact hallocate m b'
  | copyAssign m n =>
    obtain ⟨r, hr⟩ := Option.isSome_iff_exists.1 he.1
    obtain ⟨b, b', -, -, -, rfl⟩ := (copyAssign_eq_some hs htmp hr).1 hstep
    refine ⟨(hs.allocate.swap none _).free none r, by simp [assigned, free], fun n' hn' => ?_⟩
    exact view_assigned_of_ne hs htmp hr (by simpa [targets] using hn') (Option.some_ne_none n')
  | swap m n =>
    cases hstep
    refine ⟨hs.swap _ _, ?_, fun n' hn' => ?_⟩
    · change s.buffer (Equiv.swap (some m) (some n) none) = none
      rw [Equiv.swap_apply_of_ne_of_ne (Option.some_ne_none m).symm (Option.some_ne_none n).symm, htmp]
    · rw [targets, List.mem_cons, List.mem_singleton, not_or] at hn'
      change s.view (Equiv.swap (some m) (some n) (some n')) = _
      rw [Equiv.swap_apply_of_ne_of_ne (by simpa using hn'.1) (by simpa using hn'.2)]
  | destruct n =>
    obtain ⟨r, hr⟩ := Option.isSome_iff_exists.1 he
    rw [Op.step, destruct_eq hr] at hstep
    obtain ⟨b, -, rfl⟩ := Option.map_eq_some_iff.1 hstep
    refine ⟨hs.free _ r, by simp [free, htmp], fun n' hn' => hs.view_free_of_ne hr ?_⟩
    simpa [targets] using hn'

/-- What holds between two operations. -/
structure Settled (s : Memory T Name) : Prop where
  apart : Apart s
  tmp : s.buffer none = none
  sound : ∀ n b, s.view (some n) = some b → ∃ h, Sound b h

namespace Settled

omit [Inhabited T] in
theorem use (hs : Settled s) {n : Name} {f : RingBuffer T → Option (RingBuffer T)}
    (hf : ∀ b b' h, Sound b h → f b = some b' → ∃ h', Sound b' h') (huse : s.use (some n) f = some s')
    (hb : s'.view (some n) = some b) : ∃ h, Sound b h := by
  obtain ⟨r, b', hr, hb', rfl⟩ := use_eq_some.1 huse
  rw [view_put] at hb
  cases hb
  obtain ⟨h, hh⟩ := hs.sound n _ (by rw [view, hr]; rfl)
  exact hf _ _ h hh hb'

theorem step (hs : Settled s) {op : Op T Name} (he : op.Enabled s) (hc : op.Careful k s)
    (hstep : op.step k s = some s') : Settled s' := by
  obtain ⟨hapart, htmp, hframe⟩ := Op.step_frame hs.apart hs.tmp he hstep
  refine ⟨hapart, htmp, fun n b hb => ?_⟩
  by_cases hn : n ∈ op.targets
  · cases op with
    | construct n' c =>
      cases hstep
      obtain rfl : n = n' := by simpa [Op.targets] using hn
      rw [Memory.construct, allocate, view_put] at hb
      cases hb
      exact ⟨0, .make he.2.1 he.2.2⟩
    | emplaceBack n' v =>
      obtain rfl : n = n' := by simpa [Op.targets] using hn
      exact hs.use (f := (RingBuffer.emplaceBack k · v)) (fun _ _ _ hx hp => hx.emplaceBack hp) hstep hb
    | popFront n' =>
      obtain rfl : n = n' := by simpa [Op.targets] using hn
      exact hs.use (fun _ _ _ hx hp => (hx.popFront hp).1) hstep hb
    | clear n' =>
      obtain rfl : n = n' := by simpa [Op.targets] using hn
      exact hs.use (fun _ _ _ hx hp => hx.clear hp) hstep hb
    | copyConstruct m n' =>
      obtain rfl : n = m := by simpa [Op.targets] using hn
      obtain ⟨b₀, b', hb₀, hcopy, rfl⟩ := copyConstruct_eq_some.1 hstep
      rw [allocate, view_put] at hb
      cases hb
      obtain ⟨h, hx⟩ := hs.sound n' b₀ hb₀
      exact ⟨h, hx.of_copy (hc b₀ hb₀) hcopy⟩
    | copyAssign m n' =>
      obtain rfl : n = m := by simpa [Op.targets] using hn
      obtain ⟨r, hr⟩ := Option.isSome_iff_exists.1 he.1
      obtain ⟨b₀, b', hb₀, hcopy, -, rfl⟩ := (copyAssign_eq_some hs.apart hs.tmp hr).1 hstep
      rw [view_assigned hs.apart hs.tmp hr] at hb
      cases hb
      obtain ⟨h, hx⟩ := hs.sound n' b₀ hb₀
      exact ⟨h, hx.of_copy (hc b₀ hb₀) hcopy⟩
    | swap m n' =>
      cases hstep
      change s.view (Equiv.swap (some m) (some n') (some n)) = some b at hb
      rw [Op.targets, List.mem_cons, List.mem_singleton] at hn
      obtain rfl | rfl := hn
      · rw [Equiv.swap_apply_left] at hb
        exact hs.sound n' b hb
      · rw [Equiv.swap_apply_right] at hb
        exact hs.sound m b hb
    | destruct n' =>
      obtain rfl : n = n' := by simpa [Op.targets] using hn
      obtain ⟨r, hr⟩ := Option.isSome_iff_exists.1 he
      rw [Op.step, destruct_eq hr] at hstep
      obtain ⟨b', -, rfl⟩ := Option.map_eq_some_iff.1 hstep
      simp [view, free] at hb
  · rw [hframe n hn] at hb
    exact hs.sound n b hb

end Settled

/-- The head does not pass the largest `int` when all objects go. -/
def Room (b : RingBuffer T) : Prop := b.capacity < 2 ^ 31 ∨ b.head + b.size < 2 ^ 31

end Copies

end Wizard.RingBuffer
