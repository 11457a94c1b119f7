import Wizard.RingBufferDeque

/-! The objects in ring buffers of a type with a destructor. A buffer is raw memory, and
objects begin and end in its slots: `emplace_back` and the copy constructor construct them,
`pop_front`, `clear` and the destructor destroy them. -/

namespace Wizard.RingBuffer

/-- Objects are numbered in the order of their construction. -/
structure Object (T : Type) where
  id : Nat
  value : T
deriving DecidableEq

/-- How many objects were constructed, which were destroyed, and over which another one
was constructed. -/
structure Ledger where
  made : Nat
  destroyed : List Nat
  buried : List Nat
deriving DecidableEq

/-- A buffer at work. -/
structure Live (T : Type) where
  buf : RingBuffer (Object T)
  log : Ledger

variable {T : Type}

namespace Live

/-- A placement new. -/
def construct (x : Live T) (index : Nat) (v : T) : Live T where
  buf := { x.buf with elements := Function.update x.buf.elements index (some ⟨x.log.made, v⟩) }
  log := { x.log with
    made := x.log.made + 1
    buried := (x.buf.elements index).toList.map Object.id ++ x.log.buried }

def destroy (x : Live T) (index : Nat) : Option (Live T) := do
  let o ← x.buf.slot index
  return ⟨{ x.buf with elements := Function.update x.buf.elements index none },
    { x.log with destroyed := o.id :: x.log.destroyed }⟩

def popFront (x : Live T) : Option (Live T) :=
  if x.buf.empty then some x else do
    let x ← x.destroy (toSize x.buf.head)
    return { x with buf := { x.buf with size := x.buf.size - 1, head := ← nextIndex x.buf.head x.buf.capacity } }

def emplaceBackImpl (x : Live T) (v : T) : Option (Live T) := do
  let tail ← nextIndex x.buf.tail x.buf.capacity
  if 0 ≤ tail ∧ tail < x.buf.capacity then
    let x := { x with buf := { x.buf with tail := tail } }.construct tail.toNat v
    some { x with buf := { x.buf with size := x.buf.size + 1 } }
  else none

def emplaceBack (overwrite : Bool) (x : Live T) (v : T) : Option (Live T) :=
  if x.buf.full then
    if overwrite then do (← x.popFront).emplaceBackImpl v else some x
  else x.emplaceBackImpl v

def destroyAll : Nat → Live T → Option (Live T)
  | 0, _ => none
  | fuel + 1, x =>
    if x.buf.empty then some x else do
      let x ← x.destroy (toSize x.buf.head)
      destroyAll fuel { x with
        buf := { x.buf with head := ← nextIndex x.buf.head x.buf.capacity, size := x.buf.size - 1 } }

def clear (x : Live T) : Option (Live T) := x.destroyAll (x.buf.size + 1)

def constructAll [Inhabited T] (x : Live T) : Live T :=
  (List.range x.buf.capacity).foldl (fun x i => x.construct i default) x

/-- `std::copy(rhs.elements_, rhs.elements_ + size_, elements_)`, which assigns to the objects
that are there. -/
def copyElements (rhs b : RingBuffer (Object T)) : Option (RingBuffer (Object T)) :=
  (List.range rhs.size).foldlM (fun b i => do
    let o ← rhs.slot i
    let p ← b.slot i
    return { b with elements := Function.update b.elements i (some ⟨p.id, o.value⟩) }) b

/-- The copy constructor. -/
def copy [Inhabited T] (rhs : RingBuffer (Object T)) (log : Ledger) : Option (Live T) := do
  let x := (Live.mk { rhs with elements := fun _ => none } log).constructAll
  return { x with buf := ← copyElements rhs x.buf }

end Live

/-- The buffer without the numbers of its objects. -/
def forget (b : RingBuffer (Object T)) : RingBuffer T :=
  { b with elements := fun i => (b.elements i).map Object.value }

section Forget

variable (x : Live T)

theorem forget_update (b : RingBuffer (Object T)) (i : Nat) (o : Option (Object T)) :
    (fun j => (Function.update b.elements i o j).map Object.value) =
      Function.update (forget b).elements i (o.map Object.value) := by
  funext j
  exact Function.apply_update (fun _ => Option.map Object.value) _ _ _ _

theorem forget_destroy (overwrite : Bool) (index : Nat) :
    (forget x.buf).destroy ⟨overwrite, false⟩ index = (x.destroy index).map (forget ∘ Live.buf) := by
  have hslot : (forget x.buf).slot index = (x.buf.slot index).map Object.value := by
    simp only [slot, forget]
    by_cases hi : index < x.buf.capacity <;> simp [hi]
  simp only [Live.destroy, RingBuffer.destroy, hslot]
  cases x.buf.slot index with
  | none => rfl
  | some o => simp [forget, forget_update]

theorem forget_popFront (overwrite : Bool) :
    (forget x.buf).popFront ⟨overwrite, false⟩ = x.popFront.map (forget ∘ Live.buf) := by
  have hempty : (forget x.buf).empty = x.buf.empty := rfl
  simp only [RingBuffer.popFront, Live.popFront, hempty]
  split
  · rfl
  · have hhead : (forget x.buf).head = x.buf.head := rfl
    rw [hhead, forget_destroy]
    cases x.destroy (toSize x.buf.head) with
    | none => rfl
    | some y =>
      have hnext : nextIndex (forget y.buf).head (forget y.buf).capacity = nextIndex y.buf.head y.buf.capacity := rfl
      simp only [Option.map_some, Option.bind_eq_bind, Option.bind_some, Function.comp, hnext]
      cases nextIndex y.buf.head y.buf.capacity <;> rfl

theorem forget_emplaceBackImpl (v : T) :
    (forget x.buf).emplaceBackImpl v = (x.emplaceBackImpl v).map (forget ∘ Live.buf) := by
  have hnext : nextIndex (forget x.buf).tail (forget x.buf).capacity = nextIndex x.buf.tail x.buf.capacity := rfl
  simp only [RingBuffer.emplaceBackImpl, Live.emplaceBackImpl, hnext]
  cases nextIndex x.buf.tail x.buf.capacity with
  | none => rfl
  | some tail =>
    have hcap : (forget x.buf).capacity = x.buf.capacity := rfl
    simp only [Option.bind_eq_bind, Option.bind_some, hcap]
    split
    · simp [forget, forget_update, Live.construct]
    · rfl

theorem forget_emplaceBack (overwrite : Bool) (v : T) :
    (forget x.buf).emplaceBack ⟨overwrite, false⟩ v = (x.emplaceBack overwrite v).map (forget ∘ Live.buf) := by
  have hfull : (forget x.buf).full = x.buf.full := rfl
  simp only [RingBuffer.emplaceBack, Live.emplaceBack, hfull]
  split
  · split
    · rw [forget_popFront]
      cases x.popFront with
      | none => rfl
      | some y => exact forget_emplaceBackImpl y v
    · rfl
  · exact forget_emplaceBackImpl x v

theorem forget_destroyAll (overwrite : Bool) (fuel : Nat) :
    (forget x.buf).destroyAll ⟨overwrite, false⟩ fuel = (x.destroyAll fuel).map (forget ∘ Live.buf) := by
  induction fuel generalizing x with
  | zero => rfl
  | succ fuel ih =>
    have hempty : (forget x.buf).empty = x.buf.empty := rfl
    simp only [RingBuffer.destroyAll, Live.destroyAll, hempty]
    split
    · rfl
    · have hhead : (forget x.buf).head = x.buf.head := rfl
      rw [hhead, forget_destroy]
      cases x.destroy (toSize x.buf.head) with
      | none => rfl
      | some y =>
        have hnext : nextIndex (forget y.buf).head (forget y.buf).capacity =
          nextIndex y.buf.head y.buf.capacity := rfl
        simp only [Option.map_some, Option.bind_eq_bind, Option.bind_some, Function.comp, hnext]
        cases nextIndex y.buf.head y.buf.capacity with
        | none => rfl
        | some head => exact ih ⟨{ y.buf with head := head, size := y.buf.size - 1 }, y.log⟩

theorem forget_clear (overwrite : Bool) :
    (forget x.buf).clear ⟨overwrite, false⟩ = x.clear.map (forget ∘ Live.buf) :=
  forget_destroyAll x overwrite _

end Forget

/-- The buffers of a program. The buffer without a name is the temporary of `operator=`. -/
structure World (T Name : Type) where
  buffer : Option Name → Option (RingBuffer (Object T))
  log : Ledger

variable {Name : Type} [DecidableEq Name]

namespace World

def put (w : World T Name) (n : Option Name) (x : Live T) : World T Name :=
  ⟨Function.update w.buffer n (some x.buf), x.log⟩

def use (w : World T Name) (n : Option Name) (f : Live T → Option (Live T)) : Option (World T Name) := do
  let x ← f ⟨← w.buffer n, w.log⟩
  return w.put n x

def construct (w : World T Name) (n : Option Name) (capacity : Nat) : World T Name :=
  w.put n ⟨make capacity, w.log⟩

def copyConstruct [Inhabited T] (w : World T Name) (m n : Option Name) : Option (World T Name) := do
  let x ← Live.copy (← w.buffer n) w.log
  return w.put m x

def swap (w : World T Name) (m n : Option Name) : World T Name :=
  { w with buffer := fun p => w.buffer (Equiv.swap m n p) }

/-- `~RingBuffer`. -/
def destruct (w : World T Name) (n : Option Name) : Option (World T Name) := do
  let w ← w.use n Live.clear
  return { w with buffer := Function.update w.buffer n none }

/-- `operator=`. -/
def copyAssign [Inhabited T] (w : World T Name) (m n : Option Name) : Option (World T Name) := do
  let w ← w.copyConstruct none n
  (w.swap none m).destruct none

end World

namespace Objects

inductive Op (T Name : Type)
  | construct (n : Name) (capacity : Nat)
  | emplaceBack (n : Name) (v : T)
  | popFront (n : Name)
  | clear (n : Name)
  | copyConstruct (m n : Name)
  | copyAssign (m n : Name)
  | swap (m n : Name)
  | destruct (n : Name)

def Op.step [Inhabited T] (overwrite : Bool) (w : World T Name) : Op T Name → Option (World T Name)
  | construct n capacity => some (w.construct (some n) capacity)
  | emplaceBack n v => w.use (some n) (Live.emplaceBack overwrite · v)
  | popFront n => w.use (some n) Live.popFront
  | clear n => w.use (some n) Live.clear
  | copyConstruct m n => w.copyConstruct (some m) (some n)
  | copyAssign m n => w.copyAssign (some m) (some n)
  | swap m n => some (w.swap (some m) (some n))
  | destruct n => w.destruct (some n)

end Objects

variable {x y z : Live T} {b : RingBuffer (Object T)} {h i j n c : Nat} {v : T}

/-- The slots with an object are the `size_` slots from the head on. -/
def Window (b : RingBuffer (Object T)) : Prop :=
  ∀ i, (b.elements i).isSome ↔ ∃ j < b.size, (i : Int) = (b.head + j) % b.capacity

/-- A buffer between two operations. An `int` can be the last index of the array only if it
is less than 2^31. -/
structure Exact (b : RingBuffer (Object T)) (h : Nat) : Prop where
  bound : b.capacity < 2 ^ 64
  head : b.head = h
  lt : h < b.capacity
  small : h < 2 ^ 31
  tail : -1 ≤ b.tail ∧ b.tail < b.capacity
  tail_small : b.tail < 2 ^ 31
  fits : b.size ≤ b.capacity
  ring : (b.tail + 1).toNat % b.capacity = (h + b.size) % b.capacity
  slots : ∀ i, (b.elements i).isSome ↔ ∃ j < b.size, i = (h + j) % b.capacity

namespace Exact

theorem toSize_head (hb : Exact b h) : toSize b.head = h := by
  rw [hb.head, toSize_natCast (hb.lt.trans hb.bound)]

theorem slot_mod (hb : Exact b h) (hj : j < b.size) : ∃ o, b.slot ((h + j) % b.capacity) = some o := by
  rw [slot, if_pos (Nat.mod_lt _ (Nat.zero_lt_of_lt hb.lt))]
  exact Option.isSome_iff_exists.1 ((hb.slots _).2 ⟨j, hj, rfl⟩)

theorem slot_head (hb : Exact b h) (hs : 0 < b.size) : ∃ o, b.slot h = some o := by
  have hj := hb.slot_mod hs
  rwa [Nat.add_zero, Nat.mod_eq_of_lt hb.lt] at hj

theorem nextIndex_head (hb : Exact b h) (hh : h + 1 < 2 ^ 31) :
    nextIndex b.head b.capacity = some (((h + 1) % b.capacity : Nat) : Int) := by
  have hpos := Nat.zero_lt_of_lt hb.lt
  rw [hb.head]
  exact nextIndex_of_lt (by omega) (by omega) hpos (by omega)

theorem nextIndex_tail (hb : Exact b h) (ht : b.tail + 1 < 2 ^ 31) :
    nextIndex b.tail b.capacity = some (((h + b.size) % b.capacity : Nat) : Int) := by
  rw [← hb.ring]
  exact nextIndex_of_lt hb.tail.1 ht (Nat.zero_lt_of_lt hb.lt) rfl

theorem make (hpos : 0 < c) (hc : c < 2 ^ 64) : Exact (RingBuffer.make c : RingBuffer (Object T)) 0 := by
  refine ⟨hc, rfl, hpos, by decide, ?_, (by decide : (-1 : Int) < 2 ^ 31), Nat.zero_le _, rfl, fun i => ?_⟩
  · change (-1 : Int) ≤ -1 ∧ (-1 : Int) < c
    omega
  · simp [RingBuffer.make]

theorem dropHead (hb : Exact b h) (hh : h + 1 < 2 ^ 31) (hs : 0 < b.size) :
    Exact { b with
      elements := Function.update b.elements h none
      size := b.size - 1
      head := ((h + 1) % b.capacity : Nat) } ((h + 1) % b.capacity) := by
  have hfits := hb.fits
  have hpos := Nat.zero_lt_of_lt hb.lt
  have hle : (h + 1) % b.capacity ≤ h + 1 := Nat.mod_le _ _
  obtain ⟨m, hm⟩ : ∃ m, b.size = m + 1 := ⟨b.size - 1, by omega⟩
  refine ⟨hb.bound, rfl, Nat.mod_lt _ hpos, by omega, hb.tail, hb.tail_small, ?_, ?_, fun i => ?_⟩
  · change b.size - 1 ≤ b.capacity
    omega
  · change (b.tail + 1).toNat % b.capacity = ((h + 1) % b.capacity + (b.size - 1)) % b.capacity
    rw [hb.ring, slot_succ, hm]
    rfl
  · change (Function.update b.elements h none i).isSome ↔
      ∃ j < b.size - 1, i = ((h + 1) % b.capacity + j) % b.capacity
    have hhead : (h + 0) % b.capacity = h := Nat.mod_eq_of_lt hb.lt
    by_cases hi : i = h
    · subst hi
      simp only [Function.update_self, Option.isSome_none, Bool.false_eq_true, false_iff]
      rintro ⟨j, hj, he⟩
      rw [slot_succ] at he
      exact slot_ne i (Nat.succ_pos j) (show j + 1 < b.capacity by omega) (hhead.trans he)
    · rw [Function.update_of_ne hi, hb.slots]
      constructor
      · rintro ⟨j, hj, rfl⟩
        cases j with
        | zero => exact absurd hhead hi
        | succ j => exact ⟨j, by omega, (slot_succ _ _ _).symm⟩
      · rintro ⟨j, hj, rfl⟩
        exact ⟨j + 1, by omega, slot_succ _ _ _⟩

theorem push (hb : Exact b h) (ht : b.tail + 1 < 2 ^ 31) (hs : b.size < b.capacity) (o : Object T) :
    Exact { b with
      elements := Function.update b.elements ((h + b.size) % b.capacity) (some o)
      tail := ((h + b.size) % b.capacity : Nat)
      size := b.size + 1 } h := by
  have hpos := Nat.zero_lt_of_lt hb.lt
  have hmod : (h + b.size) % b.capacity < b.capacity := Nat.mod_lt _ hpos
  have hle : (b.tail + 1).toNat % b.capacity ≤ (b.tail + 1).toNat := Nat.mod_le _ _
  rw [hb.ring] at hle
  refine ⟨hb.bound, hb.head, hb.lt, hb.small, ?_, ?_, hs, ?_, fun i => ?_⟩
  · change -1 ≤ (((h + b.size) % b.capacity : Nat) : Int) ∧ (((h + b.size) % b.capacity : Nat) : Int) < b.capacity
    omega
  · change (((h + b.size) % b.capacity : Nat) : Int) < 2 ^ 31
    omega
  · change ((((h + b.size) % b.capacity : Nat) : Int) + 1).toNat % b.capacity = (h + (b.size + 1)) % b.capacity
    have hnat : ((((h + b.size) % b.capacity : Nat) : Int) + 1).toNat = (h + b.size) % b.capacity + 1 := by omega
    rw [hnat, Nat.mod_add_mod]
    rfl
  · change (Function.update b.elements _ _ i).isSome ↔ ∃ j < b.size + 1, i = (h + j) % b.capacity
    by_cases hi : i = (h + b.size) % b.capacity
    · subst hi
      simp only [Function.update_self, Option.isSome_some, true_iff]
      exact ⟨b.size, Nat.lt_succ_self _, rfl⟩
    · rw [Function.update_of_ne hi, hb.slots]
      constructor
      · rintro ⟨j, hj, rfl⟩
        exact ⟨j, hj.trans (Nat.lt_succ_self _), rfl⟩
      · rintro ⟨j, hj, rfl⟩
        have hne : j ≠ b.size := fun he => hi (by rw [he])
        exact ⟨j, by omega, rfl⟩

theorem empty_slot (hb : Exact b h) (hs : b.size < b.capacity) : b.elements ((h + b.size) % b.capacity) = none := by
  rw [← Option.not_isSome_iff_eq_none, hb.slots]
  rintro ⟨j, hj, he⟩
  exact slot_ne h hj hs he.symm

end Exact

/-- What an operation on a buffer is made of: a construction in an empty slot, a
destruction, and anything that leaves the objects where they are. -/
inductive Touch (x : Live T) : Live T → Prop
  | construct (i : Nat) (v : T) (h : x.buf.elements i = none) : Touch x (x.construct i v)
  | destroy (i : Nat) {y : Live T} (h : x.destroy i = some y) : Touch x y
  | keep (b : RingBuffer (Object T))
      (h : ∀ i, (b.elements i).map Object.id = (x.buf.elements i).map Object.id) : Touch x ⟨b, x.log⟩

/-- How an operation goes from a buffer between two operations to the next one. -/
structure Does (x y : Live T) : Prop where
  touches : Relation.ReflTransGen Touch x y
  exact : ∃ h, Exact y.buf h
  capacity : y.buf.capacity = x.buf.capacity

namespace Does

theorem refl (hx : Exact x.buf h) : Does x x :=
  ⟨.refl, ⟨h, hx⟩, rfl⟩

theorem trans (hxy : Does x y) (hyz : Does y z) : Does x z :=
  ⟨hxy.touches.trans hyz.touches, hyz.exact, hyz.capacity.trans hxy.capacity⟩

end Does

/-- The buffer when its first object, in slot `h`, is gone. -/
def Live.dropped (x : Live T) (h id : Nat) : Live T where
  buf := { x.buf with
    elements := Function.update x.buf.elements h none
    size := x.buf.size - 1
    head := ((h + 1) % x.buf.capacity : Nat) }
  log := { x.log with destroyed := id :: x.log.destroyed }

namespace Exact

theorem destroy_head (hx : Exact x.buf h) (hs : 0 < x.buf.size) : ∃ id, x.destroy (toSize x.buf.head) =
    some ⟨{ x.buf with elements := Function.update x.buf.elements h none },
      { x.log with destroyed := id :: x.log.destroyed }⟩ := by
  obtain ⟨o, ho⟩ := hx.slot_head hs
  refine ⟨o.id, ?_⟩
  rw [hx.toSize_head, Live.destroy, ho]
  rfl

theorem dropped (hx : Exact x.buf h) (hs : 0 < x.buf.size) (hh : h + 1 < 2 ^ 31) {id : Nat}
    (hd : x.destroy (toSize x.buf.head) = some ⟨{ x.buf with elements := Function.update x.buf.elements h none },
      { x.log with destroyed := id :: x.log.destroyed }⟩) : Does x (x.dropped h id) where
  touches := .tail (.single (.destroy _ hd)) (.keep _ fun _ => rfl)
  exact := ⟨_, hx.dropHead hh hs⟩
  capacity := rfl

theorem popFront (hx : Exact x.buf h) (hs : 0 < x.buf.size) (hh : h + 1 < 2 ^ 31) :
    ∃ id, x.popFront = some (x.dropped h id) ∧ Does x (x.dropped h id) := by
  obtain ⟨id, hd⟩ := hx.destroy_head hs
  refine ⟨id, ?_, hx.dropped hs hh hd⟩
  have hne : x.buf.empty = false := by simp [empty, hs.ne']
  simp only [Live.popFront, hne, Bool.false_eq_true, if_false, hd, Option.bind_eq_bind, Option.bind_some,
    hx.nextIndex_head hh]
  rfl

theorem emplaceBackImpl (hx : Exact x.buf h) (ht : x.buf.tail + 1 < 2 ^ 31) (hs : x.buf.size < x.buf.capacity)
    (v : T) : ∃ y, x.emplaceBackImpl v = some y ∧ Does x y := by
  have hmod : (h + x.buf.size) % x.buf.capacity < x.buf.capacity := Nat.mod_lt _ (Nat.zero_lt_of_lt hx.lt)
  have hin : (0 : Int) ≤ ((h + x.buf.size) % x.buf.capacity : Nat) ∧
      (((h + x.buf.size) % x.buf.capacity : Nat) : Int) < x.buf.capacity := by omega
  have hempty := hx.empty_slot hs
  have hpush := hx.push ht hs ⟨x.log.made, v⟩
  refine ⟨⟨_, (x.construct ((h + x.buf.size) % x.buf.capacity) v).log⟩, ?_, ?_, ⟨h, hpush⟩, rfl⟩
  · simp only [Live.emplaceBackImpl, hx.nextIndex_tail ht, Option.bind_eq_bind, Option.bind_some, if_pos hin,
      Int.toNat_natCast]
    rfl
  · exact .tail (.single (.construct _ v hempty)) (.keep _ fun _ => rfl)

theorem emplaceBack (hx : Exact x.buf h) {overwrite : Bool}
    (hh : x.buf.full → overwrite → h + 1 < 2 ^ 31)
    (ht : x.buf.full = false ∨ overwrite → x.buf.tail + 1 < 2 ^ 31) (v : T) :
    ∃ y, x.emplaceBack overwrite v = some y ∧ Does x y := by
  have hfits := hx.fits
  have hpos := Nat.zero_lt_of_lt hx.lt
  by_cases hfull : x.buf.full = true
  · have hsize : x.buf.size = x.buf.capacity := of_decide_eq_true hfull
    rw [Live.emplaceBack, if_pos hfull]
    cases overwrite with
    | false => exact ⟨x, rfl, .refl hx⟩
    | true =>
      obtain ⟨id, hpop, hdoes⟩ := hx.popFront (by omega) (hh hfull rfl)
      obtain ⟨h', hx'⟩ := hdoes.exact
      have hlt : (x.dropped h id).buf.size < (x.dropped h id).buf.capacity := by
        change x.buf.size - 1 < x.buf.capacity
        omega
      obtain ⟨y, hpush, hy⟩ := hx'.emplaceBackImpl (ht (.inr rfl)) hlt v
      refine ⟨y, ?_, hdoes.trans hy⟩
      simp [hpop, hpush]
  · have hf : x.buf.full = false := Bool.eq_false_iff.2 hfull
    have hne : x.buf.size ≠ x.buf.capacity := of_decide_eq_false hf
    rw [Live.emplaceBack, if_neg hfull]
    exact hx.emplaceBackImpl (ht (.inl hf)) (by omega) v

theorem destroyAll {fuel : Nat} (hx : Exact x.buf h) (hf : x.buf.size < fuel)
    (hroom : x.buf.capacity < 2 ^ 31 ∨ h + x.buf.size < 2 ^ 31) :
    ∃ y, x.destroyAll fuel = some y ∧ Does x y ∧ y.buf.size = 0 := by
  induction fuel generalizing x h with
  | zero => omega
  | succ fuel ih =>
    rw [Live.destroyAll]
    by_cases hs : x.buf.size = 0
    · exact ⟨x, by simp [empty, hs], .refl hx, hs⟩
    · have hpos := Nat.pos_of_ne_zero hs
      have hlt := hx.lt
      have hh : h + 1 < 2 ^ 31 := by omega
      have hle : (h + 1) % x.buf.capacity ≤ h + 1 := Nat.mod_le _ _
      obtain ⟨id, hd⟩ := hx.destroy_head hpos
      have hdoes := hx.dropped hpos hh hd
      obtain ⟨y, hy, hydoes, hyz⟩ := ih (x := x.dropped h id) (hx.dropHead hh hpos)
        (show x.buf.size - 1 < fuel by omega)
        (show x.buf.capacity < 2 ^ 31 ∨ (h + 1) % x.buf.capacity + (x.buf.size - 1) < 2 ^ 31 by omega)
      refine ⟨y, ?_, hdoes.trans hydoes, hyz⟩
      have hne : x.buf.empty = false := by simp [empty, hs]
      simp only [hne, Bool.false_eq_true, if_false, hd, Option.bind_eq_bind, Option.bind_some, hx.nextIndex_head hh]
      exact hy

theorem clear (hx : Exact x.buf h) (hroom : x.buf.capacity < 2 ^ 31 ∨ h + x.buf.size < 2 ^ 31) :
    ∃ y, x.clear = some y ∧ Does x y ∧ y.buf.size = 0 :=
  hx.destroyAll (Nat.lt_succ_self _) hroom

end Exact

section Copy

/-- The assignments leave every object in its slot. -/
theorem copyElements_range {rhs : RingBuffer (Object T)} (hrhs : ∀ i < n, (rhs.slot i).isSome)
    (hb : ∀ i < n, (b.slot i).isSome) : ∃ e, (List.range n).foldlM (fun b i => do
      let o ← rhs.slot i
      let p ← b.slot i
      return { b with elements := Function.update b.elements i (some ⟨p.id, o.value⟩) }) b =
        some { b with elements := e } ∧ ∀ i, (e i).map Object.id = (b.elements i).map Object.id := by
  induction n with
  | zero => exact ⟨b.elements, rfl, fun _ => rfl⟩
  | succ n ih =>
    obtain ⟨e, he, hid⟩ := ih (fun i hi => hrhs i (by omega)) (fun i hi => hb i (by omega))
    obtain ⟨o, ho⟩ := Option.isSome_iff_exists.1 (hrhs n (Nat.lt_succ_self n))
    obtain ⟨p, hp⟩ := Option.isSome_iff_exists.1 (hb n (Nat.lt_succ_self n))
    have hn : n < b.capacity := by
      by_contra hn
      rw [slot, if_neg hn] at hp
      cases hp
    rw [slot, if_pos hn] at hp
    obtain ⟨q, hq, hqp⟩ : ∃ q, e n = some q ∧ q.id = p.id := by
      have hmap := hid n
      rw [hp] at hmap
      exact Option.map_eq_some_iff.1 hmap
    refine ⟨Function.update e n (some ⟨q.id, o.value⟩), ?_, fun i => ?_⟩
    · have hslot : slot { b with elements := e } n = some q := by
        rw [slot, if_pos hn]
        exact hq
      rw [List.range_succ, List.foldlM_append, he]
      simp [ho, hslot]
    · by_cases hi : i = n
      · subst hi
        simp [hp, hqp]
      · rw [Function.update_of_ne hi, hid]

variable [Inhabited T]

theorem exists_slot (hi : i < c) (hh : h < c) : ∃ j < c, i = (h + j) % c := by
  by_cases hle : h ≤ i
  · refine ⟨i - h, by omega, ?_⟩
    rw [Nat.add_sub_cancel' hle, Nat.mod_eq_of_lt hi]
  · refine ⟨i + c - h, by omega, ?_⟩
    rw [show h + (i + c - h) = i + c by omega, Nat.add_mod_right, Nat.mod_eq_of_lt hi]

theorem constructAll_range (hx : ∀ i, x.buf.elements i = none) (n : Nat) :
    ∃ log, (List.range n).foldl (fun x i => x.construct i default) x = ⟨{ x.buf with
      elements := fun i => if i < n then some ⟨x.log.made + i, default⟩ else none }, log⟩ ∧
      log.made = x.log.made + n ∧
      Relation.ReflTransGen Touch x ⟨{ x.buf with
        elements := fun i => if i < n then some ⟨x.log.made + i, default⟩ else none }, log⟩ := by
  induction n with
  | zero =>
    have he : x = ⟨{ x.buf with elements := fun i => if i < 0 then some ⟨x.log.made + i, default⟩ else none },
        x.log⟩ := by
      have hf : x.buf.elements = fun i => if i < 0 then some ⟨x.log.made + i, default⟩ else none := by
        funext i
        simp [hx]
      rw [← hf]
    exact ⟨x.log, he, rfl, by rw [← he]⟩
  | succ n ih =>
    obtain ⟨log, he, hmade, hr⟩ := ih
    have hnone : (if n < n then some (⟨x.log.made + n, default⟩ : Object T) else none) = none := if_neg (lt_irrefl n)
    have hstep := Touch.construct (x := ⟨{ x.buf with
      elements := fun i => if i < n then some ⟨x.log.made + i, default⟩ else none }, log⟩) n default hnone
    have hupd : Function.update (fun i => if i < n then some (⟨x.log.made + i, default⟩ : Object T) else none) n
        (some ⟨log.made, default⟩) = fun i => if i < n + 1 then some ⟨x.log.made + i, default⟩ else none := by
      funext i
      by_cases hi : i = n
      · subst hi
        simp [hmade]
      · rw [Function.update_of_ne hi]
        have hiff : i < n ↔ i < n + 1 := by omega
        simp only [hiff]
    rw [List.range_succ, List.foldl_append, he]
    simp only [List.foldl_cons, List.foldl_nil]
    simp only [Live.construct, hupd] at hstep ⊢
    exact ⟨_, rfl, by simp [hmade, Nat.add_assoc], hr.tail hstep⟩

theorem Exact.copy (hb : Exact b h) (hfull : b.size = b.capacity) (log : Ledger) :
    ∃ y : Live T, Live.copy b log = some y ∧ Relation.ReflTransGen Touch ⟨{ b with elements := fun _ => none }, log⟩ y ∧
      ∃ h, Exact y.buf h := by
  have hpos := Nat.zero_lt_of_lt hb.lt
  obtain ⟨log', hall, -, htouch⟩ := constructAll_range (T := T)
    (x := ⟨{ b with elements := fun _ => none }, log⟩) (fun _ => rfl) b.capacity
  have hrhs : ∀ i < b.size, (b.slot i).isSome := by
    intro i hi
    rw [hfull] at hi
    obtain ⟨j, hj, he⟩ := exists_slot hi hb.lt
    rw [slot, if_pos hi, hb.slots]
    exact ⟨j, by omega, he⟩
  obtain ⟨e, he, hid⟩ := copyElements_range hrhs (b := { b with
    elements := fun i => if i < b.capacity then some ⟨log.made + i, default⟩ else none }) (fun i hi => by
      rw [hfull] at hi
      rw [slot, if_pos hi]
      simp [hi])
  refine ⟨⟨{ b with elements := e }, log'⟩, ?_, htouch.tail (.keep _ hid), h,
    ⟨hb.bound, hb.head, hb.lt, hb.small, hb.tail, hb.tail_small, hb.fits, hb.ring, fun i => ?_⟩⟩
  · have hcopy : Live.copyElements b { b with
        elements := fun i => if i < b.capacity then some ⟨log.made + i, default⟩ else none } =
        some { b with elements := e } := he
    rw [Live.copy, Live.constructAll, hall]
    simp only [hcopy, Option.bind_eq_bind, Option.bind_some]
    rfl
  · have hsome : (e i).isSome ↔ i < b.capacity := by
      rw [← Option.isSome_map (f := Object.id), hid]
      by_cases hi : i < b.capacity <;> simp [hi]
    change (e i).isSome ↔ ∃ j < b.size, i = (h + j) % b.capacity
    rw [hsome, hfull]
    constructor
    · intro hi
      exact exists_slot hi hb.lt
    · rintro ⟨j, -, rfl⟩
      exact Nat.mod_lt _ hpos

end Copy

end Wizard.RingBuffer
