import Wizard.Places
import Wizard.RingBufferObjects
import Wizard.Runs

/-! The lifetimes of the objects of all buffers. Copying a buffer that is not full breaks
them: the copy constructor constructs an object in every slot and copies the slots from the
first one on, wherever the window is. -/

namespace Wizard.RingBuffer

variable {T Name : Type} {x y : Live T} {b : RingBuffer (Object T)} {i c : Nat}

variable {w w' : World T Name} {m : Option Name}

namespace World

def ids (w : World T Name) (n : Option Name) (i : Nat) : Option Nat := do
  let b ← w.buffer n
  (b.elements i).map Object.id

/-- An object is in a slot or it is destroyed. -/
inductive Place (Name : Type)
  | slot (n : Option Name) (i : Nat)
  | gone

def At (w : World T Name) (id : Nat) : Place Name → Prop
  | .slot n i => w.ids n i = some id
  | .gone => id ∈ w.log.destroyed

/-- Every object is in one slot until it is destroyed, once. -/
structure Balanced (w : World T Name) : Prop where
  places : OnePlace (· < w.log.made) w.At
  once : w.log.destroyed.Nodup
  alone : w.log.buried = []

namespace Balanced

theorem congr (hw : Balanced w) (hids : ∀ n i, w'.ids n i = w.ids n i) (hlog : w'.log = w.log) : Balanced w' := by
  refine ⟨?_, hlog ▸ hw.once, hlog ▸ hw.alone⟩
  rw [hlog]
  apply hw.places.congr
  intro id p
  cases p with
  | slot n i => rw [At, At, hids]
  | gone => rw [At, At, hlog]

end Balanced

variable [DecidableEq Name]

/-- Where the objects are when two buffers have changed places. -/
def Place.exchange (m n : Option Name) : Place Name → Place Name
  | .slot p i => .slot (Equiv.swap m n p) i
  | .gone => .gone

theorem Place.exchange_exchange (m n : Option Name) : Function.Involutive (Place.exchange m n) := by
  rintro (⟨p, i⟩ | _) <;> simp [Place.exchange]

theorem put_self {n : Option Name} (h : w.buffer n = some b) : w.put n ⟨b, w.log⟩ = w := by
  cases w with
  | mk buffer log =>
    simp only [put, World.mk.injEq, and_true]
    exact Function.update_eq_self_iff.2 h.symm

theorem ids_put (n : Option Name) (i : Nat) : (w.put n x).ids n i = (x.buf.elements i).map Object.id := by
  simp [ids, put]

theorem ids_put_of_ne {n : Option Name} (h : m ≠ n) (i : Nat) : (w.put n x).ids m i = w.ids m i := by
  simp [ids, put, Function.update_of_ne h]

namespace Balanced

theorem construct {n : Option Name} (hw : Balanced (w.put n x)) (hx : x.buf.elements i = none) (v : T) :
    Balanced (w.put n (x.construct i v)) := by
  have hfresh : ∀ q, ¬ (w.put n x).At x.log.made q := fun q hq => absurd (hw.places.mem _ q hq) (lt_irrefl _)
  have hslot : ∀ m j, (w.put n (x.construct i v)).ids m j =
      if m = n ∧ j = i then some x.log.made else (w.put n x).ids m j := by
    intro m j
    by_cases hm : m = n
    · subst hm
      rw [ids_put, ids_put]
      by_cases hj : j = i
      · subst hj
        simp [Live.construct]
      · simp [Live.construct, hj]
    · rw [ids_put_of_ne hm, ids_put_of_ne hm]
      simp [hm]
  refine ⟨?_, hw.once, ?_⟩
  · apply hw.places.insert x.log.made (.slot n i)
    · intro id
      change id < x.log.made + 1 ↔ id = x.log.made ∨ id < x.log.made
      omega
    · intro q
      cases q with
      | slot m j =>
        rw [At, hslot]
        split
        · rename_i hmj
          simp [hmj]
        · rename_i hmj
          have hno := hfresh (.slot m j)
          rw [At] at hno
          simp [hmj, hno]
      | gone =>
        have hno := hfresh .gone
        simp only [reduceCtorEq, iff_false]
        exact hno
    · intro id q hne
      cases q with
      | slot m j =>
        rw [At, At, hslot]
        split
        · rename_i hmj
          obtain ⟨rfl, rfl⟩ := hmj
          rw [ids_put, hx]
          simp [hne.symm]
        · exact Iff.rfl
      | gone => exact Iff.rfl
  · change (x.buf.elements i).toList.map Object.id ++ x.log.buried = []
    rw [hx]
    exact hw.alone

theorem destroy {n : Option Name} (hw : Balanced (w.put n x)) (hd : x.destroy i = some y) : Balanced (w.put n y) := by
  obtain ⟨o, ho, hy⟩ := Option.bind_eq_some_iff.1 hd
  cases hy
  have hslot : x.buf.elements i = some o := by
    rw [RingBuffer.slot] at ho
    split at ho
    · exact ho
    · cases ho
  have hat : (w.put n x).At o.id (.slot n i) := by
    rw [At, ids_put, hslot]
    rfl
  have hlive : o.id ∉ x.log.destroyed := by
    intro hmem
    cases hw.places.unique o.id (.slot n i) .gone hat hmem
  refine ⟨?_, List.nodup_cons.2 ⟨hlive, hw.once⟩, hw.alone⟩
  apply hw.places.move .gone hat
  · intro q
    cases q with
    | slot m j =>
      simp only [reduceCtorEq, iff_false]
      intro hq
      by_cases hmj : m = n ∧ j = i
      · obtain ⟨rfl, rfl⟩ := hmj
        rw [At, ids_put] at hq
        simp at hq
      · have hq' : (w.put n x).At o.id (.slot m j) := by
          by_cases hm : m = n
          · subst hm
            have hj : j ≠ i := fun hj => hmj ⟨rfl, hj⟩
            rw [At, ids_put] at hq ⊢
            simpa [hj] using hq
          · rw [At, ids_put_of_ne hm] at hq ⊢
            exact hq
        have he := hw.places.unique o.id _ _ hq' hat
        rw [Place.slot.injEq] at he
        exact hmj he
    | gone => simp [At, put]
  · intro id q hne
    cases q with
    | slot m j =>
      by_cases hm : m = n
      · subst hm
        rw [At, At, ids_put, ids_put]
        by_cases hj : j = i
        · subst hj
          simp [hslot, hne.symm]
        · simp [hj]
      · rw [At, At, ids_put_of_ne hm, ids_put_of_ne hm]
    | gone => simp [At, put, hne]

theorem touch {n : Option Name} (hw : Balanced (w.put n x)) (h : Touch x y) : Balanced (w.put n y) := by
  cases h with
  | construct i v hx => exact hw.construct hx v
  | destroy i hd => exact hw.destroy hd
  | keep b hb =>
    apply hw.congr
    · intro m i
      by_cases hm : m = n
      · subst hm
        rw [ids_put, ids_put]
        exact hb i
      · rw [ids_put_of_ne hm, ids_put_of_ne hm]
    · rfl

theorem touches {n : Option Name} (hw : Balanced (w.put n x)) (h : Relation.ReflTransGen Touch x y) :
    Balanced (w.put n y) := by
  induction h with
  | refl => exact hw
  | tail _ hs ih => exact ih.touch hs

/-- A buffer begins in memory without objects. -/
theorem begin (hw : Balanced w) {n : Option Name} (hn : w.buffer n = none) (hb : ∀ i, b.elements i = none) :
    Balanced (w.put n ⟨b, w.log⟩) := by
  apply hw.congr
  · intro m i
    by_cases hm : m = n
    · subst hm
      rw [ids_put, hb]
      simp [ids, hn]
    · exact ids_put_of_ne hm i
  · rfl

/-- A buffer ends when its memory holds no objects. -/
theorem erase (hw : Balanced w) {n : Option Name} (hn : w.buffer n = some b) (hb : ∀ i, b.elements i = none) :
    Balanced { w with buffer := Function.update w.buffer n none } := by
  apply hw.congr
  · intro m i
    by_cases hm : m = n
    · subst hm
      simp [ids, hn, hb]
    · simp [ids, Function.update_of_ne hm]
  · rfl

theorem swap (hw : Balanced w) (m n : Option Name) : Balanced (w.swap m n) := by
  refine ⟨hw.places.rename (Function.Involutive.toPerm _ (Place.exchange_exchange m n)) ?_, hw.once, hw.alone⟩
  rintro id (⟨p, i⟩ | _)
  · rfl
  · rfl

end Balanced

end World

namespace Objects

def Init (w : World T Name) : Prop := w = ⟨fun _ => none, ⟨0, [], []⟩⟩

/-- A name stands for a buffer from its construction to its destruction. -/
def Op.Enabled (w : World T Name) : Op T Name → Prop
  | construct n capacity => w.buffer (some n) = none ∧ 0 < capacity ∧ capacity < 2 ^ 64
  | emplaceBack n _ | popFront n | clear n | destruct n => ∃ b, w.buffer (some n) = some b
  | copyConstruct m n => w.buffer (some m) = none ∧ ∃ b, w.buffer (some n) = some b
  | copyAssign m n | swap m n => (∃ b, w.buffer (some m) = some b) ∧ ∃ b, w.buffer (some n) = some b

/-- The head does not pass the largest `int` when all objects go. -/
def Room (b : RingBuffer (Object T)) : Prop := b.capacity < 2 ^ 31 ∨ b.head + b.size < 2 ^ 31

/-- Only full buffers are copied, and no index overflows. -/
def Op.Careful (overwrite : Bool) (w : World T Name) : Op T Name → Prop
  | construct _ _ | swap _ _ => True
  | emplaceBack n _ => ∀ b, w.buffer (some n) = some b → (b.full → overwrite → b.head + 1 < 2 ^ 31) ∧
      (b.full = false ∨ overwrite → b.tail + 1 < 2 ^ 31)
  | popFront n => ∀ b, w.buffer (some n) = some b → 0 < b.size → b.head + 1 < 2 ^ 31
  | clear n | destruct n => ∀ b, w.buffer (some n) = some b → Room b
  | copyConstruct _ n => ∀ b, w.buffer (some n) = some b → b.full
  | copyAssign m n => (∀ b, w.buffer (some m) = some b → Room b) ∧ ∀ b, w.buffer (some n) = some b → b.full

section Steps

variable [DecidableEq Name] [Inhabited T] (overwrite : Bool)

def Step (w w' : World T Name) : Prop :=
  ∃ op : Op T Name, op.Enabled w ∧ op.step overwrite w = some w'

def CarefulStep (w w' : World T Name) : Prop :=
  ∃ op : Op T Name, op.Enabled w ∧ op.Careful overwrite w ∧ op.step overwrite w = some w'

end Steps

/-- What holds between two operations. -/
structure Good (w : World T Name) : Prop where
  balanced : w.Balanced
  exact : ∀ n b, w.buffer n = some b → ∃ h, Exact b h

/-- Between two operations there is no temporary buffer. -/
structure Settled (w : World T Name) : Prop extends Good w where
  tmp : w.buffer none = none

namespace Good

theorem init (h : Init w) : Good w := by
  subst h
  refine ⟨⟨⟨?_, ?_, ?_⟩, List.nodup_nil, rfl⟩, fun n b hb => by cases hb⟩
  · rintro id (⟨n, i⟩ | _) h
    · cases h
    · cases h
  · intro id hid
    exact absurd hid (Nat.not_lt_zero id)
  · rintro id (⟨n, i⟩ | _) q h
    · cases h
    · cases h

variable [DecidableEq Name]

theorem put (hw : Good w) {n : Option Name} (hx : ∃ h, Exact x.buf h) (hb : (w.put n x).Balanced) :
    Good (w.put n x) where
  balanced := hb
  exact := by
    intro p b hp
    by_cases hpn : p = n
    · subst hpn
      simp only [World.put, Function.update_self, Option.some.injEq] at hp
      exact hp ▸ hx
    · simp only [World.put, Function.update_of_ne hpn] at hp
      exact hw.exact p b hp

theorem swap (hw : Good w) (m n : Option Name) : Good (w.swap m n) where
  balanced := hw.balanced.swap m n
  exact := fun p => hw.exact (Equiv.swap m n p)

/-- A buffer goes from one operation to the next. -/
theorem use (hw : Good w) {n : Option Name} (hb : w.buffer n = some b) {f : Live T → Option (Live T)}
    (hf : f ⟨b, w.log⟩ = some y) (hdoes : Does ⟨b, w.log⟩ y) : w.use n f = some (w.put n y) ∧ Good (w.put n y) := by
  have hbal := hw.balanced
  rw [← World.put_self hb] at hbal
  exact ⟨by simp [World.use, hb, hf], hw.put hdoes.exact (hbal.touches hdoes.touches)⟩

theorem construct (hw : Good w) {n : Option Name} (hn : w.buffer n = none) (hpos : 0 < c) (hc : c < 2 ^ 64) :
    Good (w.construct n c) :=
  hw.put ⟨0, Exact.make hpos hc⟩ (hw.balanced.begin hn fun _ => rfl)

theorem destruct (hw : Good w) {n : Option Name} (hn : w.buffer n = some b) (hroom : Room b) :
    ∃ w', w.destruct n = some w' ∧ Good w' ∧ w'.buffer = Function.update w.buffer n none := by
  obtain ⟨h, hb⟩ := hw.exact n b hn
  rw [Room, hb.head] at hroom
  obtain ⟨y, hy, hdoes, hsize⟩ := Exact.clear (x := ⟨b, w.log⟩) hb (by exact_mod_cast hroom)
  obtain ⟨huse, hgood⟩ := hw.use hn hy hdoes
  have hput : (w.put n y).buffer n = some y.buf := Function.update_self _ _ _
  have hnone : ∀ i, y.buf.elements i = none := by
    intro i
    obtain ⟨h', hx⟩ := hdoes.exact
    rw [← Option.not_isSome_iff_eq_none, hx.slots, hsize]
    rintro ⟨j, hj, -⟩
    exact Nat.not_lt_zero j hj
  have hbuffer : Function.update (w.put n y).buffer n none = Function.update w.buffer n none :=
    Function.update_idem _ _ _
  refine ⟨{ w.put n y with buffer := Function.update (w.put n y).buffer n none }, ?_,
    ⟨hgood.balanced.erase hput hnone, fun p b' hp => ?_⟩, hbuffer⟩
  · simp [World.destruct, huse]
  · by_cases hpn : p = n
    · subst hpn
      simp at hp
    · simp only [Function.update_of_ne hpn] at hp
      exact hgood.exact p b' hp

variable [Inhabited T] {overwrite : Bool}

theorem copyConstruct (hw : Good w) {m n : Option Name} (hm : w.buffer m = none) (hn : w.buffer n = some b)
    (hfull : b.full) : ∃ y, w.copyConstruct m n = some (w.put m y) ∧ Good (w.put m y) := by
  obtain ⟨h, hb⟩ := hw.exact n b hn
  obtain ⟨y, hy, htouches, hx⟩ := hb.copy (of_decide_eq_true hfull) w.log
  have hbegin := hw.balanced.begin hm (b := { b with elements := fun _ => none }) fun _ => rfl
  refine ⟨y, ?_, hw.put hx (hbegin.touches htouches)⟩
  simp [World.copyConstruct, hn, hy]

theorem copyAssign (hw : Good w) {m n : Option Name} (htmp : w.buffer none = none) {b' : RingBuffer (Object T)}
    (hm : w.buffer m = some b') (hroom : Room b') (hn : w.buffer n = some b) (hfull : b.full) :
    ∃ w', w.copyAssign m n = some w' ∧ Good w' ∧ w'.buffer none = none := by
  obtain ⟨y, hcopy, hgood⟩ := hw.copyConstruct htmp hn hfull
  have hne : m ≠ none := by
    rintro rfl
    rw [htmp] at hm
    cases hm
  have hold : ((w.put none y).swap none m).buffer none = some b' := by
    simp only [World.swap, Equiv.swap_apply_left, World.put, Function.update_of_ne hne, hm]
  obtain ⟨w', hdestruct, hgood', hbuffer⟩ := (hgood.swap none m).destruct hold hroom
  refine ⟨w', ?_, hgood', by rw [hbuffer, Function.update_self]⟩
  simp [World.copyAssign, hcopy, hdestruct]

theorem step (hw : Good w) (htmp : w.buffer none = none) {op : Op T Name} (he : op.Enabled w)
    (hc : op.Careful overwrite w) : ∃ w', op.step overwrite w = some w' ∧ Good w' ∧ w'.buffer none = none := by
  have hput : ∀ (n : Name) (y : Live T), (w.put (some n) y).buffer none = none := by
    intro n y
    simp [World.put, Function.update_of_ne, htmp]
  cases op with
  | construct n c => exact ⟨_, rfl, hw.construct he.1 he.2.1 he.2.2, hput n _⟩
  | emplaceBack n v =>
    obtain ⟨b, hb⟩ := he
    obtain ⟨h, hx⟩ := hw.exact _ b hb
    obtain ⟨hhead, htail⟩ := hc b hb
    rw [hx.head] at hhead
    obtain ⟨y, hy, hdoes⟩ := Exact.emplaceBack (x := ⟨b, w.log⟩) hx
      (fun hf ho => by exact_mod_cast hhead hf ho) htail v
    obtain ⟨huse, hgood⟩ := hw.use (f := (Live.emplaceBack overwrite · v)) hb hy hdoes
    exact ⟨_, huse, hgood, hput n y⟩
  | popFront n =>
    obtain ⟨b, hb⟩ := he
    obtain ⟨h, hx⟩ := hw.exact _ b hb
    by_cases hs : b.size = 0
    · have hpop : Live.popFront ⟨b, w.log⟩ = some ⟨b, w.log⟩ := by simp [Live.popFront, empty, hs]
      obtain ⟨huse, hgood⟩ := hw.use hb hpop (.refl hx)
      exact ⟨_, huse, hgood, hput n _⟩
    · have hhead := hc b hb (Nat.pos_of_ne_zero hs)
      rw [hx.head] at hhead
      obtain ⟨id, hpop, hdoes⟩ := Exact.popFront (x := ⟨b, w.log⟩) hx (Nat.pos_of_ne_zero hs)
        (by exact_mod_cast hhead)
      obtain ⟨huse, hgood⟩ := hw.use hb hpop hdoes
      exact ⟨_, huse, hgood, hput n _⟩
  | clear n =>
    obtain ⟨b, hb⟩ := he
    obtain ⟨h, hx⟩ := hw.exact _ b hb
    have hroom := hc b hb
    rw [Room, hx.head] at hroom
    obtain ⟨y, hy, hdoes, -⟩ := Exact.clear (x := ⟨b, w.log⟩) hx (by exact_mod_cast hroom)
    obtain ⟨huse, hgood⟩ := hw.use hb hy hdoes
    exact ⟨_, huse, hgood, hput n y⟩
  | copyConstruct m n =>
    obtain ⟨hm, b, hb⟩ := he
    obtain ⟨y, hcopy, hgood⟩ := hw.copyConstruct hm hb (hc b hb)
    exact ⟨_, hcopy, hgood, hput m y⟩
  | copyAssign m n =>
    obtain ⟨⟨b', hb'⟩, b, hb⟩ := he
    exact hw.copyAssign htmp hb' (hc.1 b' hb') hb (hc.2 b hb)
  | swap m n =>
    refine ⟨_, rfl, hw.swap (some m) (some n), ?_⟩
    change w.buffer (Equiv.swap (some m) (some n) none) = none
    rw [Equiv.swap_apply_of_ne_of_ne (Option.some_ne_none m).symm (Option.some_ne_none n).symm, htmp]
  | destruct n =>
    obtain ⟨b, hb⟩ := he
    obtain ⟨w', hd, hgood, hbuffer⟩ := hw.destruct hb (hc b hb)
    refine ⟨w', hd, hgood, ?_⟩
    rw [hbuffer, Function.update_of_ne (Option.some_ne_none n).symm, htmp]

end Good

section Runs

variable [DecidableEq Name] [Inhabited T] {overwrite : Bool}

end Runs

end Objects

end Wizard.RingBuffer
