import Mathlib.Data.Option.Basic
import Mathlib.Logic.Equiv.Basic
import Wizard.Any

/-! What an `Any` is for: a variable that holds a value of its own, refers to one, or is empty.
The operations of `any.h` do on such variables what they should, as long as no primitive is
given by `ref` to an `Any` with a holder. -/

namespace Wizard.Any

/-- What a variable holds. An instance has a name of its own, by which others may refer to it. -/
inductive Value (T V : Type*)
  | empty
  | instance_ (t : TypeId T) (o : Nat) (v : V)
  | primitive (p : Primitive) (v : BitVec 64)
  | ref (t : TypeId T) (o : Nat)

namespace Value

variable {T V : Type*}

/-- The copy, which has the name `o` if it is an instance. -/
def copy (o : Nat) : Value T V → Value T V
  | .instance_ t _ v => .instance_ t o v
  | x => x

/-- What a value that has been moved away leaves: a reference to the moved instance. -/
def lend : Value T V → Value T V
  | .instance_ t o _ => .ref t o
  | x => x

/-- The object `o` is written. -/
def write (o : Nat) (v : V) : Value T V → Value T V
  | .instance_ t o' w => .instance_ t o' (if o' = o then v else w)
  | x => x

def writePrimitive (v : BitVec 64) : Value T V → Value T V
  | .primitive p _ => .primitive p (low p.width v)
  | x => x

/-- The object that it is or refers to. -/
def object? : Value T V → Option Nat
  | .instance_ _ o _ | .ref _ o => some o
  | _ => none

/-- How many names of instances it takes. -/
def names : Value T V → Nat
  | .instance_ _ _ _ => 1
  | _ => 0

end Value

section

variable {T V : Type*}

/-- What an operation does on variables, if `o` is the next name. -/
def Op.apply (x : Nat → Option (Value T V)) (o : Nat) : Op T V → Nat → Option (Value T V)
  | .make a | .clear a => Function.update x a (some .empty)
  | .makeValue a t v | .assignValue a t v _ => Function.update x a (some (.instance_ t o v))
  | .makePrimitive a p v | .assignPrimitive a p v _ | .refPrimitive a p v =>
    Function.update x a (some (.primitive p (low p.width v)))
  | .copy a other | .assign a other _ => Function.update x a ((x other).map (Value.copy o))
  | .move a other | .assignMove a other _ =>
    Function.update (Function.update x other ((x other).map Value.lend)) a (x other)
  | .destroy a => Function.update x a none
  | .swap a rhs => Function.update (Function.update x a (x rhs)) rhs (x a)
  | .ref a t o => Function.update x a (some (.ref t o))
  | .write a v => fun b => (x b).map fun y => ((x a).bind Value.object?).elim y fun o => y.write o v
  | .writePrimitive a v => Function.update x a ((x a).map (Value.writePrimitive v))
  | .newObject _ _ | .writeObject _ _ | .deleteObject _ => x

/-- How many objects the operation makes. -/
def Op.names (x : Nat → Option (Value T V)) : Op T V → Nat
  | .makeValue _ _ _ | .assignValue _ _ _ _ | .newObject _ _ => 1
  | .copy _ other | .assign _ other _ => (x other).elim 0 Value.names
  | _ => 0

/-- Variables, with the name that the next object gets. -/
structure Vars (T V : Type*) where
  value : Nat → Option (Value T V)
  fresh : Nat

def Vars.start : Vars T V := ⟨fun _ => none, 0⟩

def Vars.apply (x : Vars T V) (op : Op T V) : Vars T V := ⟨op.apply x.value x.fresh, x.fresh + op.names x.value⟩

/-- How the fields of the `Any` at `a` represent a value. -/
inductive Holds (s : State T V) (a : Nat) : Fields T → Value T V → Prop
  | empty (p v c) : Holds s a ⟨true, none, .nullptr, none, p, v, c⟩ .empty
  | instance_ (t x o v) (h : s.object o = some (t, x)) (ho : s.outside o = false) :
      Holds s a ⟨false, none, t, some o, .object o, v, false⟩ (.instance_ t o x)
  | primitive (p v) : Holds s a ⟨false, some p, .primitive p, none, .primitiveValue a, v, false⟩
      (.primitive p (low p.width v))
  | ref (t o v) (hlt : o < s.fresh) (ht : ∀ x, s.object o = some x → x.1 = t) :
      Holds s a ⟨false, none, t, none, .object o, v, false⟩ (.ref t o)

/-- The `Any`s hold the values `x`, and each holder belongs to one of them. -/
structure Inv (s : State T V) (x : Nat → Option (Value T V)) : Prop where
  holds : ∀ a, Option.Rel (Holds s a) (s.any a) (x a)
  unique : ∀ a b f g o, s.any a = some f → s.any b = some g → f.holder = some o → g.holder = some o → a = b
  held : ∀ o x, s.object o = some x → s.outside o = false → ∃ a f, s.any a = some f ∧ f.holder = some o
  fresh : ∀ o x, s.object o = some x → o < s.fresh

variable {s s' : State T V} {x : Nat → Option (Value T V)} {a b : Nat} {f : Fields T} {y : Value T V}

/-- The holder of the `Any` at `a`. -/
def State.holder? (s : State T V) (a : Nat) : Option Nat := (s.any a).bind Fields.holder

theorem holder?_eq_some {o : Nat} : s.holder? a = some o ↔ ∃ f, s.any a = some f ∧ f.holder = some o :=
  Option.bind_eq_some_iff

namespace Inv

variable (h : Inv s x)
include h

theorem exists_holds (ha : s.any a = some f) : ∃ y, x a = some y ∧ Holds s a f y := by
  have hr := h.holds a
  rw [ha] at hr
  cases hx : x a with
  | none =>
    rw [hx] at hr
    cases hr
  | some y =>
    rw [hx] at hr
    cases hr with
    | some hy => exact ⟨y, rfl, hy⟩

theorem eq_none (ha : s.any a = none) : x a = none := by
  have hr := h.holds a
  rw [ha] at hr
  cases hx : x a with
  | none => rfl
  | some y =>
    rw [hx] at hr
    cases hr

theorem holder_unique {o : Nat} (ha : s.holder? a = some o) (hb : s.holder? b = some o) : a = b := by
  obtain ⟨f, hf, hfo⟩ := holder?_eq_some.1 ha
  obtain ⟨g, hg, hgo⟩ := holder?_eq_some.1 hb
  exact h.unique a b f g o hf hg hfo hgo

end Inv

theorem Holds.object (hy : Holds s a f y) {o : Nat} (ho : f.holder = some o) :
    s.outside o = false ∧ ∃ z, s.object o = some z := by
  cases hy with
  | instance_ t x o' v hx hout =>
    cases ho
    exact ⟨hout, _, hx⟩
  | _ => cases ho

/-- An `Any` holds what it held, as long as its holder is left alone. -/
theorem Holds.congr (hy : Holds s a f y)
    (ho : ∀ o, f.holder = some o → s'.object o = s.object o ∧ s'.outside o = s.outside o)
    (ht : ∀ o z, o < s.fresh → s'.object o = some z → ∃ z', s.object o = some z' ∧ z'.1 = z.1)
    (hf : s.fresh ≤ s'.fresh) : Holds s' a f y := by
  cases hy with
  | empty p v c => exact .empty p v c
  | instance_ t z o v hz hout =>
    obtain ⟨h₁, h₂⟩ := ho o rfl
    exact .instance_ t z o v (h₁.trans hz) (h₂.trans hout)
  | primitive p v => exact .primitive p v
  | ref t o v hlt hz =>
    refine .ref t o v (Nat.lt_of_lt_of_le hlt hf) fun z hz' => ?_
    obtain ⟨z', hz'', he⟩ := ht o z hlt hz'
    rw [← he]
    exact hz z' hz''

section Objects

theorem alloc_object {z : TypeId T × V} {out : Bool} {o : Nat} (ho : o < s.fresh) :
    (s.alloc z out).object o = s.object o ∧ (s.alloc z out).outside o = s.outside o :=
  ⟨Function.update_of_ne ho.ne _ _, Function.update_of_ne ho.ne _ _⟩

theorem alloc_cases {z w : TypeId T × V} {out : Bool} {o : Nat} (hw : (s.alloc z out).object o = some w) :
    o = s.fresh ∨ s.object o = some w ∧ (s.alloc z out).outside o = s.outside o := by
  by_cases ho : o = s.fresh
  · exact .inl ho
  · exact .inr ⟨(Function.update_of_ne ho _ _).symm.trans hw, Function.update_of_ne ho _ _⟩

theorem free_cases {p : Option Nat} {o : Nat} {w : TypeId T × V} (hw : (s.free p).object o = some w) :
    p ≠ some o ∧ s.object o = some w := by
  cases p with
  | none => exact ⟨by simp, hw⟩
  | some q =>
    have hne : o ≠ q := by
      rintro rfl
      have hself : Function.update s.object o none o = none := Function.update_self ..
      cases hself.symm.trans hw
    refine ⟨by simpa using hne.symm, ?_⟩
    exact (Function.update_of_ne hne _ _).symm.trans hw

theorem free_object {p : Option Nat} {o : Nat} (ho : p ≠ some o) : (s.free p).object o = s.object o := by
  cases p with
  | none => rfl
  | some q =>
    refine Function.update_of_ne ?_ _ _
    rintro rfl
    exact ho rfl

@[simp] theorem free_any (s : State T V) (p : Option Nat) : (s.free p).any = s.any := by cases p <;> rfl

@[simp] theorem free_outside (s : State T V) (p : Option Nat) : (s.free p).outside = s.outside := by cases p <;> rfl

@[simp] theorem free_fresh (s : State T V) (p : Option Nat) : (s.free p).fresh = s.fresh := by cases p <;> rfl

theorem construct_eq_some : s.construct a f = some s' ↔ s.any a = none ∧ s.set a (some f) = s' := by
  rw [State.construct]
  cases s.any a <;> simp

theorem holder?_of_none (ha : s.any a = none) : s.holder? a = none := by
  rw [State.holder?, ha]
  rfl

theorem low_setLow (w : Nat) (old v : BitVec 64) : low w (setLow w old v) = low w v := by
  ext i
  simp only [low, setLow, BitVec.getElem_and, BitVec.getElem_or, BitVec.getElem_not]
  cases (BitVec.ofNat 64 (2 ^ w - 1))[i] <;> simp

/-- An object gets another value of its type. -/
theorem write_eq_some {o : Nat} {v : V} (hs : s.write o v = some s') :
    ∃ t w, s.object o = some (t, w) ∧ s' = { s with object := Function.update s.object o (some (t, v)) } := by
  obtain ⟨⟨t, w⟩, hw, rfl⟩ := Option.map_eq_some_iff.1 hs
  exact ⟨t, w, hw, rfl⟩

theorem Holds.written {o : Nat} {t : TypeId T} {v w : V} (hy : Holds s b f y) (hw : s.object o = some (t, w))
    (hne : f.holder ≠ some o) : Holds { s with object := Function.update s.object o (some (t, v)) } b f y := by
  refine hy.congr (fun q hq => ⟨Function.update_of_ne ?_ _ _, rfl⟩) (fun q z _ hz => ?_) (Nat.le_refl _)
  · rintro rfl
    exact hne hq
  · by_cases hqo : q = o
    · subst hqo
      have hself : Function.update s.object q (some (t, v)) q = some (t, v) := Function.update_self ..
      cases hself.symm.trans hz
      exact ⟨(t, w), hw, rfl⟩
    · exact ⟨z, (Function.update_of_ne hqo _ _).symm.trans hz, rfl⟩

theorem written_object {o q : Nat} {t : TypeId T} {v w : V} {z : TypeId T × V} (hw : s.object o = some (t, w))
    (hz : Function.update s.object o (some (t, v)) q = some z) : ∃ z', s.object q = some z' := by
  by_cases hqo : q = o
  · exact ⟨_, hqo ▸ hw⟩
  · exact ⟨z, (Function.update_of_ne hqo _ _).symm.trans hz⟩

end Objects

theorem Holds.setPointer (hy : Holds s b f y) (a : Nat) : Holds s a (f.setPointer a) y := by
  cases hy with
  | empty p v c => exact .empty p v c
  | primitive p v => exact .primitive p v
  | ref t o v hlt ht => exact .ref t o v hlt ht
  | instance_ t z o v ho hout => exact .instance_ t z o v ho hout

@[simp] theorem holder?_update {f' : Option (Fields T)} (hany : s'.any = Function.update s.any a f') (b : Nat) :
    s'.holder? b = if b = a then f'.bind Fields.holder else s.holder? b := by
  rw [State.holder?, hany, Function.update_apply]
  split <;> rfl

namespace Inv

variable (h : Inv s x)
include h

/-- The `Any` at `a` changes, and of the objects at most its holder. -/
theorem update {f' : Option (Fields T)} {y' : Option (Value T V)} (hany : s'.any = Function.update s.any a f')
    (hnew : Option.Rel (Holds s' a) f' y')
    (hkeep : ∀ b f y, b ≠ a → s.any b = some f → Holds s b f y → Holds s' b f y)
    (huniq : ∀ o, f'.bind Fields.holder = some o → ∀ b, b ≠ a → s.holder? b ≠ some o)
    (hheld : ∀ o z, s'.object o = some z → s'.outside o = false →
      f'.bind Fields.holder = some o ∨ ∃ b, b ≠ a ∧ s.holder? b = some o)
    (hfresh : ∀ o z, s'.object o = some z → o < s'.fresh) : Inv s' (Function.update x a y') := by
  have hh := holder?_update hany
  refine ⟨fun b => ?_, fun b c f g o hf hg hfo hgo => ?_, fun o z hz hout => ?_, hfresh⟩
  · rw [hany]
    by_cases hb : b = a
    · rw [hb, Function.update_self, Function.update_self]
      exact hnew
    · rw [Function.update_of_ne hb, Function.update_of_ne hb]
      have hr := h.holds b
      cases hf : s.any b with
      | none =>
        rw [h.eq_none hf]
        exact .none
      | some f =>
        obtain ⟨y, hy, hho⟩ := h.exists_holds hf
        rw [hy]
        exact .some (hkeep b f y hb hf hho)
  · have hb : s'.holder? b = some o := holder?_eq_some.2 ⟨f, hf, hfo⟩
    have hc : s'.holder? c = some o := holder?_eq_some.2 ⟨g, hg, hgo⟩
    rw [hh] at hb hc
    by_cases hba : b = a
    · by_cases hca : c = a
      · rw [hba, hca]
      · rw [if_pos hba] at hb
        rw [if_neg hca] at hc
        exact absurd hc (huniq o hb c hca)
    · rw [if_neg hba] at hb
      by_cases hca : c = a
      · rw [if_pos hca] at hc
        exact absurd hb (huniq o hc b hba)
      · rw [if_neg hca] at hc
        exact h.holder_unique hb hc
  · have hex : ∃ b, s'.holder? b = some o := by
      rcases hheld o z hz hout with ho | ⟨b, hb, ho⟩
      · exact ⟨a, by rw [hh, if_pos rfl, ho]⟩
      · exact ⟨b, by rw [hh, if_neg hb, ho]⟩
    obtain ⟨b, hb⟩ := hex
    exact ⟨b, holder?_eq_some.1 hb⟩

/-- Two `Any`s exchange their holders. -/
theorem exchange {fa fb : Option (Fields T)} {ya yb : Option (Value T V)}
    (hany : s'.any = Function.update (Function.update s.any a fa) b fb) (hobj : s'.object = s.object)
    (hout : s'.outside = s.outside) (hfr : s'.fresh = s.fresh) (hab : a ≠ b → Option.Rel (Holds s a) fa ya)
    (hb : Option.Rel (Holds s b) fb yb) (hha : a ≠ b → fa.bind Fields.holder = s.holder? b)
    (hhb : fb.bind Fields.holder = s.holder? a) : Inv s' (Function.update (Function.update x a ya) b yb) := by
  have hcongr : ∀ c f y, Holds s c f y → Holds s' c f y := by
    intro c f y hy
    refine hy.congr (fun o _ => ?_) (fun o z _ hz => ⟨z, ?_, rfl⟩) hfr.ge
    · rw [hobj, hout]
      exact ⟨rfl, rfl⟩
    · rwa [← hobj]
  have hrel : ∀ c f y, Option.Rel (Holds s c) f y → Option.Rel (Holds s' c) f y := by
    rintro c _ _ (hy | _)
    · exact .some (hcongr c _ _ hy)
    · exact .none
  have hh : ∀ c, s'.holder? c = s.holder? (Equiv.swap a b c) := by
    intro c
    rw [State.holder?, hany]
    by_cases hcb : c = b
    · rw [hcb, Function.update_self, Equiv.swap_apply_right, hhb]
    · rw [Function.update_of_ne hcb]
      by_cases hca : c = a
      · subst hca
        rw [Function.update_self, Equiv.swap_apply_left, hha hcb]
      · rw [Function.update_of_ne hca, Equiv.swap_apply_of_ne_of_ne hca hcb]
        rfl
  refine ⟨fun c => ?_, fun c d f g o hf hg hfo hgo => ?_, fun o z hz ho => ?_, fun o z hz => ?_⟩
  · rw [hany]
    by_cases hcb : c = b
    · rw [hcb, Function.update_self, Function.update_self]
      exact hrel b _ _ hb
    · rw [Function.update_of_ne hcb, Function.update_of_ne hcb]
      by_cases hca : c = a
      · subst hca
        rw [Function.update_self, Function.update_self]
        exact hrel c _ _ (hab hcb)
      · rw [Function.update_of_ne hca, Function.update_of_ne hca]
        exact hrel c _ _ (h.holds c)
  · have hc : s'.holder? c = some o := holder?_eq_some.2 ⟨f, hf, hfo⟩
    have hd : s'.holder? d = some o := holder?_eq_some.2 ⟨g, hg, hgo⟩
    rw [hh] at hc hd
    exact (Equiv.swap a b).injective (h.holder_unique hc hd)
  · rw [hobj] at hz
    rw [hout] at ho
    obtain ⟨c, f, hf, hfo⟩ := h.held o z hz ho
    have hc : s'.holder? (Equiv.swap a b c) = some o := by
      rw [hh, Equiv.swap_apply_self]
      exact holder?_eq_some.2 ⟨f, hf, hfo⟩
    exact ⟨_, holder?_eq_some.1 hc⟩
  · rw [hobj] at hz
    rw [hfr]
    exact h.fresh o z hz

/-- Only objects of others change. -/
theorem objects (hany : s'.any = s.any) (hkeep : ∀ b f y, s.any b = some f → Holds s b f y → Holds s' b f y)
    (hheld : ∀ o z, s'.object o = some z → s'.outside o = false → ∃ z', s.object o = some z' ∧ s.outside o = false)
    (hfresh : ∀ o z, s'.object o = some z → o < s'.fresh) : Inv s' x := by
  refine ⟨fun b => ?_, fun b c f g o hf hg hfo hgo => ?_, fun o z hz hout => ?_, hfresh⟩
  · have hr := h.holds b
    rw [hany]
    cases hf : s.any b with
    | none =>
      rw [h.eq_none hf]
      exact .none
    | some f =>
      obtain ⟨y, hy, hho⟩ := h.exists_holds hf
      rw [hy]
      exact .some (hkeep b f y hf hho)
  · rw [hany] at hf hg
    exact h.unique b c f g o hf hg hfo hgo
  · obtain ⟨z', hz', ho⟩ := hheld o z hz hout
    rw [hany]
    exact h.held o z' hz' ho

/-- The `Any` at `a` has no holder before and none after. -/
theorem put (hno : s.holder? a = none) (hf : f.holder = none) (hy : Holds s a f y) :
    Inv (s.set a (some f)) (Function.update x a (some y)) := by
  refine h.update rfl (.some (hy.congr (fun _ _ => ⟨rfl, rfl⟩) (fun o z _ hz => ⟨z, hz, rfl⟩) (Nat.le_refl _)))
    (fun b g y _ _ hg => hg.congr (fun _ _ => ⟨rfl, rfl⟩) (fun o z _ hz => ⟨z, hz, rfl⟩) (Nat.le_refl _))
    (fun o ho => ?_) (fun o z hz hout => ?_) h.fresh
  · rw [Option.bind_some, hf] at ho
    cases ho
  · obtain ⟨b, g, hg, hgo⟩ := h.held o z hz hout
    have hb := holder?_eq_some.2 ⟨g, hg, hgo⟩
    refine .inr ⟨b, ?_, hb⟩
    rintro rfl
    cases hno.symm.trans hb

theorem alloc_holds {z : TypeId T × V} {out : Bool} (hy : Holds s b f y) : Holds (s.alloc z out) b f y := by
  refine hy.congr (fun o ho => ?_) (fun o w ho hw => ?_) (Nat.le_succ _)
  · obtain ⟨-, w, hw⟩ := hy.object ho
    exact alloc_object (h.fresh o w hw)
  · rw [(alloc_object ho).1] at hw
    exact ⟨w, hw, rfl⟩

theorem alloc_fresh (z : TypeId T × V) (out : Bool) (o : Nat) (w : TypeId T × V)
    (hw : (s.alloc z out).object o = some w) :
    o < (s.alloc z out).fresh := by
  rcases alloc_cases hw with rfl | ⟨hw, -⟩
  · exact Nat.lt_succ_self _
  · exact (h.fresh o w hw).trans (Nat.lt_succ_self _)

/-- The new `Any` at `a` has a new holder. -/
theorem allocPut {z : TypeId T × V} (ha : s.any a = none) (hf : f.holder = some s.fresh)
    (hy : Holds ((s.alloc z false).set a (some f)) a f y) :
    Inv ((s.alloc z false).set a (some f)) (Function.update x a (some y)) := by
  refine h.update rfl (.some hy) ?_ (fun o ho b hb hbo => ?_) (fun o w hw hout => ?_)
    (h.alloc_fresh z false)
  · intro b g y _ _ hg
    exact (h.alloc_holds hg).congr (fun _ _ => ⟨rfl, rfl⟩) (fun o w _ hw => ⟨w, hw, rfl⟩) (Nat.le_refl _)
  · rw [Option.bind_some, hf] at ho
    cases ho
    obtain ⟨g, hg, hgo⟩ := holder?_eq_some.1 hbo
    obtain ⟨y, -, hgy⟩ := h.exists_holds hg
    obtain ⟨-, w, hw⟩ := hgy.object hgo
    exact (h.fresh _ w hw).false
  · rcases alloc_cases hw with rfl | ⟨hw, hsame⟩
    · exact .inl hf
    · obtain ⟨b, g, hg, hgo⟩ := h.held o w hw (hsame.symm.trans hout)
      refine .inr ⟨b, ?_, holder?_eq_some.2 ⟨g, hg, hgo⟩⟩
      rintro rfl
      cases ha.symm.trans hg

/-- The `Any` at `a` gives up its holder. -/
theorem release {f' : Option (Fields T)} {y' : Option (Value T V)} (hf : f'.bind Fields.holder = none)
    (hy : Option.Rel (Holds ((s.set a f').free (s.holder? a)) a) f' y') :
    Inv ((s.set a f').free (s.holder? a)) (Function.update x a y') := by
  refine h.update (free_any _ _) hy (fun b g y hb hg hgy => ?_) (fun o ho => ?_) (fun o z hz hout => ?_) ?_
  · refine hgy.congr (fun o ho => ⟨?_, ?_⟩) (fun o z _ hz => ⟨z, (free_cases hz).2, rfl⟩)
      (free_fresh (s.set a f') (s.holder? a)).ge
    · refine free_object fun ha => hb ?_
      exact h.holder_unique (holder?_eq_some.2 ⟨g, hg, ho⟩) ha
    · rw [free_outside]
      rfl
  · rw [hf] at ho
    cases ho
  · obtain ⟨hne, hz⟩ := free_cases hz
    rw [free_outside] at hout
    obtain ⟨b, g, hg, hgo⟩ := h.held o z hz hout
    have hb := holder?_eq_some.2 ⟨g, hg, hgo⟩
    refine .inr ⟨b, ?_, hb⟩
    rintro rfl
    exact hne hb
  · intro o z hz
    rw [free_fresh]
    exact h.fresh o z (free_cases hz).2

theorem makeValue {t : TypeId T} {v : V} (hs : s.makeValue a t v = some s') :
    x a = none ∧ s'.fresh = s.fresh + 1 ∧ Inv s' (Function.update x a (some (.instance_ t s.fresh v))) := by
  obtain ⟨ha, rfl⟩ := construct_eq_some.1 hs
  refine ⟨h.eq_none ha, rfl, h.allocPut ha rfl ?_⟩
  exact .instance_ t v s.fresh 0 (Function.update_self ..) (Function.update_self ..)

theorem makePrimitive {p : Primitive} {v : BitVec 64} (hs : s.makePrimitive a p v = some s') :
    x a = none ∧ s'.fresh = s.fresh ∧ Inv s' (Function.update x a (some (.primitive p (low p.width v)))) := by
  obtain ⟨ha, rfl⟩ := construct_eq_some.1 hs
  refine ⟨h.eq_none ha, rfl, h.put (holder?_of_none ha) rfl ?_⟩
  rw [← low_setLow p.width 0 v]
  exact .primitive p _

theorem copy {other : Nat} (hs : s.copy a other = some s') :
    x a = none ∧ s'.fresh = s.fresh + (x other).elim 0 Value.names ∧
      Inv s' (Function.update x a ((x other).map (Value.copy s.fresh))) := by
  obtain ⟨f, hf, hs⟩ := Option.bind_eq_some_iff.1 hs
  obtain ⟨y, hy, hho⟩ := h.exists_holds hf
  rw [hy]
  cases hho with
  | empty p v c =>
    obtain ⟨ha, rfl⟩ := construct_eq_some.1 hs
    exact ⟨h.eq_none ha, rfl, h.put (holder?_of_none ha) rfl (.empty p v c)⟩
  | primitive p v =>
    obtain ⟨ha, rfl⟩ := construct_eq_some.1 hs
    exact ⟨h.eq_none ha, rfl, h.put (holder?_of_none ha) rfl (.primitive p v)⟩
  | ref t o v hlt ht =>
    obtain ⟨ha, rfl⟩ := construct_eq_some.1 hs
    exact ⟨h.eq_none ha, rfl, h.put (holder?_of_none ha) rfl (.ref t o v hlt ht)⟩
  | instance_ t z o v ho hout =>
    obtain ⟨w, hw, hs⟩ := Option.bind_eq_some_iff.1 hs
    cases ho.symm.trans hw
    obtain ⟨ha, rfl⟩ := construct_eq_some.1 hs
    refine ⟨h.eq_none ha, rfl, h.allocPut ha rfl ?_⟩
    exact .instance_ t z s.fresh v (Function.update_self ..) (Function.update_self ..)

theorem move {other : Nat} (hs : s.move a other = some s') :
    x a = none ∧ a ≠ other ∧ s'.fresh = s.fresh ∧
      Inv s' (Function.update (Function.update x other ((x other).map Value.lend)) a (x other)) := by
  obtain ⟨f, hf, hs⟩ := Option.bind_eq_some_iff.1 hs
  obtain ⟨s₁, hc, rfl⟩ := Option.map_eq_some_iff.1 hs
  obtain ⟨ha, rfl⟩ := construct_eq_some.1 hc
  obtain ⟨y, hy, hho⟩ := h.exists_holds hf
  have hne : a ≠ other := by
    rintro rfl
    cases ha.symm.trans hf
  have key : Holds s a (f.move a) y → Holds s other f.movedFrom y.lend →
      Inv ((s.set a (some (f.move a))).set other (some f.movedFrom))
        (Function.update (Function.update x other ((x other).map Value.lend)) a (x other)) := by
    intro h₁ h₂
    rw [hy, Function.update_comm hne.symm]
    refine h.exchange rfl rfl rfl rfl (fun _ => .some h₁) (.some h₂) (fun _ => ?_) (holder?_of_none ha).symm
    rw [State.holder?, hf]
    rfl
  refine ⟨h.eq_none ha, hne, rfl, ?_⟩
  cases hho with
  | empty p v c => exact key (.empty p v c) (.empty p v c)
  | primitive p v => exact key (.primitive p v) (.primitive p v)
  | ref t o v hlt ht => exact key (.ref t o v hlt ht) (.ref t o v hlt ht)
  | instance_ t z o v ho hout =>
    refine key (.instance_ t z o v ho hout) (.ref t o v (h.fresh o _ ho) fun w hw => ?_)
    cases ho.symm.trans hw
    rfl

theorem destroy (hs : s.destroy a = some s') : s'.fresh = s.fresh ∧ Inv s' (Function.update x a none) := by
  obtain ⟨f, hf, rfl⟩ := Option.map_eq_some_iff.1 hs
  have hh : s.holder? a = f.holder := by
    rw [State.holder?, hf]
    rfl
  rw [← hh]
  exact ⟨free_fresh _ _, h.release rfl .none⟩

theorem swap {rhs : Nat} (hs : s.swap a rhs = some s') :
    s'.fresh = s.fresh ∧ Inv s' (Function.update (Function.update x a (x rhs)) rhs (x a)) := by
  obtain ⟨f, hf, hs⟩ := Option.bind_eq_some_iff.1 hs
  obtain ⟨g, hg, rfl⟩ := Option.map_eq_some_iff.1 hs
  obtain ⟨y, hy, hfy⟩ := h.exists_holds hf
  obtain ⟨z, hz, hgz⟩ := h.exists_holds hg
  have hset : ∀ (f : Fields T) b, (f.setPointer b).holder = f.holder := by
    intro f b
    unfold Fields.setPointer
    split <;> rfl
  rw [hy, hz]
  refine ⟨rfl, h.exchange rfl rfl rfl rfl (fun _ => .some (hgz.setPointer a)) (.some (hfy.setPointer rhs))
    (fun _ => ?_) ?_⟩
  · rw [State.holder?, hg]
    exact hset g a
  · rw [State.holder?, hf]
    exact hset f rhs

/-- The `tmp` of an assignment goes away with what `a` held. -/
theorem assign {tmp : Nat} {made : Option (State T V)} (hs : s.assign a tmp made = some s') :
    ∃ s₁, made = some s₁ ∧ s'.fresh = s₁.fresh ∧ ∀ x' y, x tmp = none → x' tmp = none →
      Inv s₁ (Function.update x' tmp y) → Inv s' (Function.update x' a y) := by
  unfold State.assign at hs
  split at hs
  · next ha =>
    obtain ⟨s₁, h₁, hs⟩ := Option.bind_eq_some_iff.1 hs
    obtain ⟨s₂, h₂, hs⟩ := Option.bind_eq_some_iff.1 hs
    have hfresh : s'.fresh = s₁.fresh := by
      obtain ⟨f, -, h₂⟩ := Option.bind_eq_some_iff.1 h₂
      obtain ⟨g, -, rfl⟩ := Option.map_eq_some_iff.1 h₂
      obtain ⟨f', -, rfl⟩ := Option.map_eq_some_iff.1 hs
      exact free_fresh _ _
    refine ⟨s₁, h₁, hfresh, fun x' y hx hx' hi => ?_⟩
    obtain ⟨f, hf⟩ := Option.isSome_iff_exists.1 ha
    obtain ⟨z, hz, -⟩ := h.exists_holds hf
    have hne : a ≠ tmp := by
      rintro rfl
      cases hx.symm.trans hz
    have hfin := ((hi.swap h₂).2.destroy hs).2
    rw [Function.update_self, Function.update_idem] at hfin
    convert hfin using 1
    funext b
    by_cases hb : b = tmp
    · rw [hb, Function.update_self, Function.update_of_ne hne.symm, hx']
    · rw [Function.update_of_ne hb]
      by_cases hba : b = a
      · rw [hba, Function.update_self, Function.update_self]
      · rw [Function.update_of_ne hba, Function.update_of_ne hba, Function.update_of_ne hb]
  · cases hs

/-- An object is written, and the `Any` that has it in its holder changes with it. -/
theorem write {o : Nat} {v : V} (hs : s.write o v = some s') :
    s'.fresh = s.fresh ∧ Inv s' fun b => (x b).map (Value.write o v) := by
  obtain ⟨t, w, hw, rfl⟩ := write_eq_some hs
  refine ⟨rfl, fun b => ?_, h.unique, fun q z hz hout => ?_, fun q z hz => ?_⟩
  · cases hf : s.any b with
    | none =>
      rw [h.eq_none hf]
      exact .none
    | some f =>
      obtain ⟨y, hy, hho⟩ := h.exists_holds hf
      rw [hy]
      refine .some ?_
      cases hho with
      | instance_ t' z o' u hz hout =>
        rw [Value.write]
        split
        · next he =>
          subst he
          cases hw.symm.trans hz
          exact .instance_ t v o' u (Function.update_self ..) hout
        · next hne => exact .instance_ t' z o' u ((Function.update_of_ne hne _ _).trans hz) hout
      | empty p u c => exact .empty p u c
      | primitive p u => exact .primitive p u
      | ref t' o' u hlt ht => exact (Holds.ref t' o' u hlt ht).written hw (by simp)
  · obtain ⟨z', hz'⟩ := written_object hw hz
    exact h.held q z' hz' hout
  · obtain ⟨z', hz'⟩ := written_object hw hz
    exact h.fresh q z' hz'

/-- No `Any` has an object of others in its holder. -/
theorem not_holder_of_outside {o : Nat} (hout : s.outside o = true) (hg : s.any b = some f) : f.holder ≠ some o := by
  intro ho
  obtain ⟨y, -, hy⟩ := h.exists_holds hg
  cases hout.symm.trans (hy.object ho).1

theorem writeObject {o : Nat} {v : V} (hout : s.outside o = true) (hs : s.write o v = some s') : Inv s' x := by
  obtain ⟨t, w, hw, rfl⟩ := write_eq_some hs
  refine h.objects rfl (fun b g y hg hgy => hgy.written hw (h.not_holder_of_outside hout hg)) (fun q z hz hq => ?_)
    fun q z hz => ?_
  · obtain ⟨z', hz'⟩ := written_object hw hz
    exact ⟨z', hz', hq⟩
  · obtain ⟨z', hz'⟩ := written_object hw hz
    exact h.fresh q z' hz'

theorem newObject {z : TypeId T × V} : Inv (s.alloc z true) x := by
  refine h.objects rfl (fun b g y _ hy => h.alloc_holds hy) (fun o w hw hout => ?_) (h.alloc_fresh z true)
  rcases alloc_cases hw with rfl | ⟨hw, hsame⟩
  · have hself : Function.update s.outside s.fresh true s.fresh = true := Function.update_self ..
    cases hself.symm.trans hout
  · exact ⟨w, hw, hsame.symm.trans hout⟩

theorem deleteObject {o : Nat} (hout : s.outside o = true) : Inv (s.free (some o)) x := by
  refine h.objects rfl (fun b g y hg hgy => hgy.congr (fun q hq => ⟨free_object ?_, rfl⟩)
    (fun q z _ hz => ⟨z, (free_cases hz).2, rfl⟩) (Nat.le_refl _)) (fun q z hz hq => ⟨z, (free_cases hz).2, hq⟩)
    fun q z hz => h.fresh q z (free_cases hz).2
  intro he
  cases he
  exact h.not_holder_of_outside hout hg hq

end Inv

variable [DecidableEq T]

/-- No primitive is given by `ref` to an `Any` with a holder. -/
def Careful (s : State T V) : Op T V → Prop
  | .refPrimitive a _ _ => s.holder? a = none
  | _ => True

theorem Inv.writeThrough {v : V} (h : Inv s x) (hs : s.step (.write a v) = some s') :
    s'.fresh = s.fresh ∧ Inv s' ((Op.write a v).apply x s.fresh) := by
  obtain ⟨f, hf, hs⟩ := Option.bind_eq_some_iff.1 hs
  obtain ⟨y, hy, hho⟩ := h.exists_holds hf
  have key : ∀ o, y.object? = some o → s.write o v = some s' →
      s'.fresh = s.fresh ∧ Inv s' ((Op.write a v).apply x s.fresh) := by
    intro o ho hs
    have hx : (x a).bind Value.object? = some o := by rw [hy, Option.bind_some, ho]
    simp only [Op.apply, hx, Option.elim_some]
    exact h.write hs
  cases hho with
  | empty p u c => cases c <;> cases p <;> simp [Fields.get] at hs
  | primitive p u => simp [Fields.get] at hs
  | instance_ t z o u hz hout =>
    simp only [Fields.get, Bool.not_false, Bool.true_and, decide_true, if_true] at hs
    exact key o rfl (Option.ite_none_left_eq_some.1 hs).2
  | ref t o u hlt ht =>
    simp only [Fields.get, Bool.not_false, Bool.true_and, decide_true, if_true] at hs
    exact key o rfl (Option.ite_none_left_eq_some.1 hs).2

theorem Inv.writePrimitive {v : BitVec 64} (h : Inv s x) (hs : s.step (.writePrimitive a v) = some s') :
    s'.fresh = s.fresh ∧ Inv s' ((Op.writePrimitive a v).apply x s.fresh) := by
  obtain ⟨f, hf, hs⟩ := Option.bind_eq_some_iff.1 hs
  obtain ⟨p, hp, hs⟩ := Option.bind_eq_some_iff.1 hs
  obtain ⟨y, hy, hho⟩ := h.exists_holds hf
  split at hs
  · cases hs
    simp only [Op.apply, hy, Option.map_some]
    cases hho with
    | primitive p' u =>
      cases hp
      refine ⟨rfl, h.put ?_ rfl ?_⟩
      · rw [State.holder?, hf]
        rfl
      · rw [Value.writePrimitive, ← low_setLow p.width u v]
        exact .primitive p _
    | _ => cases hp
  · cases hs

theorem Inv.step (h : Inv s x) {op : Op T V} (hc : Careful s op) (hs : s.step op = some s') :
    s'.fresh = s.fresh + op.names x ∧ Inv s' (op.apply x s.fresh) := by
  have hholder : ∀ {a f}, s.any a = some f → s.holder? a = f.holder := by
    intro a f hf
    rw [State.holder?, hf]
    rfl
  cases op with
  | make a =>
    obtain ⟨ha, rfl⟩ := construct_eq_some.1 hs
    exact ⟨rfl, h.put (holder?_of_none ha) rfl (.empty _ _ _)⟩
  | makeValue a t v => exact (h.makeValue hs).2
  | makePrimitive a p v => exact (h.makePrimitive hs).2
  | copy a other => exact (h.copy hs).2
  | move a other => exact (h.move hs).2.2
  | destroy a => exact h.destroy hs
  | swap a rhs => exact h.swap hs
  | assign a other tmp =>
    obtain ⟨s₁, h₁, hfresh, hfin⟩ := h.assign hs
    obtain ⟨htmp, hn, hi⟩ := h.copy h₁
    exact ⟨hfresh.trans hn, hfin _ _ htmp htmp hi⟩
  | assignMove a other tmp =>
    obtain ⟨s₁, h₁, hfresh, hfin⟩ := h.assign hs
    obtain ⟨htmp, hne, hn, hi⟩ := h.move h₁
    exact ⟨hfresh.trans hn, hfin _ _ htmp ((Function.update_of_ne hne _ _).trans htmp) hi⟩
  | assignValue a t v tmp =>
    obtain ⟨s₁, h₁, hfresh, hfin⟩ := h.assign hs
    obtain ⟨htmp, hn, hi⟩ := h.makeValue h₁
    exact ⟨hfresh.trans hn, hfin _ _ htmp htmp hi⟩
  | assignPrimitive a p v tmp =>
    obtain ⟨s₁, h₁, hfresh, hfin⟩ := h.assign hs
    obtain ⟨htmp, hn, hi⟩ := h.makePrimitive h₁
    exact ⟨hfresh.trans hn, hfin _ _ htmp htmp hi⟩
  | ref a t o =>
    obtain ⟨f, hf, hs⟩ := Option.bind_eq_some_iff.1 hs
    obtain ⟨z, hz, hs⟩ := Option.bind_eq_some_iff.1 hs
    split at hs
    · next ht =>
      cases hs
      rw [← hholder hf]
      refine ⟨free_fresh _ _, h.release rfl (.some (.ref t o 0 ?_ fun w hw => ?_))⟩
      · rw [free_fresh]
        exact h.fresh o z hz
      · have hw' := (free_cases hw).2
        cases hz.symm.trans hw'
        exact ht
    · cases hs
  | refPrimitive a p v =>
    obtain ⟨f, hf, rfl⟩ := Option.map_eq_some_iff.1 hs
    have hno : f.holder = none := (hholder hf).symm.trans hc
    refine ⟨rfl, h.put hc hno ?_⟩
    rw [← low_setLow p.width f.primitiveValue v]
    have hfields : f.refPrimitive a p v = ⟨false, some p, .primitive p, none, .primitiveValue a,
        setLow p.width f.primitiveValue v, false⟩ := by
      rw [Fields.refPrimitive, hno]
    rw [hfields]
    exact .primitive p _
  | clear a =>
    obtain ⟨f, hf, rfl⟩ := Option.map_eq_some_iff.1 hs
    rw [← hholder hf]
    exact ⟨free_fresh _ _, h.release rfl (.some (.empty _ _ _))⟩
  | write a v => exact h.writeThrough hs
  | writePrimitive a v => exact h.writePrimitive hs
  | newObject t v =>
    cases hs
    exact ⟨rfl, h.newObject⟩
  | writeObject o v =>
    simp only [State.step] at hs
    split at hs
    · next hout => exact ⟨(h.write hs).1, h.writeObject hout hs⟩
    · cases hs
  | deleteObject o =>
    simp only [State.step] at hs
    split at hs
    · next hout =>
      obtain ⟨z, -, rfl⟩ := Option.map_eq_some_iff.1 hs
      exact ⟨rfl, h.deleteObject hout⟩
    · cases hs

/-- No `Any`s and no objects. -/
def State.start : State T V := ⟨fun _ => none, fun _ => none, fun _ => false, 0⟩

omit [DecidableEq T] in
theorem inv_start : Inv (State.start : State T V) fun _ => none := by
  refine ⟨fun _ => .none, ?_, ?_, ?_⟩
  · intro a b f g o hf
    cases hf
  · intro o z hz
    cases hz
  · intro o z hz
    cases hz

/-- Every operation is `Careful` where it is applied. -/
def CarefulRun : State T V → List (Op T V) → Prop
  | _, [] => True
  | s, op :: ops => Careful s op ∧ ∀ s', s.step op = some s' → CarefulRun s' ops

theorem Inv.run {ops : List (Op T V)} (h : Inv s x) (hc : CarefulRun s ops) (hs : ops.foldlM State.step s = some s') :
    Inv s' (ops.foldl Vars.apply ⟨x, s.fresh⟩).value := by
  induction ops generalizing s x with
  | nil =>
    cases hs
    exact h
  | cons op ops ih =>
    rw [List.foldlM_cons] at hs
    obtain ⟨s₁, h₁, hs⟩ := Option.bind_eq_some_iff.1 hs
    obtain ⟨hfresh, hi⟩ := h.step hc.1 h₁
    rw [List.foldl_cons, Vars.apply, ← hfresh]
    exact ih hi (hc.2 s₁ h₁) hs

/-- After every run each `Any` represents what the operations make of the variables: a copy is a
value of its own, what is moved away is lent, and the rest is left as it is. -/
theorem run_represents {ops : List (Op T V)} (hc : CarefulRun .start ops) (hs : ops.foldlM State.step .start = some s)
    (a : Nat) : Option.Rel (Holds s a) (s.any a) ((ops.foldl Vars.apply .start).value a) :=
  (inv_start.run hc hs).holds a

/-- A copy is made of a value, and the value is moved away. What it was moved from refers to it,
and what is written there is written to the value. -/
theorem run_represents_move : ∃ s : State Nat Nat,
    Option.Rel (Holds s 0) (s.any 0) (some (.ref (.other 3) 0)) ∧
      Option.Rel (Holds s 1) (s.any 1) (some (.instance_ (.other 3) 1 10)) ∧
      Option.Rel (Holds s 2) (s.any 2) (some (.instance_ (.other 3) 0 20)) := by
  have hs : ∃ s, [.makeValue 0 (.other 3) 10, .copy 1 0, .move 2 0, .write 0 20].foldlM State.step
      (.start : State Nat Nat) = some s := ⟨_, rfl⟩
  obtain ⟨s, hs⟩ := hs
  have hc : CarefulRun (.start : State Nat Nat) [.makeValue 0 (.other 3) 10, .copy 1 0, .move 2 0, .write 0 20] :=
    ⟨trivial, fun _ _ => ⟨trivial, fun _ _ => ⟨trivial, fun _ _ => ⟨trivial, fun _ _ => trivial⟩⟩⟩⟩
  exact ⟨s, run_represents hc hs 0, run_represents hc hs 1, run_represents hc hs 2⟩

theorem Holds.getConst (hy : Holds s a f y) {t : TypeId T} (ht : t ≠ .nullptr) (hn : f.getConst t ≠ .nullptr) :
    (∃ p, t = .primitive p ∧ f.type = some p ∧ f.getConst t = .primitiveValue a) ∨
      ∃ o, f.getConst t = .object o ∧ ((∃ v, s.object o = some (t, v)) ∨ f.holder = none ∧ s.object o = none) := by
  have hf : f.instanseType = t ∧ f.getConst t = f.pointer := by
    unfold Fields.getConst at hn ⊢
    split
    · next he => exact ⟨he, rfl⟩
    · next he =>
      rw [if_neg he] at hn
      exact absurd rfl hn
  obtain ⟨rfl, hp⟩ := hf
  rw [hp]
  cases hy with
  | empty p v c => exact absurd rfl ht
  | instance_ t x o v h ho => exact .inr ⟨o, rfl, .inl ⟨x, h⟩⟩
  | primitive p v => exact .inl ⟨p, rfl, rfl, rfl⟩
  | ref u o v hlt hu =>
    refine .inr ⟨o, rfl, ?_⟩
    cases ho : s.object o with
    | none => exact .inr ⟨rfl, rfl⟩
    | some z =>
      left
      obtain ⟨u', w⟩ := z
      cases hu _ ho
      exact ⟨w, rfl⟩

/-- What `get` returns is of the type that was asked for, and only what an `Any` refers to can
have been deleted. Every holder belongs to one `Any`, and goes with it. -/
theorem get_sound {ops : List (Op T V)} (hc : CarefulRun .start ops) (hs : ops.foldlM State.step .start = some s) :
    (∀ a f t, s.any a = some f → t ≠ .nullptr → f.getConst t ≠ .nullptr →
      (∃ p, t = .primitive p ∧ f.type = some p ∧ f.getConst t = .primitiveValue a) ∨
        ∃ o, f.getConst t = .object o ∧ ((∃ v, s.object o = some (t, v)) ∨ f.holder = none ∧ s.object o = none)) ∧
      ∀ o, ((∃ z, s.object o = some z) ∧ s.outside o = false) ↔ ∃! a, s.holder? a = some o := by
  have hi := inv_start.run hc hs
  refine ⟨fun a f t hf ht hn => ?_, fun o => ⟨?_, ?_⟩⟩
  · obtain ⟨y, -, hy⟩ := hi.exists_holds hf
    exact hy.getConst ht hn
  · rintro ⟨⟨z, hz⟩, hout⟩
    obtain ⟨a, f, hf, hfo⟩ := hi.held o z hz hout
    have ha := holder?_eq_some.2 ⟨f, hf, hfo⟩
    exact ⟨a, ha, fun b hb => hi.holder_unique hb ha⟩
  · rintro ⟨a, ha, -⟩
    obtain ⟨f, hf, hfo⟩ := holder?_eq_some.1 ha
    obtain ⟨y, -, hy⟩ := hi.exists_holds hf
    obtain ⟨hout, z, hz⟩ := hy.object hfo
    exact ⟨⟨z, hz⟩, hout⟩

theorem get_sound_copy : ∃ s : State Nat Nat, (s.any 1).isSome ∧ ∃! a, s.holder? a = some 1 := by
  have hs : ∃ s, [.makeValue 0 (.other 3) 10, .copy 1 0].foldlM State.step (.start : State Nat Nat) = some s ∧
      s.object 1 = some (.other 3, 10) ∧ s.outside 1 = false ∧ (s.any 1).isSome := ⟨_, rfl, rfl, rfl, rfl⟩
  obtain ⟨s, hs, ho, hout, ha⟩ := hs
  have hc : CarefulRun (.start : State Nat Nat) [.makeValue 0 (.other 3) 10, .copy 1 0] :=
    ⟨trivial, fun _ _ => ⟨trivial, fun _ _ => trivial⟩⟩
  exact ⟨s, ha, ((get_sound hc hs).2 1).1 ⟨⟨_, ho⟩, hout⟩⟩

/-- A primitive is given by `ref` to an `Any` with a holder, and what a copy of it returns for
the primitive is the instance in its holder. -/
theorem exists_confused : ∃ (s : State Nat Nat) (f : Fields Nat),
    [.makeValue 0 (.other 3) 10, .refPrimitive 0 .int64 5, .copy 1 0].foldlM State.step .start = some s ∧
      s.any 1 = some f ∧ f.getConst (.primitive .int64) = .object 1 ∧ s.object 1 = some (.other 3, 10) :=
  ⟨_, _, rfl, rfl, rfl, rfl⟩

/-- The number that a primitive value of one of the wider integer types is. -/
def Primitive.toInt? : Primitive → BitVec 64 → Option Int
  | .int32, v => some (v.setWidth 32).toInt
  | .int64, v => some v.toInt
  | .uint32, v => some (v.setWidth 32).toNat
  | .uint64, v => some v.toNat
  | _, _ => none

theorem setWidth_low (v : BitVec 64) : (low 32 v).setWidth 32 = v.setWidth 32 := by
  have hmask : (BitVec.ofNat 64 (2 ^ 32 - 1)).setWidth 32 = BitVec.allOnes 32 := by decide
  rw [low, BitVec.setWidth_and, hmask, BitVec.and_allOnes]

theorem low_64 (v : BitVec 64) : low 64 v = v := by
  have hmask : BitVec.ofNat 64 (2 ^ 64 - 1) = BitVec.allOnes 64 := by decide
  rw [low, hmask, BitVec.and_allOnes]

theorem toUInt64_of_unsigned {w : Nat} (hw : w ≤ 64) {v : BitVec w} {n : BitVec 64} :
    some (v.setWidth 64) = some n ↔ (v.toNat : Int) = n.toNat := by
  rw [Option.some.injEq, Int.ofNat_inj, ← BitVec.toNat_inj, BitVec.toNat_setWidth_of_le hw]

/-- A signed number that is not negative is the same number without a sign. -/
theorem toUInt64_of_signed {w : Nat} (hw : w ≤ 64) {v : BitVec w} {n : BitVec 64} :
    (if 0 ≤ v.toInt then some (v.signExtend 64) else none) = some n ↔ v.toInt = n.toNat := by
  cases hmsb : v.msb with
  | false =>
    rw [if_pos (BitVec.toInt_nonneg_of_msb_false hmsb), BitVec.signExtend_eq_setWidth_of_msb_false hmsb,
      BitVec.toInt_eq_toNat_of_msb hmsb]
    exact toUInt64_of_unsigned hw
  | true =>
    have hneg := BitVec.toInt_neg_of_msb_true hmsb
    rw [if_neg (by omega)]
    refine iff_of_false (by simp) ?_
    omega

omit [DecidableEq T] in
theorem toUInt64_primitive {p : Primitive} {v : BitVec 64} {n : BitVec 64} :
    (⟨false, some p, .primitive p, none, .primitiveValue a, v, false⟩ : Fields T).toUInt64 = some n ↔
      p.toInt? (low p.width v) = some (n.toNat : Int) := by
  cases p with
  | int32 =>
    simp only [Fields.toUInt64, Primitive.toInt?, Primitive.width, setWidth_low, Option.some.injEq]
    exact toUInt64_of_signed (by omega)
  | int64 =>
    simp only [Fields.toUInt64, Primitive.toInt?, Primitive.width, low_64, Option.some.injEq]
    have h := toUInt64_of_signed (v := v) (n := n) le_rfl
    rwa [BitVec.signExtend_eq] at h
  | uint32 =>
    simp only [Fields.toUInt64, Primitive.toInt?, Primitive.width, setWidth_low]
    rw [toUInt64_of_unsigned (by omega), Option.some.injEq]
  | uint64 =>
    simp only [Fields.toUInt64, Primitive.toInt?, Primitive.width, low_64, Option.some.injEq, Int.ofNat_inj,
      BitVec.toNat_inj]
  | boolean | int16 | uint16 | double | float => simp [Fields.toUInt64, Primitive.toInt?]

omit [DecidableEq T] in
/-- `to<uint64_t>` gives the number that is held, if there is one and it is not negative. -/
theorem Holds.toUInt64 (hy : Holds s a f y) {n : BitVec 64} :
    f.toUInt64 = some n ↔ ∃ p v, y = .primitive p v ∧ p.toInt? v = some (n.toNat : Int) := by
  have hnone : f.type = none → (∀ p v, y ≠ .primitive p v) →
      (f.toUInt64 = some n ↔ ∃ p v, y = .primitive p v ∧ p.toInt? v = some (n.toNat : Int)) := by
    intro hf hne
    refine iff_of_false ?_ ?_
    · simp [Fields.toUInt64, hf]
    · rintro ⟨p, v, hp, -⟩
      exact hne p v hp
  cases hy with
  | primitive p v =>
    rw [toUInt64_primitive]
    constructor
    · exact fun h => ⟨p, _, rfl, h⟩
    · rintro ⟨p, v, ⟨⟩, h⟩
      exact h
  | _ => exact hnone rfl (by simp)

theorem run_toUInt64 {ops : List (Op T V)} (hc : CarefulRun .start ops) (hs : ops.foldlM State.step .start = some s)
    (hf : s.any a = some f) (n : BitVec 64) :
    f.toUInt64 = some n ↔ ∃ p v, (ops.foldl Vars.apply .start).value a = some (.primitive p v) ∧
      p.toInt? v = some (n.toNat : Int) := by
  obtain ⟨y, hy, hho⟩ := (inv_start.run hc hs).exists_holds hf
  have hx : (ops.foldl Vars.apply .start).value a = some y := hy
  rw [hho.toUInt64, hx]
  simp only [Option.some.injEq]

/-- A number that is kept as it is, a negative one, and one that `Any a = 5` puts in a holder. -/
theorem run_toUInt64_numbers : ∃ (s : State Nat Nat) (f g h : Fields Nat),
    s.any 0 = some f ∧ f.toUInt64 = some 7 ∧ s.any 1 = some g ∧ (∀ n, g.toUInt64 ≠ some n) ∧
      s.any 2 = some h ∧ h.instanseType = .primitive .int32 ∧ ∀ n, h.toUInt64 ≠ some n := by
  have hs : ∃ s f g h, [.makePrimitive 0 .int32 7, .makePrimitive 1 .int32 (-1),
      .makeValue 2 (.primitive .int32) 5].foldlM State.step (.start : State Nat Nat) = some s ∧
      s.any 0 = some f ∧ s.any 1 = some g ∧ s.any 2 = some h ∧ h.instanseType = .primitive .int32 :=
    ⟨_, _, _, _, rfl, rfl, rfl, rfl, rfl⟩
  obtain ⟨s, f, g, h, hs, hf, hg, hh, ht⟩ := hs
  have hc : CarefulRun (.start : State Nat Nat)
      [.makePrimitive 0 .int32 7, .makePrimitive 1 .int32 (-1), .makeValue 2 (.primitive .int32) 5] :=
    ⟨trivial, fun _ _ => ⟨trivial, fun _ _ => ⟨trivial, fun _ _ => trivial⟩⟩⟩
  refine ⟨s, f, g, h, hf, (run_toUInt64 hc hs hf 7).2 ⟨.int32, 7, rfl, by decide⟩, hg, fun n hn => ?_, hh, ht,
    fun n hn => ?_⟩
  · obtain ⟨p, v, hp, hv⟩ := (run_toUInt64 hc hs hg n).1 hn
    cases hp
    have hneg : Primitive.int32.toInt? (low 32 (-1)) = some (-1) := by decide
    cases hneg.symm.trans hv
  · obtain ⟨p, v, hp, -⟩ := (run_toUInt64 hc hs hh n).1 hn
    cases hp

end

end Wizard.Any
