import Mathlib.Data.Rat.Defs
import Mathlib.Algebra.Order.Ring.Rat
import Wizard.SkipListComp

/-! The skip list from its constructor to its destructor, with both tables read as arrays.
`getSizeLimit` leaves its table when the list is higher than the table is long, and the
destructor asks a head of height 0 for its layer 0. -/

namespace Wizard.SkipList.Heights

variable {T Q : Type}

/-- The tables of `SkipListRandomHeight`, and `MAX_HEIGHT`. -/
structure Tables extends Config where
  lookup : Fin 64 → ℚ
  last : lookup 63 = 1

/-- What `randomProb` returns. -/
abbrev Prob := { p : ℚ // 0 ≤ p ∧ p < 1 }

def lookupTable (t : Tables) (i : Nat) : Option ℚ :=
  if h : i < 64 then some (t.lookup ⟨i, h⟩) else none

def getHeight (t : Tables) (p : Prob) (maxHeight : Nat) : Option Nat := do
  let found ← (List.range maxHeight).findM? fun i => do return decide (p.1 < (← lookupTable t i))
  return (found.map (· + 1)).getD maxHeight

section Model

variable [Inhabited T] [DecidableEq T] (t : Tables) (less : T → T → Bool)

def insert (s : SkipList T) (x : T) (force : Bool) (p : Prob) : Option (Bool × SkipList T) := do
  let s ← s.growIfFull t.toConfig
  let nodeHeight ← getHeight t p (← s.height)
  let (next, prevs) ← Comp.searchEqualOrGreater less s x
  let isExist ← Comp.isExist s x next
  if isExist ∧ force ∨ ¬ isExist then
    let s ← (s.create nodeHeight x).linkNode s.nodeCount prevs nodeHeight
    return (isExist, { s with size := s.size + 1 })
  else return (isExist, s)

inductive Op (T : Type) where
  | insert (x : T) (force : Bool) (p : Prob)
  | remove (x : T)
  | find (x : T)

def Op.step (s : SkipList T) : Op T → Option (SkipList T)
  | insert x force p => (Heights.insert t less s x force p).map Prod.snd
  | remove x => (Comp.remove less s x).map Prod.snd
  | find x => (Comp.find less s x).map fun _ => s

def run (s : SkipList T) (ops : List (Op T)) : Option (SkipList T) :=
  ops.foldlM (Op.step t less) s

/-- The loop of the destructor. -/
def destructLoop : Nat → SkipList T → Option Nat → Option (SkipList T)
  | _, s, none => some s
  | 0, _, some _ => none
  | fuel + 1, s, some n => do
    let next ← s.skip n 0
    let s ← s.destroy n
    destructLoop fuel s next

def destruct (s : SkipList T) : Option (SkipList T) := destructLoop (s.nodeCount + 1) s s.head

/-- Whatever is done to the list, every operation returns, an absent element is found once
it is inserted, and the list can be destroyed. -/
def Sound (h : Nat) : Prop := ∀ ops : List (Op T), ∃ s, run t less (make h) ops = some s ∧ (destruct s).isSome ∧
  ∀ x force p, Comp.find less s x = some false →
    ∃ b s', insert t less s x force p = some (b, s') ∧ Comp.find less s' x = some true

end Model

/-! The table of heights is long enough for every list, for its last entry stops the loop. -/

section Lookup

variable {t : Tables} {p : Prob}

theorem lookupTable_eq {a : Nat} (ha : a ≤ 63) : ∃ q, lookupTable t a = some q ∧ (a = 63 → p.1 < q) := by
  refine ⟨_, dif_pos (show a < 64 by omega), ?_⟩
  rintro rfl
  exact p.2.2.trans_eq t.last.symm

theorem findM?_eq (n : Nat) {a : Nat} (ha : a ≤ 63) : ∃ o, (List.range' a n).findM?
    (fun i => do return decide (p.1 < (← lookupTable t i))) = some o ∧ ∀ i, o = some i → i < a + n := by
  induction n generalizing a with
  | zero => exact ⟨none, rfl, fun i hi => by cases hi⟩
  | succ n ih =>
    obtain ⟨q, hq, hlast⟩ := lookupTable_eq (t := t) (p := p) ha
    by_cases hp : p.1 < q
    · refine ⟨some a, ?_, fun i hi => ?_⟩
      · simp [List.range'_succ, List.findM?, hq, hp]
      · cases hi
        omega
    · have hne : a ≠ 63 := mt hlast hp
      obtain ⟨o, ho, hlt⟩ := ih (a := a + 1) (by omega)
      refine ⟨o, ?_, fun i hi => ?_⟩
      · simpa [List.range'_succ, List.findM?, hq, hp] using ho
      · have := hlt i hi
        omega

/-- The heights that the table gives are heights of the model that draws a number. -/
theorem exists_getHeight (t : Tables) (p : Prob) (m : Nat) :
    ∃ r, getHeight t p m = some (SkipList.getHeight r m) := by
  obtain ⟨o, ho, hlt⟩ := findM?_eq (t := t) (p := p) m (Nat.zero_le 63)
  rw [← List.range_eq_range'] at ho
  cases o with
  | none => exact ⟨m, by rw [getHeight, ho]; simp [SkipList.getHeight]⟩
  | some i =>
    have hi := hlt i rfl
    rw [Nat.zero_add] at hi
    exact ⟨i, by rw [getHeight, ho]; simp [SkipList.getHeight, hi]⟩

end Lookup

section Run

variable [Inhabited T] [DecidableEq T] {t : Tables} {less : T → T → Bool} {s s' : SkipList T} {l : List T} {h : Nat}

theorem exists_insert (t : Tables) (less : T → T → Bool) (s : SkipList T) (x : T) (force : Bool) (p : Prob) :
    ∃ r, insert t less s x force p = Comp.insert less t.toConfig s x force r := by
  cases hs : s.growIfFull t.toConfig with
  | none => exact ⟨0, by simp [insert, Comp.insert, hs]⟩
  | some s' =>
    cases hheight : s'.height with
    | none => exact ⟨0, by simp [insert, Comp.insert, hs, hheight]⟩
    | some m =>
      obtain ⟨r, hr⟩ := exists_getHeight t p m
      exact ⟨r, by simp [insert, Comp.insert, hs, hheight, hr]⟩

omit [Inhabited T] [DecidableEq T] in
theorem link_map (f : T → Q) (i : Nat) : (s.map f).link i = s.link i := by
  funext n
  cases hn : s.node n <;> simp [link, map, hn]

omit [Inhabited T] [DecidableEq T] in
theorem destructLoop_isSome {ids : List Nat} {cur : Option Nat} (fuel : Nat) (hseg : Segment (s.link 0) cur ids none)
    (hnodup : ids.Nodup) (hlive : ∀ n ∈ ids, 0 < s.heightOf n) (hf : ids.length ≤ fuel) :
    (destructLoop fuel s cur).isSome := by
  induction ids generalizing s cur fuel with
  | nil =>
    obtain rfl : cur = none := hseg
    cases fuel <;> rfl
  | cons n ids ih =>
    obtain ⟨fuel, rfl⟩ : ∃ k, fuel = k + 1 := ⟨fuel - 1, by simp at hf; omega⟩
    obtain ⟨rfl, hrest⟩ := hseg
    rw [List.nodup_cons] at hnodup
    have hn := hlive n List.mem_cons_self
    have hne : ∀ m ∈ ids, m ≠ n := fun m hm => ne_of_mem_of_not_mem hm hnodup.1
    simp only [destructLoop, skip_eq hn, destroy_eq hn, Option.bind_eq_bind, Option.bind_some]
    refine ih fuel ?_ hnodup.2 (fun m hm => ?_) (by simpa using hf)
    · rw [link_drop]
      exact hrest.congr fun m hm => Function.update_of_ne (hne m hm) _ _
    · rw [heightOf_drop, Function.update_of_ne (hne m hm)]
      exact hlive m (List.mem_cons_of_mem _ hm)

/-- The list shows its elements, and it is not too high. -/
def Fit (key : T → Q) [LinearOrder Q] [Inhabited Q] (s : SkipList T) : Prop :=
  ∃ l : List T, Comp.Listed key s l ∧ s.heightOf s.head < 64

variable [LinearOrder Q] [Inhabited Q] {key : T → Q}

omit [DecidableEq T] in
theorem Fit.destruct (hs : Fit key s) : (destruct s).isSome := by
  obtain ⟨l, ⟨ids, hl, -⟩, -⟩ := hs
  have hseg := hl.linked 0 hl.top
  rw [onLayer_zero fun n hn => (hl.tall n hn).1, link_map, map_head] at hseg
  refine destructLoop_isSome _ hseg hl.nodup (fun n hn => ?_) ?_
  · obtain rfl | hn := List.mem_cons.1 hn
    · exact heightOf_map (f := key) ▸ hl.top
    · exact heightOf_map (f := key) ▸ (hl.tall n hn).1
  · have hlt := hl.length_lt
    rw [map_nodeCount] at hlt
    rw [List.length_cons]
    omega

variable (hk : ∀ a b, key a < key b ↔ less a b) (hd : key default = default)

include hk hd

theorem Fit.insert (hs : Fit key s) (x : T) (force : Bool) (p : Prob) : ∃ b s',
    insert t less s x force p = some (b, s') ∧ Fit key s' ∧
      (Comp.find less s x = some false → Comp.find less s' x = some true) := by
  obtain ⟨l, hl, hlow⟩ := hs
  obtain ⟨r, hr⟩ := exists_insert t less s x force p
  obtain ⟨s', hs', hl', hlow'⟩ := hl.insert hk hd hlow t.toConfig x force r
  refine ⟨_, s', hr.trans hs', ⟨_, hl', hlow'⟩, fun habsent => ?_⟩
  have hirrefl : ¬ less x x := fun h => lt_irrefl _ ((hk x x).2 h)
  rw [hl.find hk hd, Option.some.injEq, decide_eq_false_iff_not] at habsent
  rw [Comp.replay, if_neg fun h => habsent h.1] at hl'
  rw [hl'.find hk hd, decide_eq_true (Comp.found_place l hirrefl)]

theorem Fit.step (hs : Fit key s) (op : Op T) : ∃ s', op.step t less s = some s' ∧ Fit key s' := by
  obtain ⟨l, hl, hlow⟩ := id hs
  cases op with
  | insert x force p =>
    obtain ⟨b, s', hs', hfit, -⟩ := hs.insert hk hd x force p (t := t)
    exact ⟨s', congrArg (Option.map Prod.snd) hs', hfit⟩
  | remove x =>
    obtain ⟨s', hs', hl', hheight⟩ := hl.remove hk hd x
    exact ⟨s', congrArg (Option.map Prod.snd) hs', _, hl', hheight ▸ hlow⟩
  | find x => exact ⟨s, congrArg (Option.map _) (hl.find hk hd x), hs⟩

theorem Fit.run (hs : Fit key s) (ops : List (Op T)) : ∃ s', run t less s ops = some s' ∧ Fit key s' := by
  induction ops generalizing s with
  | nil => exact ⟨s, rfl, hs⟩
  | cons op ops ih =>
    obtain ⟨s₁, h₁, hs₁⟩ := hs.step hk hd op (t := t)
    obtain ⟨s₂, h₂, hs₂⟩ := ih hs₁
    exact ⟨s₂, by simpa [Heights.run, h₁] using h₂, hs₂⟩

end Run

section Spec

variable [Inhabited T] [DecidableEq T] {h : Nat}

omit [DecidableEq T] in
theorem destruct_make_zero : destruct (make 0 : SkipList T) = none := by
  simp [destruct, destructLoop, make, create, skip]

/-- The list is sound for the heights from 1 to 63, and for no others. -/
theorem sound_iff (t : Tables) (less : T → T → Bool) [IsStrictWeakOrder T fun a b => less a b] (h256 : h < 256) :
    Sound t less h ↔ 0 < h ∧ h < 64 := by
  obtain ⟨Q, hQ, key, hk⟩ := @StrictWeak.exists_key T less _
  let hdefault : Inhabited Q := ⟨key default⟩
  constructor
  · intro hsound
    obtain ⟨s, hs, hdestruct, hinsert⟩ := hsound []
    obtain rfl := Option.some.inj hs
    have hheight := heightOf_make (T := T) h256
    have hpos : 0 < h := by
      by_contra hno
      obtain rfl : h = 0 := by omega
      rw [destruct_make_zero] at hdestruct
      cases hdestruct
    have hl : Comp.Listed key (make h) [] := Comp.Listed.make rfl hpos h256
    obtain ⟨b, s', hs', -⟩ := hinsert default false ⟨0, le_rfl, one_pos⟩ (hl.find hk rfl default)
    refine ⟨hpos, ?_⟩
    by_contra hhigh
    obtain ⟨r, hr⟩ := exists_insert t less (make h) default false ⟨0, le_rfl, one_pos⟩
    rw [hr, Comp.insert_eq_none (hheight.symm ▸ not_lt.1 hhigh)] at hs'
    cases hs'
  · rintro ⟨hpos, hlow⟩ ops
    have hl : Comp.Listed key (make h) [] := Comp.Listed.make rfl hpos h256
    have hheight : (make h : SkipList T).heightOf (make h : SkipList T).head < 64 := by
      change (make h : SkipList T).heightOf 0 < 64
      rwa [heightOf_make h256]
    have hfit : Fit key (make h) := ⟨[], hl, hheight⟩
    obtain ⟨s, hs, hfit'⟩ := hfit.run hk rfl ops (t := t)
    refine ⟨s, hs, hfit'.destruct, fun x force p habsent => ?_⟩
    obtain ⟨b, s', hs', -, hfind⟩ := hfit'.insert hk rfl x force p (t := t)
    exact ⟨b, s', hs', hfind habsent⟩

theorem sound_iff_eight : 8 < 256 ∧
    (Sound ⟨⟨fun i => i, 24⟩, fun _ => 1, rfl⟩ Comp.lessFirst 8 ↔ 0 < 8 ∧ 8 < 64) :=
  ⟨by decide, sound_iff ⟨⟨fun i => i, 24⟩, fun _ => 1, rfl⟩ Comp.lessFirst (by decide)⟩

/-- A list of height 0 cannot be destroyed, and nothing can be inserted at height 64. -/
theorem not_sound_zero : (0 < 256 ∧ 64 < 256) ∧
    ¬ Sound ⟨⟨fun i => i, 24⟩, fun _ => 1, rfl⟩ Comp.lessFirst 0 ∧
    ¬ Sound ⟨⟨fun i => i, 24⟩, fun _ => 1, rfl⟩ Comp.lessFirst 64 := by
  refine ⟨by decide, fun hsound => ?_, fun hsound => ?_⟩
  · obtain ⟨s, hs, hdestruct, -⟩ := hsound []
    rw [← Option.some.inj hs, destruct_make_zero] at hdestruct
    cases hdestruct
  · obtain ⟨s, hs, -, hinsert⟩ := hsound []
    rw [← Option.some.inj hs] at hinsert
    obtain ⟨b, s', hs', -⟩ := hinsert (1, 5) false ⟨0, le_rfl, one_pos⟩ (by decide +kernel)
    have hnone : (insert ⟨⟨fun i => i, 24⟩, fun _ => 1, rfl⟩ Comp.lessFirst (make 64) (1, 5) false
        ⟨0, le_rfl, one_pos⟩).isNone := by decide +kernel
    rw [hs'] at hnone
    cases hnone

end Spec

end Wizard.SkipList.Heights
