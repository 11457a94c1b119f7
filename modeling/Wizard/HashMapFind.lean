import Wizard.Runs
import Wizard.HashMapSections
import Wizard.HashMapSpec

/-! One `find` among any number of writers. Every store of a mutex section and
every load of the `find` is a step. A section takes effect with its last store,
or at its unlock if it has none; `bound` is the map of the sections that have. -/

namespace Wizard.HashMap.Find

open SegmentT

variable {Key Value : Type}

inductive Pos (Value : Type) where
  | start
  | list (l : Nat)
  | node (p : Option Nat)
  | done (r : Option Value)

structure State (Key Value : Type) where
  seg : SegmentT Key Value
  lock : Option (List (Store Key Value) × (Key → Option Value))
  bound : Key → Option Value
  pos : Pos Value

section Machine

variable [DecidableEq Key] (c : Config Key) (k : Key)

/-- The steps of the writers, who share nothing but the mutex, and of `find(k)`. -/
inductive Step : State Key Value → State Key Value → Prop
  | insert (s key value sec) (hl : s.lock = none) (hs : insertSection c s.seg key value = some sec) :
      Step s { s with lock := some (sec.1, Function.update s.bound key (some value)) }
  | erase (s key) (hl : s.lock = none) :
      Step s { s with lock := some ((eraseSection c s.seg key).1, Function.update s.bound key none) }
  | store (s st rest f) (hl : s.lock = some (st :: rest, f)) :
      Step s { s with
        seg := s.seg.apply st, lock := some (rest, f), bound := if rest = [] then f else s.bound }
  | unlock (s f) (hl : s.lock = some ([], f)) : Step s { s with lock := none, bound := f }
  | loadList (s) (hp : s.pos = .start) : Step s { s with pos := .list s.seg.bucketList }
  | loadHead (s l) (hp : s.pos = .list l) :
      Step s { s with pos := .node (s.seg.read (headOf c s.seg l k)) }
  | loadNext (s n) (hp : s.pos = .node (some n)) (hk : s.seg.key n ≠ k) :
      Step s { s with pos := .node (s.seg.next n) }
  | found (s n) (hp : s.pos = .node (some n)) (hk : s.seg.key n = k) :
      Step s { s with pos := .done (some (s.seg.value n)) }
  | missing (s) (hp : s.pos = .node none) : Step s { s with pos := .done none }

/-- A segment that nobody has used. -/
def Init [Inhabited Key] [Inhabited Value] (s : State Key Value) : Prop :=
  (∃ count : BitVec 64, count.toNat ≤ 2 ^ 63 ∧ SegmentT.make c count = some s.seg) ∧
    s.lock = none ∧ s.bound = (fun _ => none) ∧ s.pos = .start

end Machine

variable {c : Config Key} {k : Key} {s t : State Key Value} {V W : Set Nat} {H : Set (Option Value)}

/-- The stores that are left in the section, if there is one, are safe. -/
def Locked (c : Config Key) (s : State Key Value) (V W : Set Nat) : Prop :=
  match s.lock with
  | none => Holds c s.seg V W s.bound
  | some (st, f) => Safe c s.seg V W s.bound st f

/-- The result that `find(k)` would have if the heap stayed as it is. -/
def Ahead (c : Config Key) (k : Key) (seg : SegmentT Key Value) (V W : Set Nat) (o : Option Value) :
    Pos Value → Prop
  | .start => True
  | .list l => l ∈ W ∧ Finds seg V k (seg.read (headOf c seg l k)) o
  | .node q => Finds seg V k q o
  | .done r => r = o

/-- What is known while the key has been bound as in `H` since `find(k)` started. -/
def Inv (c : Config Key) (k : Key) (s : State Key Value) (H : Set (Option Value)) : Prop :=
  ∃ V W, Locked c s V W ∧ ∃ o ∈ H, Ahead c k s.seg V W o s.pos

theorem Locked.holds (h : Locked c s V W) : Holds c s.seg V W s.bound := by
  rw [Locked] at h
  split at h
  · exact h
  · exact h.holds

/-- A section that has no store left has taken effect. -/
theorem Locked.eq_bound {f : Key → Option Value} (h : Locked c s V W) (hl : s.lock = some ([], f)) : f = s.bound := by
  rw [Locked, hl] at h
  cases h
  rfl

/-- A store keeps the result ahead, or makes it what the key is bound to. -/
theorem Ahead.serve {seg seg' : SegmentT Key Value} {V' W' : Set Nat} {o : Option Value}
    {g : Key → Option Value} {pos : Pos Value} (h : Ahead c k seg V W o pos)
    (hs : Serves c seg seg' V V' W g) (hW : W ⊆ W') :
    ∃ o', (o' = o ∨ o' = g k) ∧ Ahead c k seg' V' W' o' pos := by
  cases pos with
  | start => exact ⟨o, .inl rfl, trivial⟩
  | list l =>
    obtain ⟨o', ho, hf⟩ := hs.list k l h.1 o h.2
    exact ⟨o', ho, hW h.1, hf⟩
  | node q => exact hs.node k q o h
  | done r => exact ⟨o, .inl rfl, h⟩

theorem Inv.mono {H' : Set (Option Value)} (h : Inv c k s H) (hH : H ⊆ H') : Inv c k s H' := by
  obtain ⟨V, W, hL, o, ho, ha⟩ := h
  exact ⟨V, W, hL, o, hH ho, ha⟩

/-- After a store the bound map is the one the store has put in place. -/
theorem Inv.store {st : Store Key Value} {rest : List (Store Key Value)} {f : Key → Option Value}
    (h : Inv c k s H) (hl : s.lock = some (st :: rest, f)) :
    Inv c k ⟨s.seg.apply st, some (rest, f), if rest = [] then f else s.bound, s.pos⟩
      (insert ((if rest = [] then f else s.bound) k) H) := by
  obtain ⟨V, W, hL, o, ho, ha⟩ := h
  simp only [Locked, hl] at hL
  cases hL with
  | step hh hr hW hs ht =>
    obtain ⟨o', ho', ha'⟩ := ha.serve hs hW
    rw [if_neg hr]
    refine ⟨_, _, ht, o', ?_, ha'⟩
    obtain rfl | rfl := ho'
    · exact .inr ho
    · exact .inl rfl
  | last hh hs ht =>
    obtain ⟨o', ho', ha'⟩ := ha.serve hs subset_rfl
    rw [if_pos rfl]
    refine ⟨_, _, Safe.done ht, o', ?_, ha'⟩
    obtain rfl | rfl := ho'
    · exact .inr ho
    · exact .inl rfl

variable [DecidableEq Key]

theorem Inv.step (h : Inv c k s H) (hH : s.bound k ∈ H) (hs : Step c k s t) :
    Inv c k t (insert (t.bound k) H) := by
  cases hs with
  | store st rest f hl => exact h.store hl
  | insert key value sec hl hs =>
    obtain ⟨V, W, hL, o, ho, ha⟩ := h
    exact ⟨V, W, insertSection_safe hL.holds hs, o, .inr ho, ha⟩
  | erase key hl =>
    obtain ⟨V, W, hL, o, ho, ha⟩ := h
    exact ⟨V, W, eraseSection_safe hL.holds key, o, .inr ho, ha⟩
  | unlock f hl =>
    obtain ⟨V, W, hL, o, ho, ha⟩ := h
    obtain rfl := hL.eq_bound hl
    exact ⟨V, W, hL.holds, o, .inr ho, ha⟩
  | loadList hp =>
    obtain ⟨V, W, hL, o, ho, ha⟩ := h
    obtain ⟨ch, hc⟩ := hL.holds.chains
    exact ⟨V, W, hL, _, .inr hH, hL.holds.current, hc.finds k⟩
  | loadHead l hp =>
    obtain ⟨V, W, hL, o, ho, ha⟩ := h
    rw [hp] at ha
    exact ⟨V, W, hL, o, .inr ho, ha.2⟩
  | loadNext n hp hk =>
    obtain ⟨V, W, hL, o, ho, ha⟩ := h
    rw [hp] at ha
    cases ha with
    | found _ _ hk' => exact absurd hk' hk
    | next _ _ _ _ ha => exact ⟨V, W, hL, o, .inr ho, ha⟩
  | found n hp hk =>
    obtain ⟨V, W, hL, o, ho, ha⟩ := h
    rw [hp] at ha
    cases ha with
    | found _ _ _ => exact ⟨V, W, hL, _, .inr ho, rfl⟩
    | next _ _ _ hk' _ => exact absurd hk hk'
  | missing hp =>
    obtain ⟨V, W, hL, o, ho, ha⟩ := h
    rw [hp] at ha
    cases ha
    exact ⟨V, W, hL, _, .inr ho, rfl⟩

variable [Inhabited Key] [Inhabited Value]

theorem inv_of_reachable (h : Reachable (Init c) (Step c k) s) : Inv c k s Set.univ := by
  apply h.invariant
  · rintro s ⟨⟨count, hcount, hs⟩, hl, hb, hp⟩
    obtain ⟨V, W, hh⟩ := (Represents.make hcount hs).holds
    refine ⟨V, W, ?_, none, trivial, ?_⟩
    · rwa [Locked, hl, hb]
    · rw [hp]
      trivial
  · intro s t _ hi hs
    exact (hi.step trivial hs).mono (Set.subset_univ _)

/-- At any moment an undisturbed `find` would return what the key is bound to. -/
theorem find_eq_bound (h : Reachable (Init c) (Step c k) s) (key : Key) :
    s.seg.find c key = s.bound key := by
  obtain ⟨V, W, hL, -⟩ := inv_of_reachable h
  exact hL.holds.find_eq key

theorem inv_of_run {visited : List (State Key Value)} (h : Reachable (Init c) (Step c k) s)
    (hp : s.pos = .start) (hr : Run (Step c k) s visited t) :
    t.bound k ∈ {o | ∃ u ∈ visited, u.bound k = o} ∧ Inv c k t {o | ∃ u ∈ visited, u.bound k = o} := by
  induction hr with
  | start =>
    obtain ⟨V, W, hL, -⟩ := inv_of_reachable h
    refine ⟨⟨s, by simp, rfl⟩, V, W, hL, s.bound k, ⟨s, by simp, rfl⟩, ?_⟩
    rw [hp]
    trivial
  | tail hr hs ih =>
    refine ⟨⟨_, by simp, rfl⟩, (ih.2.step ih.1 hs).mono ?_⟩
    rintro o (rfl | ⟨u, hu, rfl⟩)
    · exact ⟨_, by simp, rfl⟩
    · exact ⟨u, List.mem_append_left _ hu, rfl⟩

/-- What `find(k)` returns is what the key was bound to at some moment between
its start and its end. -/
theorem find_linearizable {visited : List (State Key Value)} {r : Option Value}
    (h : Reachable (Init c) (Step c k) s) (hp : s.pos = .start) (hr : Run (Step c k) s visited t)
    (hd : t.pos = .done r) : ∃ u ∈ visited, u.bound k = r := by
  obtain ⟨-, V, W, -, o, ho, ha⟩ := inv_of_run h hp hr
  rw [hd] at ha
  obtain rfl : r = o := ha
  exact ho

def fresh : State Nat Nat where
  seg := ⟨fun _ => default, 0, fun _ => ⟨4, fun _ => none, by decide⟩, 1, 0, 0, 4, []⟩
  lock := none
  bound _ := none
  pos := .start

/-- The reader loads the bucket list; then its key is inserted, and it finds it. -/
theorem find_linearizable_inserted : ∃ (visited : List (State Nat Nat)) (t : State Nat Nat),
    Run (Step (oneShard Nat) 7) fresh visited t ∧ t.pos = .done (some 1) ∧
      ∃ u ∈ visited, u.bound 7 = some 1 := by
  have h₀ : Reachable (Init (oneShard Nat)) (Step (oneShard Nat) 7) fresh :=
    .of_init ⟨⟨4, by decide, rfl⟩, rfl, rfl, rfl⟩
  have r₀ : Run (Step (oneShard Nat) 7) fresh [fresh] fresh := .start
  have r₁ := r₀.tail (.loadList _ rfl)
  have r₂ := r₁.tail (.insert _ 7 1 _ rfl rfl)
  have r₃ := r₂.tail (.store _ _ _ _ rfl)
  have r₄ := r₃.tail (.store _ _ _ _ rfl)
  have r₅ := r₄.tail (.store _ _ _ _ rfl)
  have r₆ := r₅.tail (.store _ _ _ _ rfl)
  have r₇ := r₆.tail (.loadHead _ _ rfl)
  have r₈ := r₇.tail (.found _ 0 rfl rfl)
  exact ⟨_, _, r₈, rfl, find_linearizable h₀ rfl r₈ rfl⟩

end Wizard.HashMap.Find
