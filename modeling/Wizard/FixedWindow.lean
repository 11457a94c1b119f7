import Mathlib.Data.List.Induction
import Wizard.Runs
import Wizard.WindowBuffer

/-! The window of the last items, which can be resized. Its `clear` is that of the buffer, so
that items of a trivially destructible type stay. -/

namespace Wizard

structure FixedWindow (T : Type) where
  buffer : RingBuffer T
  windowSize : Nat

namespace FixedWindow

open RingBuffer Window

variable {T : Type}

section Model

variable [Inhabited T]

def make (windowSize : Nat) : FixedWindow T := ⟨Window.make windowSize, windowSize⟩

variable (k : Kind) (w : FixedWindow T)

def emplaceBack (x : T) : Option (FixedWindow T) := do
  return { w with buffer := ← w.buffer.emplaceBack k x }

/-- The items that `for_each` hands to its callback. -/
def forEach : Option (List T) := w.buffer.traverse w.buffer.begin w.buffer.end'

/-- `reset` destroys the old buffer. -/
def resize (newWindowSize : Nat) : Option (FixedWindow T) := do
  let items ← w.forEach
  let newBuffer ← items.foldlM (RingBuffer.emplaceBack k) (Window.make newWindowSize)
  let _ ← Window.clear k w.buffer
  return ⟨newBuffer, newWindowSize⟩

def clear : Option (FixedWindow T) := do
  return { w with buffer := ← Window.clear k w.buffer }

/-- `i` is an `int`. -/
def at? (i : Int) : Option T := w.buffer.at? (toSize i)

def front : Option T := w.buffer.front

def back : Option T := w.buffer.back

def size : Nat := w.buffer.size

inductive Op (T : Type) where
  | emplaceBack (x : T)
  | resize (n : Nat)
  | clear

def Op.step : Op T → Option (FixedWindow T)
  | emplaceBack x => w.emplaceBack k x
  | resize n => w.resize k n
  | clear => w.clear k

def run (windowSize : Nat) (ops : List (Op T)) : Option (FixedWindow T) :=
  ops.foldlM (Op.step k) (make windowSize)

end Model

/-- What the window is to hold, with its size and the number of items that were put into its
buffer. -/
structure Content (T : Type) where
  limit : Nat
  count : Nat
  items : List T

def Op.replay (s : Content T) : Op T → Content T
  | emplaceBack x => ⟨s.limit, s.count + 1, (s.items ++ [x]).rtake s.limit⟩
  | resize n => ⟨n, s.items.length, s.items.rtake n⟩
  | clear => { s with items := [] }

def content (windowSize : Nat) (ops : List (Op T)) : Content T := ops.foldl Op.replay ⟨windowSize, 0, []⟩

/-- What the window shows of its content. -/
structure Shows (w : FixedWindow T) (l : List T) : Prop where
  size : w.size = l.length
  front : w.front = l.head?
  back : w.back = l.getLast?
  elements : ∀ i < 2 ^ 31, w.at? (i : Nat) = l[i]?
  forEach : w.forEach = some l

def Right [Inhabited T] (k : Kind) (windowSize : Nat) (ops : List (Op T)) : Prop :=
  ∃ w, run k windowSize ops = some w ∧ Shows w (content windowSize ops).items

/-- No window of a trivially destructible type is cleared that has items, and no index of a
buffer passes the largest `int`. -/
structure Careful (trivial : Bool) (windowSize : Nat) (ops : List (Op T)) : Prop where
  clear : ∀ p, p ++ [.clear] <+: ops → trivial → (content windowSize p).items = []
  small : ∀ p, p <+: ops → Small (content windowSize p).limit (content windowSize p).count

variable {k : Kind} {w w' : FixedWindow T} {b : RingBuffer T} {s : Content T} {l xs : List T} {c m n : Nat} {t : Bool}
  {op : Op T} {ops : List (Op T)}

/-- The window has the items in its buffer. -/
def Has (w : FixedWindow T) (s : Content T) : Prop := Keeps w.buffer s.limit s.count s.items

namespace Has

theorem shows (hw : Has w s) (hs : Small s.limit s.count) : Shows w s.items := by
  have h := Keeps.shows hw hs
  refine ⟨h.size, h.front, h.back, fun i hi => ?_, h.forward⟩
  rw [at?, toSize_natCast (by omega), h.elements]

theorem rtake_append_rtake (l xs : List T) (n : Nat) : (l.rtake n ++ xs).rtake n = (l ++ xs).rtake n := by
  simp only [List.rtake, List.length_append, List.length_drop]
  rw [← List.drop_append_of_le_length (Nat.sub_le _ _), List.drop_drop]
  congr 1
  omega

theorem foldlM_emplaceBack (hb : Keeps b c n l) (xs : List T) (hs : n + xs.length < 2 ^ 31) :
    ∃ b', xs.foldlM (RingBuffer.emplaceBack (kind t)) b = some b' ∧
      Keeps b' c (n + xs.length) ((l ++ xs).rtake c) := by
  induction xs generalizing b n l with
  | nil =>
    refine ⟨b, rfl, ?_⟩
    have hlen := hb.length_le.1
    rwa [List.append_nil, List.rtake, Nat.sub_eq_zero_of_le hlen]
  | cons x xs ih =>
    rw [List.length_cons] at hs
    obtain ⟨b₁, h₁, hb₁⟩ := hb.emplaceBack (.inr (by omega)) t x
    obtain ⟨b₂, h₂, hb₂⟩ := ih hb₁ (by omega)
    refine ⟨b₂, ?_, ?_⟩
    · rw [List.foldlM_cons, h₁]
      exact h₂
    · rw [rtake_append_rtake, List.append_assoc] at hb₂
      rwa [List.length_cons, show n + (xs.length + 1) = n + 1 + xs.length by omega]

theorem clear_isSome (hb : Keeps b c n l) (hs : Small c n) : ∃ b', Window.clear (kind t) b = some b' := by
  cases t with
  | true => exact ⟨b, rfl⟩
  | false =>
    obtain ⟨b', h, -⟩ := hb.clear hs
    exact ⟨b', h⟩

variable [Inhabited T]

theorem resize (hw : Has w s) (hs : Small s.limit s.count) (hn : 0 < n) :
    ∃ w', w.resize (kind t) n = some w' ∧ Has w' (Op.replay s (.resize n)) := by
  have hlen := Keeps.length_le hw
  obtain ⟨b', hfold, hb'⟩ := foldlM_emplaceBack (t := t) (Keeps.make hn) s.items
    (show 0 + s.items.length < 2 ^ 31 by obtain hs | hs := hs <;> omega)
  obtain ⟨b'', hclear⟩ := clear_isSome (t := t) hw hs
  rw [Nat.zero_add, List.nil_append] at hb'
  refine ⟨⟨b', n⟩, ?_, hb'⟩
  simp [FixedWindow.resize, (hw.shows hs).forEach, hfold, hclear]

/-- What a step needs: a clear of a trivially destructible type finds nothing. -/
theorem step (hw : Has w s) (op : Op T) (hs : Small s.limit s.count) (hclear : op = .clear → t → s.items = [])
    (hn : ∀ n, op = .resize n → 0 < n) : ∃ w', op.step (kind t) w = some w' ∧ Has w' (op.replay s) := by
  cases op with
  | emplaceBack x =>
    obtain ⟨b', hpush, hb'⟩ := Keeps.emplaceBack hw hs t x
    exact ⟨{ w with buffer := b' }, by simp [Op.step, FixedWindow.emplaceBack, hpush], hb'⟩
  | resize n => exact hw.resize hs (hn n rfl)
  | clear =>
    cases t with
    | true =>
      refine ⟨w, rfl, ?_⟩
      have hnil := hclear rfl rfl
      rw [Has, hnil] at hw
      exact hw
    | false =>
      obtain ⟨b', h, hb'⟩ := Keeps.clear hw hs
      exact ⟨{ w with buffer := b' }, by simp [Op.step, FixedWindow.clear, h], hb'⟩

end Has

section Spec

variable [Inhabited T]

theorem run_concat : run (kind t) c (ops ++ [op]) = (run (kind t) c ops).bind fun w => op.step (kind t) w :=
  foldlM_concat _ _ _ _

omit [Inhabited T] in
theorem content_concat : content c (ops ++ [op]) = op.replay (content c ops) := by
  rw [content, List.foldl_append]
  rfl

omit [Inhabited T] in
theorem Careful.mono {p : List (Op T)} (h : Careful t c ops) (hp : p <+: ops) : Careful t c p :=
  ⟨fun q hq => h.clear q (hq.trans hp), fun q hq => h.small q (hq.trans hp)⟩

theorem exists_run (hc : 0 < c) (hops : ∀ n, .resize n ∈ ops → 0 < n) (hcareful : Careful t c ops) :
    ∃ w, run (kind t) c ops = some w ∧ w.Has (content c ops) := by
  induction ops using List.reverseRecOn with
  | nil => exact ⟨_, rfl, Keeps.make hc⟩
  | append_singleton ops op ih =>
    have hold := List.prefix_append ops [op]
    obtain ⟨w, hrun, hw⟩ := ih (fun n hn => hops n (hold.subset hn)) (hcareful.mono hold)
    obtain ⟨w', hstep, hw'⟩ := hw.step op (t := t) (hcareful.small ops hold)
      (fun hop => hcareful.clear ops (hop ▸ List.prefix_rfl)) (fun n hn => hops n (by simp [hn]))
    refine ⟨w', ?_, ?_⟩
    · rw [run_concat, hrun, Option.bind_some, hstep]
    · rwa [content_concat]

theorem Careful.concat (hc : 0 < c) (hops : ∀ n, .resize n ∈ ops → 0 < n) (hcareful : Careful t c ops)
    (hright : Right (kind t) c (ops ++ [op])) : Careful t c (ops ++ [op]) := by
  obtain ⟨w, hrun, hw⟩ := exists_run hc hops hcareful
  have hs := hcareful.small ops List.prefix_rfl
  obtain ⟨w', hrun', hshows⟩ := hright
  rw [run_concat, hrun, Option.bind_some] at hrun'
  rw [content_concat] at hshows
  refine ⟨fun p hp ht => ?_, fun p hp => ?_⟩
  · obtain hp | hp := List.prefix_concat_iff.1 hp
    · obtain ⟨rfl, hop⟩ := List.append_inj' hp rfl
      obtain rfl := List.singleton_inj.1 hop
      obtain rfl : t = true := ht
      -- the items are all there
      cases hrun'
      have hsize := (hw.shows hs).size
      rw [hshows.size] at hsize
      exact List.eq_nil_of_length_eq_zero hsize.symm
    · exact hcareful.clear p hp ht
  · obtain rfl | hp := List.prefix_concat_iff.1 hp
    · rw [content_concat]
      cases op with
      | emplaceBack x =>
        obtain ⟨b', hpush, hb'⟩ := Keeps.emplaceBack hw hs t x
        obtain rfl : { w with buffer := b' } = w' := by
          simpa [Op.step, FixedWindow.emplaceBack, hpush] using hrun'
        rw [rtake_concat (Keeps.pos hw) (Keeps.length_le hw).1] at hb'
        exact hb'.small_of_traverse hs hshows.forEach
      | resize n =>
        have hlen := Keeps.length_le hw
        change Small n (content c ops).items.length
        right
        obtain hs | hs := hs <;> omega
      | clear => exact hs
    · exact hcareful.small p hp

/-- The window keeps the last items if and only if the sequence is careful. -/
theorem shows_iff_careful (trivial : Bool) (hc : 0 < c) (hops : ∀ n, .resize n ∈ ops → 0 < n) :
    (∀ p, p <+: ops → Right (kind trivial) c p) ↔ Careful trivial c ops := by
  constructor
  · intro hright
    induction ops using List.reverseRecOn with
    | nil =>
      refine ⟨fun p hp => by simp at hp, fun p hp => ?_⟩
      rw [List.prefix_nil.1 hp]
      exact .inr (by decide : 0 < 2 ^ 31)
    | append_singleton ops op ih =>
      have hold := List.prefix_append ops [op]
      have hcareful := ih (fun n hn => hops n (hold.subset hn)) fun p hp => hright p (hp.trans hold)
      exact hcareful.concat hc (fun n hn => hops n (hold.subset hn)) (hright _ List.prefix_rfl)
  · intro hcareful p hp
    obtain ⟨w, hrun, hw⟩ := exists_run hc (fun n hn => hops n (hp.subset hn)) (hcareful.mono hp)
    exact ⟨w, hrun, hw.shows (hcareful.small p hp)⟩

/-- Three items, of which the last one stays, and none. -/
theorem shows_iff_careful_five : 0 < 2 ∧ (∀ n, .resize n ∈
      [Op.emplaceBack 5, .emplaceBack 6, .emplaceBack 7, .resize 1, .clear] → 0 < n) ∧
    ((∀ p, p <+: [Op.emplaceBack 5, .emplaceBack 6, .emplaceBack 7, .resize 1, .clear] → Right (kind false) 2 p) ↔
      Careful false 2 [Op.emplaceBack 5, .emplaceBack 6, .emplaceBack 7, .resize 1, .clear]) := by
  have hops : ∀ n, .resize n ∈ [Op.emplaceBack 5, .emplaceBack 6, .emplaceBack 7, .resize 1, .clear] → 0 < n := by
    simp
  exact ⟨by decide, hops, shows_iff_careful false (by decide) hops⟩

/-- An integer is left after `clear`. -/
theorem not_right_of_clear : 0 < 2 ∧ (∀ n, .resize n ∈ [Op.emplaceBack 5, .clear] → 0 < n) ∧
    ¬ Right (kind true) 2 [Op.emplaceBack 5, .clear] := by
  refine ⟨by decide, by simp, ?_⟩
  rintro ⟨w, hrun, hshows⟩
  have hsize : (run (kind true) 2 [Op.emplaceBack 5, .clear]).map size = some 1 := by decide +kernel
  rw [hrun, Option.map_some, hshows.size] at hsize
  exact absurd hsize (by decide)

end Spec

end FixedWindow

end Wizard
