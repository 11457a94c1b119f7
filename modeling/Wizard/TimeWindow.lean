import Mathlib.Data.List.Induction
import Mathlib.Data.List.TakeWhile
import Wizard.Runs
import Wizard.WindowBuffer

/-! The window of the recent items. An item that comes in pushes out the oldest one when the
buffer is full, and then all that are too old. -/

namespace Wizard

structure ItemHolder (T : Type) where
  timestamp : Int
  value : T
deriving Inhabited, DecidableEq

structure TimeWindow (T : Type) where
  buffer : RingBuffer (ItemHolder T)
  endTimestamp : Int
  windowGap : Nat

namespace TimeWindow

open RingBuffer Window

variable {T : Type}

section Model

/-- A difference of two `int64_t`s. -/
def sub (a b : Int) : Option Int := if -2 ^ 63 ≤ a - b ∧ a - b < 2 ^ 63 then some (a - b) else none

/-- A `size_t` as an `int64_t`. -/
def toInt64 (n : Nat) : Int := (n : Int).bmod (2 ^ 64)

def make [Inhabited T] (windowGap capacity : Nat) : TimeWindow T := ⟨Window.make capacity, 0, windowGap⟩

/-- The loop of `remove_expired_data`. -/
def removeLoop (k : Kind) : Nat → TimeWindow T → Option (TimeWindow T)
  | 0, _ => none
  | fuel + 1, w =>
    if w.buffer.empty then some w else do
      let item ← w.buffer.front
      if toInt64 w.windowGap < (← sub w.endTimestamp item.timestamp) then
        removeLoop k fuel { w with buffer := ← w.buffer.popFront k }
      else some w

def removeExpiredData (k : Kind) (w : TimeWindow T) : Option (TimeWindow T) := removeLoop k (w.buffer.size + 1) w

def emplaceBack (k : Kind) (w : TimeWindow T) (ts : Int) (value : T) : Option (TimeWindow T) := do
  let b ← w.buffer.emplaceBack k ⟨ts, value⟩
  removeExpiredData k { w with buffer := b, endTimestamp := ts }

/-- The items that `for_each` hands to its callback. -/
def forEach (w : TimeWindow T) : Option (List (ItemHolder T)) := w.buffer.traverse w.buffer.begin w.buffer.end'

/-- `i` is an `int`. -/
def at? (w : TimeWindow T) (i : Int) : Option T := (w.buffer.at? (toSize i)).map ItemHolder.value

def front (w : TimeWindow T) : Option T := w.buffer.front.map ItemHolder.value

def back (w : TimeWindow T) : Option T := w.buffer.back.map ItemHolder.value

def size (w : TimeWindow T) : Nat := w.buffer.size

def run [Inhabited T] (k : Kind) (windowGap capacity : Nat) (items : List (ItemHolder T)) : Option (TimeWindow T) :=
  items.foldlM (fun w x => w.emplaceBack k x.timestamp x.value) (make windowGap capacity)

end Model

/-- At most `c` items, none of them more than `gap` older than the latest one of `items`. -/
structure Fits (c gap : Nat) (items l : List (ItemHolder T)) : Prop where
  length_le : l.length ≤ c
  near : ∀ y, items.getLast? = some y → ∀ x ∈ l, y.timestamp - x.timestamp ≤ gap

/-- `l` is the longest end of `items` that fits. -/
structure Recent (c gap : Nat) (items l : List (ItemHolder T)) : Prop where
  suffix : l <:+ items
  fits : Fits c gap items l
  longest : ∀ l', l' <:+ items → Fits c gap items l' → l' <:+ l

/-- What the window shows of its content. -/
structure Shows (w : TimeWindow T) (l : List (ItemHolder T)) : Prop where
  size : w.size = l.length
  front : w.front = l.head?.map ItemHolder.value
  back : w.back = l.getLast?.map ItemHolder.value
  elements : ∀ i < 2 ^ 31, w.at? (i : Nat) = l[i]?.map ItemHolder.value
  forEach : w.forEach = some l

def Right [Inhabited T] (k : Kind) (gap c : Nat) (items : List (ItemHolder T)) : Prop :=
  ∃ w l, run k gap c items = some w ∧ Recent c gap items l ∧ Shows w l

/-- Timestamps do not go back, and their differences are `int64_t`s. -/
def Ordered (items : List (ItemHolder T)) : Prop :=
  items.Pairwise fun x y => x.timestamp ≤ y.timestamp ∧ y.timestamp - x.timestamp < 2 ^ 63

section Expiry

variable {c gap : Nat} {items l l' : List (ItemHolder T)} {x y : ItemHolder T}

/-- What `remove_expired_data` leaves. -/
def expire (gap : Nat) (ts : Int) (l : List (ItemHolder T)) : List (ItemHolder T) :=
  l.dropWhile fun y => gap < ts - y.timestamp

theorem expire_suffix (gap : Nat) (ts : Int) (l : List (ItemHolder T)) : expire gap ts l <:+ l :=
  List.dropWhile_suffix _

theorem near_of_mem_expire {ts : Int} (hl : l.Pairwise fun x y => x.timestamp ≤ y.timestamp)
    (hy : y ∈ expire gap ts l) : ts - y.timestamp ≤ gap := by
  induction l with
  | nil => cases hy
  | cons z l ih =>
    rw [List.pairwise_cons] at hl
    by_cases hz : (gap : Int) < ts - z.timestamp
    · rw [expire, List.dropWhile_cons_of_pos (by simpa using hz)] at hy
      exact ih hl.2 hy
    · rw [expire, List.dropWhile_cons_of_neg (by simpa using hz)] at hy
      obtain rfl | hy := List.mem_cons.1 hy
      · omega
      · have hle := hl.1 y hy
        omega

/-- An end of the list whose items are near is not touched. -/
theorem suffix_expire {ts : Int} (h : l' <:+ l) (hnear : ∀ y ∈ l', ts - y.timestamp ≤ gap) :
    l' <:+ expire gap ts l := by
  induction l with
  | nil => exact h
  | cons z l ih =>
    by_cases hz : (gap : Int) < ts - z.timestamp
    · rw [expire, List.dropWhile_cons_of_pos (by simpa using hz)]
      obtain rfl | h := List.suffix_cons_iff.1 h
      · have hle := hnear z List.mem_cons_self
        omega
      · exact ih h
    · rwa [expire, List.dropWhile_cons_of_neg (by simpa using hz)]

/-- The window after one more item. -/
theorem Recent.concat (hr : Recent c gap items l)
    (hsorted : (items ++ [x]).Pairwise fun x y => x.timestamp ≤ y.timestamp) :
    Recent c gap (items ++ [x]) (expire gap x.timestamp ((l ++ [x]).rtake c)) := by
  have hlast : ∀ y, (items ++ [x]).getLast? = some y → y = x := by
    intro y hy
    rw [List.getLast?_concat] at hy
    exact (Option.some.inj hy).symm
  have hend : (l ++ [x]).rtake c <:+ items ++ [x] :=
    (List.drop_suffix _ _).trans (List.suffix_append_self_iff.2 hr.suffix)
  have hlen : ((l ++ [x]).rtake c).length ≤ c := by
    rw [List.rtake, List.length_drop]
    omega
  have hsuffix := expire_suffix gap x.timestamp ((l ++ [x]).rtake c)
  refine ⟨hsuffix.trans hend, ⟨hsuffix.length_le.trans hlen, fun y hy z hz => ?_⟩, fun l' hl' hfits => ?_⟩
  · rw [hlast y hy]
    exact near_of_mem_expire (hsorted.sublist hend.sublist) hz
  · refine suffix_expire ?_ (hfits.near x (List.getLast?_concat ..))
    have hconcat : l' <:+ l ++ [x] := by
      obtain rfl | ⟨t, rfl, ht⟩ := List.suffix_concat_iff.1 hl'
      · exact List.nil_suffix
      · -- without the new item it would have fitted before
        refine List.suffix_append_self_iff.2 (hr.longest t ht ⟨?_, fun y hy z hz => ?_⟩)
        · have := hfits.length_le
          rw [List.length_append] at this
          omega
        · have hle := (List.pairwise_append.1 hsorted).2.2 y (List.mem_of_getLast? hy) x (by simp)
          have hz' := hfits.near x (List.getLast?_concat ..) z (List.mem_append_left _ hz)
          omega
    refine List.suffix_of_suffix_length_le hconcat (List.drop_suffix _ _) ?_
    have hle := hfits.length_le
    have hle' := hconcat.length_le
    rw [List.rtake, List.length_drop]
    omega

end Expiry

section Steps

variable {c n gap fuel : Nat} {t : Bool} {items l : List (ItemHolder T)} {w : TimeWindow T} {x : ItemHolder T}

theorem toInt64_of_lt (hgap : gap < 2 ^ 63) : toInt64 gap = gap :=
  Int.bmod_eq_of_le (by omega) (by omega)

/-- The loop stops at the latest item at last. -/
theorem removeLoop_eq (hw : Keeps w.buffer c (n + 1) l) (hs : Small c n) (hgap : w.windowGap < 2 ^ 63)
    (hsub : ∀ y ∈ l, 0 ≤ w.endTimestamp - y.timestamp ∧ w.endTimestamp - y.timestamp < 2 ^ 63)
    (hlast : ∀ y, l.getLast? = some y → y.timestamp = w.endTimestamp) (hf : l.length < fuel) :
    ∃ b, removeLoop (kind t) fuel w = some { w with buffer := b } ∧
      Keeps b c (n + 1) (expire w.windowGap w.endTimestamp l) := by
  induction l generalizing w fuel with
  | nil =>
    obtain ⟨fuel, rfl⟩ : ∃ m, fuel = m + 1 := ⟨fuel - 1, by simp at hf; omega⟩
    exact ⟨w.buffer, by rw [removeLoop, hw.empty_eq]; rfl, hw⟩
  | cons y l ih =>
    obtain ⟨fuel, rfl⟩ : ∃ m, fuel = m + 1 := ⟨fuel - 1, by simp at hf; omega⟩
    obtain ⟨hle, hlt⟩ := hsub y List.mem_cons_self
    have hne : w.buffer.empty = false := hw.empty_eq
    have hfront : w.buffer.front = some y := hw.front_eq hs
    have hdiff : sub w.endTimestamp y.timestamp = some (w.endTimestamp - y.timestamp) := if_pos (by omega)
    rw [removeLoop, hne]
    simp only [Bool.false_eq_true, if_false, hfront, hdiff, toInt64_of_lt hgap, Option.bind_eq_bind, Option.bind_some]
    by_cases hold : (w.windowGap : Int) < w.endTimestamp - y.timestamp
    · have hl : l ≠ [] := by
        rintro rfl
        have := hlast y rfl
        omega
      have hlen : 0 < l.length := List.length_pos_of_ne_nil hl
      obtain ⟨b, hpop, hb⟩ := hw.popFront (k := kind t) (hs.mono (by omega))
      obtain ⟨b', hloop, hb'⟩ := ih (w := { w with buffer := b }) hb hgap
        (fun z hz => hsub z (List.mem_cons_of_mem y hz))
        (fun z hz => hlast z (by rw [List.getLast?_cons_of_ne_nil hl]; exact hz)) (by simpa using hf)
      refine ⟨b', ?_, ?_⟩
      · rw [if_pos hold, hpop]
        exact hloop
      · rwa [expire, List.dropWhile_cons_of_pos (by simpa using hold)]
    · refine ⟨w.buffer, if_neg hold, ?_⟩
      rwa [expire, List.dropWhile_cons_of_neg (by simpa using hold)]

theorem emplaceBack_eq (hw : Keeps w.buffer c n l) (hs : Small c n) (hgap : w.windowGap < 2 ^ 63)
    (hsub : ∀ y ∈ l, 0 ≤ x.timestamp - y.timestamp ∧ x.timestamp - y.timestamp < 2 ^ 63) :
    ∃ w', w.emplaceBack (kind t) x.timestamp x.value = some w' ∧ w'.windowGap = w.windowGap ∧
      Keeps w'.buffer c (n + 1) (expire w.windowGap x.timestamp ((l ++ [x]).rtake c)) := by
  obtain ⟨b, hpush, hb⟩ := hw.emplaceBack hs t x
  have hmem : ∀ y ∈ (l ++ [x]).rtake c, y ∈ l ∨ y = x := by
    intro y hy
    have hy' := (List.drop_suffix _ _).subset hy
    simpa using hy'
  have hsize : b.size = ((l ++ [x]).rtake c).length := by
    obtain ⟨-, p, hb, -⟩ := hb
    exact hb.size
  have hlast : ∀ y, ((l ++ [x]).rtake c).getLast? = some y → y.timestamp = x.timestamp := by
    intro y hy
    rw [rtake_concat hw.pos hw.length_le.1, List.getLast?_concat] at hy
    rw [Option.some.inj hy]
  obtain ⟨b', hloop, hb'⟩ := removeLoop_eq (w := { w with buffer := b, endTimestamp := x.timestamp }) (t := t) hb hs
    hgap (fun y hy => by
      obtain hy | rfl := hmem y hy
      · exact hsub y hy
      · change 0 ≤ y.timestamp - y.timestamp ∧ y.timestamp - y.timestamp < 2 ^ 63
        omega) hlast (show _ < b.size + 1 by omega)
  refine ⟨{ w with buffer := b', endTimestamp := x.timestamp }, ?_, rfl, hb'⟩
  rw [emplaceBack, hpush]
  exact hloop

theorem shows_of_keeps (hw : Keeps w.buffer c n l) (hs : Small c n) : Shows w l := by
  have h := hw.shows hs
  refine ⟨h.size, congrArg _ h.front, congrArg _ h.back, fun i hi => ?_, h.forward⟩
  rw [at?, toSize_natCast (by omega), h.elements]

variable [Inhabited T]

theorem run_concat : run (kind t) gap c (items ++ [x]) =
    (run (kind t) gap c items).bind fun w => w.emplaceBack (kind t) x.timestamp x.value :=
  foldlM_concat _ _ _ _

theorem exists_run (hgap : gap < 2 ^ 63) (hc : 0 < c) (hts : Ordered items) (hs : Small c (items.length - 1)) :
    ∃ w l, run (kind t) gap c items = some w ∧ Keeps w.buffer c items.length l ∧ w.windowGap = gap ∧
      Recent c gap items l := by
  induction items using List.reverseRecOn with
  | nil =>
    refine ⟨_, [], rfl, Keeps.make hc, rfl, List.nil_suffix, ⟨Nat.zero_le c, fun y hy x hx => ?_⟩, fun l' hl' _ => hl'⟩
    cases hx
  | append_singleton items x ih =>
    rw [List.length_append, List.length_singleton, Nat.add_sub_cancel] at hs
    obtain ⟨hold, -, hx⟩ := List.pairwise_append.1 hts
    obtain ⟨w, l, hrun, hw, rfl, hr⟩ := ih hold (hs.mono (Nat.sub_le _ _))
    obtain ⟨w', hpush, hgap', hw'⟩ := emplaceBack_eq (x := x) (t := t) hw hs hgap fun y hy => by
      have h := hx y (hr.suffix.subset hy) x (by simp)
      omega
    refine ⟨w', _, ?_, ?_, hgap', hr.concat (hts.imp And.left)⟩
    · rw [run_concat, hrun, Option.bind_some, hpush]
    · rwa [List.length_append]

end Steps

section Spec

variable [Inhabited T] {c gap : Nat} {items : List (ItemHolder T)}

/-- `for_each` passes the last of the items, wherever it is. -/
theorem small_of_right {t : Bool} (hgap : gap < 2 ^ 63) (hc : 0 < c) (hts : Ordered items)
    (hright : ∀ p, p <+: items → Right (kind t) gap c p) : Small c items.length := by
  by_contra hno
  rw [Window.Small, not_or, not_lt, not_lt] at hno
  have hp := List.take_prefix (2 ^ 31) items
  have hlen : (items.take (2 ^ 31)).length = 2 ^ 31 := List.length_take_of_le hno.2
  generalize items.take (2 ^ 31) = p at hp hlen
  obtain ⟨w, l, hrun, hw, -, hr⟩ := exists_run (t := t) hgap hc (hts.sublist hp.sublist)
    (.inr (by rw [hlen]; decide))
  -- the window ends with the last item
  have hne : p ≠ [] := by
    rintro rfl
    cases hlen
  have hend : [p.getLast hne] <:+ l := by
    refine hr.longest _ (List.singleton_suffix_iff_getLast?_eq_some.2 (List.getLast?_eq_some_getLast hne))
      ⟨hc, fun y hy x hx => ?_⟩
    rw [List.getLast?_eq_some_getLast hne] at hy
    rw [List.mem_singleton.1 hx, Option.some.inj hy]
    omega
  obtain ⟨u, rfl⟩ := hend
  obtain ⟨w', l', hrun', -, hshows⟩ := hright p hp
  rw [hrun] at hrun'
  cases hrun'
  rw [hlen, show 2 ^ 31 = (2 ^ 31 - 1) + 1 by decide] at hw
  obtain h | h := hw.small_of_traverse (.inr (by decide)) hshows.forEach
  · omega
  · exact absurd h (by decide)

/-- The window keeps the recent items if and only if no index passes the largest `int`. -/
theorem right_iff_small (trivial : Bool) (hgap : gap < 2 ^ 63) (hc : 0 < c) (hts : Ordered items) :
    (∀ p, p <+: items → Right (kind trivial) gap c p) ↔ c < 2 ^ 31 ∨ items.length < 2 ^ 31 := by
  refine ⟨small_of_right hgap hc hts, fun hs p hp => ?_⟩
  have hs' : Small c p.length := hs.imp_right hp.length_le.trans_lt
  obtain ⟨w, l, hrun, hw, -, hr⟩ := exists_run (t := trivial) hgap hc (hts.sublist hp.sublist)
    (hs'.mono (Nat.sub_le _ _))
  exact ⟨w, l, hrun, hr, shows_of_keeps hw hs'⟩

/-- The third item comes more than 4 after both of the others. -/
theorem right_iff_small_three : (4 < 2 ^ 63 ∧ 0 < 2) ∧ Ordered [⟨0, 5⟩, ⟨3, 6⟩, ⟨9, 7⟩] ∧
    ((∀ p, p <+: [⟨0, 5⟩, ⟨3, 6⟩, ⟨9, 7⟩] → Right (T := Nat) (kind true) 4 2 p) ↔
      2 < 2 ^ 31 ∨ [(⟨0, 5⟩ : ItemHolder Nat), ⟨3, 6⟩, ⟨9, 7⟩].length < 2 ^ 31) := by
  have hts : Ordered [(⟨0, 5⟩ : ItemHolder Nat), ⟨3, 6⟩, ⟨9, 7⟩] := by simp [Ordered]
  exact ⟨by decide, hts, right_iff_small true (by decide) (by decide) hts⟩

/-- The item of the call number `2 ^ 31` is in the slot of the largest `int`. -/
theorem not_right_of_large : (10 < 2 ^ 63 ∧ 0 < 2 ^ 31) ∧ Ordered (List.replicate (2 ^ 31) (⟨0, 5⟩ : ItemHolder Nat)) ∧
    ¬ ∀ p, p <+: List.replicate (2 ^ 31) (⟨0, 5⟩ : ItemHolder Nat) → Right (kind true) 10 (2 ^ 31) p := by
  have hts : Ordered (List.replicate (2 ^ 31) (⟨0, 5⟩ : ItemHolder Nat)) :=
    List.pairwise_replicate.2 (.inr ⟨le_refl _, by decide⟩)
  refine ⟨by decide, hts, fun hright => ?_⟩
  obtain h | h := small_of_right (by decide) (by decide) hts hright
  · exact absurd h (by decide)
  · rw [List.length_replicate] at h
    exact absurd h (by decide)

end Spec

end TimeWindow

end Wizard
