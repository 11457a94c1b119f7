import Wizard.HashMap

/-! The chains of a bucket list, and what one link store does to them. -/

namespace Wizard.HashMap

variable {Key Value : Type}

namespace SegmentT

section Stores

variable (s : SegmentT Key Value) (loc : Loc) (p : Option Nat)

@[simp] theorem key_write : (s.write loc p).key = s.key := by
  funext n
  cases loc with
  | head l b => rfl
  | next m => by_cases hn : n = m <;> simp [key, write, hn]

@[simp] theorem value_write : (s.write loc p).value = s.value := by
  funext n
  cases loc with
  | head l b => rfl
  | next m => by_cases hn : n = m <;> simp [value, write, hn]

@[simp] theorem bucketCount_write (l : Nat) :
    ((s.write loc p).list l).bucketCount = (s.list l).bucketCount := by
  cases loc with
  | head l' b => by_cases hl : l = l' <;> simp [write, hl]
  | next m => rfl

theorem read_write (loc' : Loc) : (s.write loc p).read loc' = if loc' = loc then p else s.read loc' := by
  cases loc with
  | head l b =>
    cases loc' with
    | head l' b' =>
      by_cases hl : l' = l
      · by_cases hb : b' = b <;> simp [read, write, hl, hb]
      · simp [read, write, hl]
    | next n => simp [read, write, next]
  | next m =>
    cases loc' with
    | head l' b' => simp [read, write]
    | next n => by_cases hn : n = m <;> simp [read, write, next, hn]

theorem next_write (n : Nat) : (s.write loc p).next n = if .next n = loc then p else s.next n :=
  s.read_write loc p (.next n)

@[simp] theorem nodeCount_write : (s.write loc p).nodeCount = s.nodeCount := by
  cases loc <;> rfl

@[simp] theorem listCount_write : (s.write loc p).listCount = s.listCount := by
  cases loc <;> rfl

@[simp] theorem bucketList_write : (s.write loc p).bucketList = s.bucketList := by
  cases loc <;> rfl

@[simp] theorem size_write : (s.write loc p).size = s.size := by
  cases loc <;> rfl

@[simp] theorem threshold_write : (s.write loc p).threshold = s.threshold := by
  cases loc <;> rfl

end Stores

theorem bucketId_lt (c : Config Key) {count : BitVec 64} (h : 0 < count.toNat) (k : Key) :
    bucketId c count k < count.toNat := by
  have hm : (count - 1).toNat = count.toNat - 1 := BitVec.toNat_sub_of_le (by bv_omega)
  have hle : bucketId c count k ≤ (count - 1).toNat := by
    rw [bucketId, BitVec.toNat_and]
    exact Nat.and_le_right
  omega

/-- The location reached from `loc` past the nodes of a list. -/
def lastLoc (loc : Loc) : List Nat → Loc
  | [] => loc
  | a :: l => lastLoc (.next a) l

theorem lastLoc_next (a : Nat) (l : List Nat) : ∃ x ∈ a :: l, lastLoc (.next a) l = .next x := by
  induction l generalizing a with
  | nil => exact ⟨a, by simp, rfl⟩
  | cons b l ih =>
    obtain ⟨x, hx, he⟩ := ih b
    exact ⟨x, List.mem_cons_of_mem _ hx, he⟩

theorem lastLoc_cases (loc : Loc) (l : List Nat) : lastLoc loc l = loc ∨ ∃ x ∈ l, lastLoc loc l = .next x := by
  cases l with
  | nil => exact .inl rfl
  | cons a l => exact .inr (lastLoc_next a l)

theorem next_ne_lastLoc {l b n : Nat} {pre : List Nat} (hn : n ∉ pre) :
    Loc.next n ≠ lastLoc (.head l b) pre := by
  intro he
  obtain hc | ⟨x, hx, hc⟩ := lastLoc_cases (.head l b) pre <;> rw [hc] at he <;> cases he
  exact hn hx

theorem head_ne_lastLoc {l l' b b' : Nat} {pre : List Nat} (hb : Loc.head l' b' ≠ .head l b) :
    Loc.head l' b' ≠ lastLoc (.head l b) pre := by
  obtain hc | ⟨x, hx, hc⟩ := lastLoc_cases (.head l b) pre
  · rwa [hc]
  · rw [hc]
    rintro ⟨⟩

theorem read_lastLoc {s : SegmentT Key Value} {loc : Loc} {pre : List Nat} {q : Option Nat}
    (h : Segment s.next (s.read loc) pre q) : s.read (lastLoc loc pre) = q := by
  induction pre generalizing loc with
  | nil => exact h
  | cons a pre ih => exact ih h.2

theorem write_segment {s : SegmentT Key Value} {loc : Loc} {pre : List Nat} {q : Option Nat}
    (h : Segment s.next (s.read loc) pre q) (hnd : pre.Nodup) (hloc : ∀ a ∈ pre, loc ≠ .next a)
    (p : Option Nat) :
    Segment (s.write (lastLoc loc pre) p).next ((s.write (lastLoc loc pre) p).read loc) pre p := by
  induction pre generalizing loc with
  | nil => simp [lastLoc, Segment, read_write]
  | cons a pre ih =>
    obtain ⟨ha, hpre⟩ := h
    rw [List.nodup_cons] at hnd
    have hne : ∀ x ∈ pre, Loc.next a ≠ .next x := by
      rintro x hx ⟨⟩
      exact hnd.1 hx
    refine ⟨?_, ih hpre hnd.2 hne⟩
    obtain ⟨x, hx, he⟩ := lastLoc_next a pre
    rw [read_write, lastLoc, he, if_neg (hloc x hx), ha]

section Loops

variable [DecidableEq Key] {s : SegmentT Key Value} {k : Key}

theorem search_eq_some {loc prev : Loc} {fuel n : Nat} (h : s.search k loc fuel = some (prev, n)) :
    ∃ pre, Segment s.next (s.read loc) pre (some n) ∧ prev = lastLoc loc pre ∧ s.key n = k ∧
      ∀ a ∈ pre, s.key a ≠ k := by
  induction fuel generalizing loc with
  | zero => cases h
  | succ fuel ih =>
    rw [search] at h
    cases hr : s.read loc with
    | none => simp [hr] at h
    | some m =>
      simp only [hr] at h
      split at h
      · rename_i hk
        cases h
        exact ⟨[], rfl, rfl, hk, by simp⟩
      · rename_i hk
        obtain ⟨pre, hpre, hprev, hn, hne⟩ := ih h
        exact ⟨m :: pre, ⟨rfl, hpre⟩, hprev, hn, List.forall_mem_cons.2 ⟨hk, hne⟩⟩

theorem search_eq_none {loc : Loc} {fuel : Nat} {l : List Nat} (h : s.search k loc fuel = none)
    (hl : Segment s.next (s.read loc) l none) (hlen : l.length ≤ fuel) : ∀ a ∈ l, s.key a ≠ k := by
  induction fuel generalizing loc l with
  | zero => simp [List.length_eq_zero_iff.1 (Nat.le_zero.1 hlen)]
  | succ fuel ih =>
    cases l with
    | nil => simp
    | cons a l =>
      rw [search, hl.1] at h
      simp only at h
      split at h
      · cases h
      · rename_i hk
        exact List.forall_mem_cons.2 ⟨hk, ih h hl.2 (by simpa using hlen)⟩

theorem findNode_of_segment {p : Option Nat} {fuel : Nat} {l : List Nat}
    (hl : Segment s.next p l none) (hlen : l.length ≤ fuel) :
    s.findNode k p fuel = l.find? (fun a => s.key a = k) := by
  induction l generalizing p fuel with
  | nil =>
    have hp : p = none := hl
    simp [hp, findNode]
  | cons a l ih =>
    obtain ⟨rfl, hl⟩ := hl
    cases fuel with
    | zero => simp at hlen
    | succ fuel =>
      by_cases hk : s.key a = k
      · simp [findNode, hk]
      · rw [findNode, if_neg hk, ih hl (by simpa using hlen)]
        simp [hk]

end Loops

end SegmentT

open SegmentT

/-- What a walk along the chain from `q` would return for `k`, if the heap
stayed as it is. It meets only nodes of `V`. -/
inductive Finds (s : SegmentT Key Value) (V : Set Nat) (k : Key) : Option Nat → Option Value → Prop
  | missing : Finds s V k none none
  | found (n : Nat) (hV : n ∈ V) (hk : s.key n = k) : Finds s V k (some n) (some (s.value n))
  | next (n : Nat) (o : Option Value) (hV : n ∈ V) (hk : s.key n ≠ k)
      (h : Finds s V k (s.next n) o) : Finds s V k (some n) o

/-- The nodes of `V` read the same in both heaps. -/
def Agree (s s' : SegmentT Key Value) (V : Set Nat) : Prop :=
  ∀ n ∈ V, s'.next n = s.next n ∧ s'.key n = s.key n ∧ s'.value n = s.value n

/-- A walk for `k` under way, from a node or from the bucket list `l ∈ W`,
keeps its result from `s` to `s'` or gets the result `g k`. -/
structure Serves (c : Config Key) (s s' : SegmentT Key Value) (V V' W : Set Nat)
    (g : Key → Option Value) : Prop where
  node : ∀ k q o, Finds s V k q o → ∃ o', (o' = o ∨ o' = g k) ∧ Finds s' V' k q o'
  list : ∀ k, ∀ l ∈ W, ∀ o, Finds s V k (s.read (headOf c s l k)) o →
    ∃ o', (o' = o ∨ o' = g k) ∧ Finds s' V' k (s'.read (headOf c s' l k)) o'

section Walks

variable {c : Config Key} {s s' : SegmentT Key Value} {V V' W : Set Nat} {k : Key} {q : Option Nat}
  {o o' : Option Value}

theorem Finds.congr (h : Finds s V k q o) (ha : Agree s s' V) (hV : V ⊆ V') : Finds s' V' k q o := by
  induction h with
  | missing => exact .missing
  | found n hn hk =>
    have hh := ha n hn
    rw [← hh.2.2]
    exact .found n (hV hn) (hh.2.1.trans hk)
  | next n o hn hk h ih =>
    have hh := ha n hn
    exact .next n o (hV hn) (hh.2.1.symm ▸ hk) (hh.1.symm ▸ ih)

theorem Finds.unique (h : Finds s V k q o) (h' : Finds s V k q o') : o = o' := by
  induction h with
  | missing =>
    cases h'
    rfl
  | found n hn hk =>
    cases h' with
    | found _ _ _ => rfl
    | next _ _ _ hk' _ => exact absurd hk hk'
  | next n o hn hk h ih =>
    cases h' with
    | found _ _ hk' => exact absurd hk' hk
    | next _ _ _ _ h' => exact ih h'

theorem Serves.of_agree (ha : Agree s s' V) (hl : ∀ l ∈ W, s'.list l = s.list l) (hV : V ⊆ V')
    (g : Key → Option Value) : Serves c s s' V V' W g where
  node k q o h := ⟨o, .inl rfl, h.congr ha hV⟩
  list k l hlW o h := by
    refine ⟨o, .inl rfl, ?_⟩
    rw [headOf, SegmentT.read, hl l hlW]
    exact h.congr ha hV

variable [DecidableEq Key]

def lookup (s : SegmentT Key Value) (l : List Nat) (k : Key) : Option Value :=
  (l.find? (fun a => s.key a = k)).map s.value

theorem lookup_cons (n : Nat) (l : List Nat) :
    lookup s (n :: l) k = if s.key n = k then some (s.value n) else lookup s l k := by
  by_cases hk : s.key n = k <;> simp [lookup, hk]

theorem lookup_eq_none {l : List Nat} (h : ∀ n ∈ l, s.key n ≠ k) : lookup s l k = none := by
  simpa [lookup] using h

theorem lookup_eq_some_iff {l : List Nat} {v : Value} (h : (l.map s.key).Nodup) :
    lookup s l k = some v ↔ ∃ n ∈ l, s.key n = k ∧ s.value n = v := by
  induction l with
  | nil => simp [lookup]
  | cons a l ih =>
    rw [List.map_cons, List.nodup_cons] at h
    rw [lookup_cons]
    split
    · rename_i hk
      have hno : ∀ n ∈ l, s.key n ≠ k := fun n hn hkn =>
        h.1 (List.mem_map.2 ⟨n, hn, hkn.trans hk.symm⟩)
      constructor
      · rintro ⟨⟩
        exact ⟨a, by simp, hk, rfl⟩
      · rintro ⟨n, hn, hkn, rfl⟩
        obtain rfl | hn := List.mem_cons.1 hn
        · rfl
        · exact absurd hkn (hno n hn)
    · rename_i hk
      simp [ih h.2, hk, or_and_right, exists_or]

theorem Finds.of_segment {l : List Nat} (h : Segment s.next q l none) (hl : ∀ n ∈ l, n ∈ V) :
    Finds s V k q (lookup s l k) := by
  induction l generalizing q with
  | nil =>
    have hq : q = none := h
    rw [hq]
    exact .missing
  | cons a l ih =>
    obtain ⟨rfl, h⟩ := h
    rw [lookup_cons]
    rw [List.forall_mem_cons] at hl
    split
    · rename_i hk
      exact .found a hl.1 hk
    · rename_i hk
      exact .next a _ hl.1 hk (ih h hl.2)

/-- A walk that crosses the location written goes on along `mid` instead of `old`. -/
theorem Serves.write {loc : Loc} {p : Option Nat} {old mid : List Nat} {g : Key → Option Value}
    (hold : Segment s.next (s.read loc) old none) (holdV : ∀ n ∈ old, n ∈ V)
    (hmid : Segment (s.write loc p).next p mid none) (hmidV : ∀ n ∈ mid, n ∈ V') (hV : V ⊆ V')
    (hg : ∀ k, lookup s mid k = lookup s old k ∨ lookup s mid k = g k) :
    Serves c s (s.write loc p) V V' W g := by
  have hcross : ∀ k o, Finds s V k (s.read loc) o →
      ∃ o', (o' = o ∨ o' = g k) ∧ Finds (s.write loc p) V' k p o' := by
    intro k o h
    have hl : lookup (s.write loc p) mid k = lookup s mid k := by simp [lookup]
    refine ⟨_, ?_, .of_segment hmid hmidV⟩
    rw [hl, h.unique (.of_segment hold holdV)]
    exact hg k
  have hnode : ∀ k q o, Finds s V k q o →
      ∃ o', (o' = o ∨ o' = g k) ∧ Finds (s.write loc p) V' k q o' := by
    intro k q o h
    induction h with
    | missing => exact ⟨none, .inl rfl, .missing⟩
    | found n hn hk =>
      have hh := Finds.found (s := s.write loc p) n (hV hn) (by simpa using hk)
      exact ⟨_, .inl (by simp), hh⟩
    | next n o hn hk h ih =>
      have hk' : (s.write loc p).key n ≠ k := by simpa using hk
      by_cases he : Loc.next n = loc
      · obtain ⟨o', ho, hf⟩ := hcross k o (he ▸ h)
        refine ⟨o', ho, .next n o' (hV hn) hk' ?_⟩
        rwa [next_write, if_pos he]
      · obtain ⟨o', ho, hf⟩ := ih
        refine ⟨o', ho, .next n o' (hV hn) hk' ?_⟩
        rwa [next_write, if_neg he]
  refine ⟨hnode, fun k l _ o h => ?_⟩
  rw [headOf, bucketCount_write, read_write]
  split
  · rename_i he
    exact hcross k o (he ▸ h)
  · exact hnode k _ o h

end Walks

/-- The chain of every bucket of the list `l`, through nodes of `V`, and the
map they hold. -/
structure Chains (c : Config Key) (s : SegmentT Key Value) (l : Nat) (V : Set Nat)
    (ch : Nat → List Nat) (f : Key → Option Value) : Prop where
  pos : 0 < (s.list l).bucketCount.toNat
  linked : ∀ b, Segment s.next (s.read (.head l b)) (ch b) none
  mem : ∀ b, ∀ n ∈ ch b, n ∈ V
  index : ∀ b, ∀ n ∈ ch b, bucketId c (s.list l).bucketCount (s.key n) = b
  nodup : ∀ b, ((ch b).map s.key).Nodup
  content : ∀ k v, f k = some v ↔
    ∃ n ∈ ch (bucketId c (s.list l).bucketCount k), s.key n = k ∧ s.value n = v

/-- The list `l` holds `f'` after the store that leads from `s` to `s'`, and the
walks under way are served. -/
structure Relinked (c : Config Key) (s s' : SegmentT Key Value) (l : Nat) (V V' : Set Nat)
    (ch' : Nat → List Nat) (f' : Key → Option Value) : Prop where
  chains : Chains c s' l V' ch' f'
  serves : ∀ W, Serves c s s' V V' W f'

namespace Chains

variable {c : Config Key} {s s' : SegmentT Key Value} {l b : Nat} {V V' : Set Nat}
  {ch : Nat → List Nat} {f f' : Key → Option Value} {k : Key} {v : Value}

theorem congr (h : Chains c s l V ch f) (ha : Agree s s' V) (hl : s'.list l = s.list l)
    (hV : V ⊆ V') : Chains c s' l V' ch f where
  pos := hl ▸ h.pos
  linked b := by
    have hh := (h.linked b).congr (fun n hn => (ha n (h.mem b n hn)).1)
    simpa only [SegmentT.read, hl] using hh
  mem b n hn := hV (h.mem b n hn)
  index b n hn := by
    rw [hl, (ha n (h.mem b n hn)).2.1]
    exact h.index b n hn
  nodup b := by
    have he : (ch b).map s'.key = (ch b).map s.key :=
      List.map_congr_left (fun n hn => (ha n (h.mem b n hn)).2.1)
    rw [he]
    exact h.nodup b
  content k v := by
    rw [h.content, hl]
    refine exists_congr (fun n => and_congr_right (fun hn => ?_))
    have hh := ha n (h.mem _ n hn)
    rw [hh.2.1, hh.2.2]

theorem nodup_ids (h : Chains c s l V ch f) (b : Nat) : (ch b).Nodup :=
  (h.nodup b).of_map

theorem bucket_eq (h : Chains c s l V ch f) {b' n : Nat} (hn : n ∈ ch b) (hn' : n ∈ ch b') : b = b' := by
  rw [← h.index b n hn, h.index b' n hn']

theorem eq_none_iff (h : Chains c s l V ch f) :
    f k = none ↔ ∀ n ∈ ch (bucketId c (s.list l).bucketCount k), s.key n ≠ k := by
  constructor
  · intro hk n hn he
    have hh := (h.content k (s.value n)).2 ⟨n, hn, he, rfl⟩
    rw [hk] at hh
    cases hh
  · intro hne
    cases hk : f k with
    | none => rfl
    | some v =>
      obtain ⟨n, hn, he, -⟩ := (h.content k v).1 hk
      exact absurd he (hne n hn)

variable [DecidableEq Key] {n m : Nat}

/-- Redirecting the link past `pre` changes the rest of one chain. -/
theorem splice (h : Chains c s l V ch f) (pre mid : List Nat) {old : List Nat} {p : Option Nat}
    (hch : ch b = pre ++ old) (hV : V ⊆ V') (hp : Segment s.next p mid none)
    (hmem : ∀ n ∈ mid, n ∈ V' ∧ bucketId c (s.list l).bucketCount (s.key n) = b)
    (hnd : ((pre ++ mid).map s.key).Nodup)
    (hf : ∀ k v, f' k = some v ↔ if bucketId c (s.list l).bucketCount k = b
      then ∃ n ∈ pre ++ mid, s.key n = k ∧ s.value n = v else f k = some v)
    (hg : ∀ k, lookup s mid k = lookup s old k ∨ lookup s mid k = f' k) :
    Relinked c s (s.write (lastLoc (.head l b) pre) p) l V V' (Function.update ch b (pre ++ mid)) f' := by
  have hpre : ∀ n ∈ pre, n ∈ ch b := fun n hn => hch ▸ List.mem_append_left _ hn
  have hnd' : (pre ++ mid).Nodup := hnd.of_map
  have hl := h.linked b
  rw [hch] at hl
  obtain ⟨q, hq, hold⟩ := Segment.append_iff.1 hl
  have hmid : Segment (s.write (lastLoc (.head l b) pre) p).next p mid none := by
    refine hp.congr (fun a ha => ?_)
    have hpa : a ∉ pre := fun hx => (List.disjoint_of_nodup_append hnd') hx ha
    rw [next_write, if_neg (next_ne_lastLoc hpa)]
  refine ⟨⟨by simpa using h.pos, fun b' => ?_, fun b' n hn => ?_,
    fun b' n hn => ?_, fun b' => ?_, fun k v => ?_⟩, fun W => ?_⟩
  · by_cases hb : b' = b
    · subst hb
      rw [Function.update_self]
      exact (write_segment hq hnd'.of_append_left (by simp) p).append hmid
    · have hne : ∀ n ∈ ch b', n ∉ pre := fun n hn hx => hb (h.bucket_eq hn (hpre n hx))
      rw [Function.update_of_ne hb, read_write, if_neg (head_ne_lastLoc (by simpa using hb))]
      refine (h.linked b').congr (fun n hn => ?_)
      rw [next_write, if_neg (next_ne_lastLoc (hne n hn))]
  · by_cases hb : b' = b
    · subst hb
      rw [Function.update_self, List.mem_append] at hn
      obtain hn | hn := hn
      · exact hV (h.mem b' n (hpre n hn))
      · exact (hmem n hn).1
    · rw [Function.update_of_ne hb] at hn
      exact hV (h.mem b' n hn)
  · rw [key_write, bucketCount_write]
    by_cases hb : b' = b
    · subst hb
      rw [Function.update_self, List.mem_append] at hn
      obtain hn | hn := hn
      · exact h.index b' n (hpre n hn)
      · exact (hmem n hn).2
    · rw [Function.update_of_ne hb] at hn
      exact h.index b' n hn
  · by_cases hb : b' = b
    · subst hb
      simpa using hnd
    · rw [Function.update_of_ne hb]
      simpa using h.nodup b'
  · rw [hf, bucketCount_write]
    simp only [key_write, value_write]
    by_cases hb : bucketId c (s.list l).bucketCount k = b
    · rw [if_pos hb, hb, Function.update_self]
    · rw [if_neg hb, Function.update_of_ne hb, h.content]
  · rw [← read_lastLoc hq] at hold
    refine .write hold (fun n hn => ?_) hmid (fun n hn => (hmem n hn).1) hV hg
    exact h.mem b n (hch ▸ List.mem_append_right _ hn)

theorem insertHead (h : Chains c s l V ch f) (hk : f (s.key n) = none)
    (hnext : s.next n = s.read (headOf c s l (s.key n))) (hV : V ⊆ V') (hn : n ∈ V') :
    Relinked c s (s.write (headOf c s l (s.key n)) (some n)) l V V'
      (Function.update ch (bucketId c (s.list l).bucketCount (s.key n))
        (n :: ch (bucketId c (s.list l).bucketCount (s.key n))))
      (Function.update f (s.key n) (some (s.value n))) := by
  rw [h.eq_none_iff] at hk
  rw [headOf] at hnext ⊢
  generalize hb : bucketId c (s.list l).bucketCount (s.key n) = b at hk hnext ⊢
  have hseg : Segment s.next (some n) (n :: ch b) none := ⟨rfl, hnext ▸ h.linked b⟩
  refine h.splice [] (n :: ch b) rfl hV hseg ?_ ?_ (fun k v => ?_) (fun k => ?_)
  · exact List.forall_mem_cons.2 ⟨⟨hn, hb⟩, fun a ha => ⟨hV (h.mem b a ha), h.index b a ha⟩⟩
  · refine List.nodup_cons.2 ⟨?_, h.nodup b⟩
    simpa using hk
  · by_cases he : k = s.key n
    · subst he
      simpa [hb] using fun a ha hka => absurd hka (hk a ha)
    · rw [Function.update_of_ne he, h.content]
      split
      · rename_i hkb
        simp [hkb, Ne.symm he]
      · rfl
  · rw [lookup_cons]
    split
    · rename_i he
      exact .inr (by simp [← he])
    · exact .inl rfl

omit [DecidableEq Key] in
theorem key_ne (h : Chains c s l V ch f) {pre post : List Nat} (hch : ch b = pre ++ n :: post) :
    ∀ a, a ∈ pre ∨ a ∈ post → s.key a ≠ s.key n := by
  have hnd := h.nodup b
  rw [hch, List.map_append, List.map_cons, List.nodup_middle, List.nodup_cons] at hnd
  intro a ha he
  refine hnd.1 ?_
  rw [← List.map_append, ← he]
  exact List.mem_map_of_mem (List.mem_append.2 ha)

theorem replace (h : Chains c s l V ch f) {pre post : List Nat} (hch : ch b = pre ++ n :: post)
    (hkey : s.key m = s.key n) (hnext : s.next m = s.next n) (hV : V ⊆ V') (hm : m ∈ V') :
    Relinked c s (s.write (lastLoc (.head l b) pre) (some m)) l V V'
      (Function.update ch b (pre ++ m :: post)) (Function.update f (s.key m) (some (s.value m))) := by
  have hn : n ∈ ch b := by simp [hch]
  have hpost : ∀ a ∈ post, a ∈ ch b := by simp +contextual [hch]
  have hl := h.linked b
  rw [hch] at hl
  obtain ⟨q, -, rfl, hseg⟩ := Segment.append_iff.1 hl
  have hne := h.key_ne hch
  have hb := h.index b n hn
  refine h.splice pre (m :: post) hch hV ⟨rfl, hnext ▸ hseg⟩ ?_ ?_ (fun k v => ?_) (fun k => ?_)
  · refine List.forall_mem_cons.2 ⟨⟨hm, hkey ▸ h.index b n hn⟩, fun a ha => ?_⟩
    exact ⟨hV (h.mem b a (hpost a ha)), h.index b a (hpost a ha)⟩
  · have hnd := h.nodup b
    simpa [hch, hkey] using hnd
  · by_cases he : k = s.key m
    · subst he
      rw [Function.update_self, hkey, if_pos hb]
      constructor
      · rintro ⟨⟩
        exact ⟨m, by simp, hkey, rfl⟩
      · rintro ⟨a, ha, hka, rfl⟩
        rw [List.mem_append, List.mem_cons] at ha
        obtain ha | rfl | ha := ha
        · exact absurd hka (hne a (.inl ha))
        · rfl
        · exact absurd hka (hne a (.inr ha))
    · rw [Function.update_of_ne he, h.content]
      split
      · rename_i hkb
        rw [hkey] at he
        simp [hkb, hch, hkey, Ne.symm he, or_and_right, exists_or]
      · rfl
  · rw [lookup_cons, lookup_cons, hkey]
    split
    · rename_i he
      exact .inr (by simp [← he])
    · exact .inl rfl

theorem erase (h : Chains c s l V ch f) {pre post : List Nat} (hch : ch b = pre ++ n :: post) :
    Relinked c s (s.write (lastLoc (.head l b) pre) (s.next n)) l V V
      (Function.update ch b (pre ++ post)) (Function.update f (s.key n) none) := by
  have hn : n ∈ ch b := by simp [hch]
  have hpost : ∀ a ∈ post, a ∈ ch b := by simp +contextual [hch]
  have hl := h.linked b
  rw [hch] at hl
  obtain ⟨q, -, rfl, hseg⟩ := Segment.append_iff.1 hl
  have hne := h.key_ne hch
  have hb := h.index b n hn
  refine h.splice pre post hch subset_rfl hseg ?_ ?_ (fun k v => ?_) (fun k => ?_)
  · exact fun a ha => ⟨h.mem b a (hpost a ha), h.index b a (hpost a ha)⟩
  · have hnd := h.nodup b
    rw [hch, List.map_append, List.map_cons, List.nodup_middle, List.nodup_cons] at hnd
    rw [List.map_append]
    exact hnd.2
  · by_cases he : k = s.key n
    · subst he
      rw [Function.update_self, if_pos hb]
      simp only [reduceCtorEq, false_iff, not_exists, not_and, List.mem_append]
      intro a ha hka
      exact absurd hka (hne a ha)
    · rw [Function.update_of_ne he, h.content]
      split
      · rename_i hkb
        simp [hkb, hch, Ne.symm he, or_and_right, exists_or]
      · rfl
  · rw [lookup_cons]
    split
    · rename_i he
      rw [← he]
      exact .inr (by simpa using lookup_eq_none (fun a ha => hne a (.inr ha)))
    · exact .inl rfl

theorem finds (h : Chains c s l V ch f) (k : Key) :
    Finds s V k (s.read (headOf c s l k)) (f k) := by
  have hh := Finds.of_segment (k := k) (h.linked (bucketId c (s.list l).bucketCount k)) (h.mem _)
  have he : f k = lookup s (ch (bucketId c (s.list l).bucketCount k)) k := by
    refine Option.ext (fun v => ?_)
    rw [h.content, lookup_eq_some_iff (h.nodup _)]
  rwa [he]

end Chains

end Wizard.HashMap
