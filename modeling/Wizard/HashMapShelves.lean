import Wizard.HashMapClears
import Wizard.HashMapReserve

/-! Several bucket lists in one heap. `reserve` calls `rehash` without the mutex,
so lists are filled while others are in use. -/

namespace Wizard.HashMap

open SegmentT

variable {Key Value : Type}

/-- The segment as a thread sees it that has loaded the list `l`. -/
def SegmentT.loaded (s : SegmentT Key Value) (l : Nat) : SegmentT Key Value :=
  { s with bucketList := l }

/-- A call of `rehash` in its loops, about to copy bucket `b` of the list `old`. -/
structure Copy where
  old : Nat
  new : Nat
  b : Nat

namespace Copy

/-- `rehash` up to its loops. -/
def start (c : Config Key) (s : SegmentT Key Value) (bl : BucketList) : SegmentT Key Value :=
  s.applyAll [.setThreshold (c.threshold bl.bucketCount), .newList bl]

/-- One turn of the outer loop. -/
def turn (c : Config Key) (s : SegmentT Key Value) (r : Copy) : SegmentT Key Value :=
  s.applyAll (copyStores c r.new s (walk s.next (s.read (.head r.old r.b)) s.nodeCount))

/-- `n` turns of it. -/
def turns (c : Config Key) : SegmentT Key Value → Copy → Nat → SegmentT Key Value
  | s, _, 0 => s
  | s, r, n + 1 => turns c (r.turn c s) { r with b := r.b + 1 } n

/-- `rehash` after its loops. -/
def finish (s : SegmentT Key Value) (r : Copy) : SegmentT Key Value :=
  s.applyAll [.publish r.new, .retire r.old]

end Copy

inductive Update (Key Value : Type) where
  | insert (k : Key) (v : Value)
  | erase (k : Key)

namespace Update

def key : Update Key Value → Key
  | insert k _ => k
  | erase k => k

def value : Update Key Value → Option Value
  | insert _ v => some v
  | erase _ => none

/-- What a writer stores that has loaded the list `l`, with the node to release. -/
def stores [DecidableEq Key] (c : Config Key) (s : SegmentT Key Value) (l : Nat) :
    Update Key Value → List (Store Key Value) × Option Nat
  | insert k v =>
    let link := linkStores c ((s.apply (.newNode k v)).loaded l) k s.nodeCount
    (.newNode k v :: link.1, link.2)
  | erase k => eraseSection c (s.loaded l) k

end Update

/-- Each node is on the chains of one bucket list only, its owner. -/
def Shelved (c : Config Key) (s : SegmentT Key Value) (owner : Nat → Nat)
    (content : Nat → Key → Option Value) : Prop :=
  ∀ l < s.listCount, ∃ ch, Chains c s l {n | n < s.nodeCount ∧ owner n = l} ch (content l)

section Frame

variable {c : Config Key} {s : SegmentT Key Value} {q : List (Store Key Value)} {V W : Set Nat} {l : Nat}
  {f : Key → Option Value}

theorem applyAll_loaded (hq : ∀ l', .publish l' ∉ q) : (s.loaded l).applyAll q = (s.applyAll q).loaded l := by
  induction q generalizing s with
  | nil => rfl
  | cons st q ih =>
    have hst : (s.loaded l).apply st = (s.apply st).loaded l := by
      cases st with
      | publish l' => exact absurd List.mem_cons_self (hq l')
      | write loc p => cases loc <;> rfl
      | _ => rfl
    change ((s.loaded l).apply st).applyAll q = _
    rw [hst]
    exact ih (fun l' hl => hq l' (List.mem_cons_of_mem _ hl))

theorem private_of_target {st : Store Key Value} (hp : ∀ l', st ≠ .publish l')
    (hn : ∀ n ∈ V, st.target ≠ some (.node n)) (hl : ∀ l' ∈ W, st.target ≠ some (.list l')) :
    Private V W st := by
  cases st with
  | publish l' => exact hp l' rfl
  | write loc p =>
    cases loc with
    | head l' b => exact fun hm => hl l' hm rfl
    | next n => exact fun hm => hn n hm rfl
  | _ => trivial

theorem Chains.loaded_iff {l' : Nat} {ch : Nat → List Nat} :
    Chains c (s.loaded l) l' V ch f ↔ Chains c s l' V ch f := by
  constructor <;> intro h <;> exact h.congr (fun n _ => ⟨rfl, rfl, rfl⟩) rfl subset_rfl

theorem listCount_copyStores (l : Nat) (s : SegmentT Key Value) (ps : List Nat) :
    (s.applyAll (copyStores c l s ps)).listCount = s.listCount ∧
      (s.applyAll (copyStores c l s ps)).bucketList = s.bucketList := by
  have hcopy : ∀ st ∈ copyStores c l s ps, ∀ l', (∀ bl, st ≠ .newList bl) ∧ st ≠ .publish l' ∧ st ≠ .retire l' := by
    intro st hst l'
    obtain ⟨k, value, rfl⟩ | ⟨loc, p, rfl⟩ := copyStores_shape _ _ hst <;> simp
  obtain ⟨hb, hl, -⟩ := applyAll_plain hcopy (s := s)
  exact ⟨hl, hb⟩

theorem Update.stores_plain [DecidableEq Key] (s : SegmentT Key Value) (l : Nat) (u : Update Key Value) :
    ∀ st ∈ (u.stores c s l).1, ∀ l', (∀ bl, st ≠ .newList bl) ∧ st ≠ .publish l' ∧ st ≠ .retire l' := by
  cases u with
  | insert k v => exact List.forall_mem_cons.2 ⟨fun l' => by simp, linkStores_plain _ _ _⟩
  | erase k => exact eraseSection_plain _ _

/-- A writer that does not rehash leaves the bucket lists in place. -/
theorem perform_frame [DecidableEq Key] (s : SegmentT Key Value) (l : Nat) (u : Update Key Value) :
    (s.perform (u.stores c s l)).bucketList = s.bucketList ∧
      (s.perform (u.stores c s l)).listCount = s.listCount ∧ ∀ l' < s.listCount,
        ((s.perform (u.stores c s l)).list l').bucketCount = (s.list l').bucketCount := by
  obtain ⟨hb, hl, -⟩ := applyAll_plain (u.stores_plain s l (c := c))
  have hlist := fun l' (hl' : l' < s.listCount) => bucketCount_applyAll hl' (u.stores c s l).1
  rw [SegmentT.perform]
  split <;> exact ⟨hb, hl, hlist⟩

end Frame

section Turns

variable {c : Config Key} {s : SegmentT Key Value} {V W : Set Nat} {f : Key → Option Value}

theorem copyStores_append (l : Nat) (s : SegmentT Key Value) (ps qs : List Nat) :
    copyStores c l s (ps ++ qs) = copyStores c l s ps ++ copyStores c l (s.applyAll (copyStores c l s ps)) qs := by
  induction ps generalizing s with
  | nil => rfl
  | cons p ps ih => rw [List.cons_append, copyStores, ih, copyStores, applyAll_append, List.append_assoc]

theorem make_eq {count : BitVec 64} {bl : BucketList} (h : BucketList.make count = some bl) :
    bl.bucketCount = count ∧ bl.head = fun _ => none := by
  rw [BucketList.make] at h
  split at h
  · cases h
    exact ⟨rfl, rfl⟩
  · cases h

theorem turns_eq {r : Copy} (h : Holds c s V W f) (ho : r.old = s.bucketList) (hn : r.new ∉ W) (n : Nat) :
    r.turns c s n = s.applyAll (copyStores c r.new s
      ((List.range' r.b n).flatMap fun b => walk s.next (s.read (.head r.old b)) s.nodeCount)) := by
  induction n generalizing s r with
  | zero => rfl
  | succ n ih =>
    set q := copyStores c r.new s (walk s.next (s.read (.head r.old r.b)) s.nodeCount)
    have hp : ∀ st ∈ q, Private V W st := copyStores_private h.nodes hn _
    have hh := h.applyAll hp
    obtain ⟨ha, hl⟩ := h.agree hp
    obtain ⟨ch, hc⟩ := h.chains
    have hc' := hc.congr ha (hl _ h.current) subset_rfl
    have hb := h.bucketList_applyAll hp
    have hwalk : ∀ b, walk (s.applyAll q).next ((s.applyAll q).read (.head r.old b)) (s.applyAll q).nodeCount =
        walk s.next (s.read (.head r.old b)) s.nodeCount := by
      intro b
      have hlen := h.length_le hc b
      rw [ho, (hc.linked b).walk_of_length_le hlen,
        (hc'.linked b).walk_of_length_le (hlen.trans (nodeCount_le_applyAll q))]
    have hturn : r.turn c s = s.applyAll q := rfl
    rw [Copy.turns, hturn, ih (r := { r with b := r.b + 1 }) hh (ho.trans hb.symm) hn, List.range'_succ,
      List.flatMap_cons, copyStores_append, applyAll_append]
    simp only [hwalk]
    rfl

/-- Turn by turn with nothing in between, it is `rehash`. -/
theorem rehash_eq_turns {bl : BucketList} (h : Holds c s V W f) {count : BitVec 64}
    (hb : BucketList.make count = some bl) :
    s.rehash c count = some (Copy.finish (Copy.turns c (Copy.start c s bl) ⟨s.bucketList, s.listCount, 0⟩
      s.bucketCount.toNat) ⟨s.bucketList, s.listCount, 0⟩) := by
  obtain ⟨rfl, -⟩ := make_eq hb
  have hp : ∀ st ∈ ([.setThreshold (c.threshold bl.bucketCount), .newList bl] : List (Store Key Value)),
      Private V W st := by simp [Private]
  have hh : Holds c (Copy.start c s bl) V W f := h.applyAll hp
  have hno : s.listCount ∉ W := fun hl => (h.lists _ hl).ne rfl
  rw [turns_eq (r := ⟨s.bucketList, s.listCount, 0⟩) hh rfl hno, SegmentT.rehash, rehashStores, hb]
  have hsource : s.sources = (List.range' 0 s.bucketCount.toNat).flatMap fun b =>
      walk (Copy.start c s bl).next ((Copy.start c s bl).read (.head s.bucketList b))
        (Copy.start c s bl).nodeCount := by
    have hread : ∀ b, (Copy.start c s bl).read (.head s.bucketList b) = s.read (.head s.bucketList b) := by
      intro b
      have hne : s.bucketList ≠ s.listCount := (h.lists _ h.current).ne
      simp [Copy.start, applyAll, SegmentT.apply, SegmentT.read, hne]
    simp only [hread, ← List.range_eq_range']
    rfl
  rw [hsource]
  simp only [Copy.finish, Copy.start, ← applyAll_append, Option.map_some]

end Turns

namespace Shelved

variable {c : Config Key} {s : SegmentT Key Value} {owner owner' : Nat → Nat}
  {content : Nat → Key → Option Value} {l : Nat} {q : List (Store Key Value)} {f : Key → Option Value}

theorem holds (h : Shelved c s owner content) (hl : l < s.listCount) :
    Holds c (s.loaded l) {n | n < s.nodeCount ∧ owner n = l} {l} (content l) := by
  obtain ⟨ch, hc⟩ := h l hl
  exact ⟨fun n hn => hn.1, fun l' hl' => hl' ▸ hl, rfl, ch, Chains.loaded_iff.2 hc⟩

theorem bucketCount_pos (h : Shelved c s owner content) (hl : l < s.listCount) :
    0 < (s.list l).bucketCount.toNat := by
  obtain ⟨ch, hc⟩ := h l hl
  exact hc.pos

/-- The stores `q` change what the list `l` holds, and no other list. -/
theorem change (h : Shelved c s owner content) (hown : ∀ n < s.nodeCount, owner' n = owner n)
    (hcount : (s.applyAll q).listCount = s.listCount)
    (hq : ∀ l' < s.listCount, l' ≠ l → ∀ st ∈ q, Private {n | n < s.nodeCount ∧ owner n = l'} {l'} st)
    (hc : ∃ ch, Chains c (s.applyAll q) l {n | n < (s.applyAll q).nodeCount ∧ owner' n = l} ch f) :
    Shelved c (s.applyAll q) owner' (Function.update content l f) := by
  intro l' hl'
  rw [hcount] at hl'
  by_cases he : l' = l
  · subst he
    rwa [Function.update_self]
  · rw [Function.update_of_ne he]
    obtain ⟨ch, hch⟩ := h l' hl'
    obtain ⟨ha, hl⟩ := agree_applyAll (fun n hn => hn.1) (fun x hx => hx ▸ hl') (hq l' hl' he)
    refine ⟨ch, hch.congr ha (hl l' rfl) (fun n hn => ⟨hn.1.trans_le (nodeCount_le_applyAll q), ?_⟩)⟩
    rw [hown n hn.1, hn.2]

/-- The same for stores that go to the list `l`, its nodes and new nodes. -/
theorem retarget (h : Shelved c s owner content) (hown : ∀ n < s.nodeCount, owner' n = owner n)
    (hplain : ∀ st ∈ q, ∀ l', (∀ bl, st ≠ .newList bl) ∧ st ≠ .publish l' ∧ st ≠ .retire l')
    (htarget : ∀ st ∈ q, ∀ o, st.target = some o → match o with
      | .node m => owner m = l ∨ s.nodeCount ≤ m
      | .list l' => l' = l ∨ s.listCount ≤ l')
    (hc : ∃ ch, Chains c (s.applyAll q) l {n | n < (s.applyAll q).nodeCount ∧ owner' n = l} ch f) :
    Shelved c (s.applyAll q) owner' (Function.update content l f) := by
  refine h.change hown (applyAll_plain hplain).2.1 (fun l' hl' hne st hst => ?_) hc
  refine private_of_target (fun x => (hplain st hst x).2.1) (fun n hn ho => ?_) (fun x hx ho => ?_)
  · obtain hm | hm := htarget st hst _ ho
    · exact hne (hn.2.symm.trans hm)
    · exact hn.1.not_ge hm
  · obtain rfl := Set.mem_singleton_iff.1 hx
    obtain hm | hm := htarget st hst _ ho
    · exact hne hm
    · exact hl'.not_ge hm

theorem start {bl : BucketList} (h : Shelved c s owner content) (hpos : 0 < bl.bucketCount.toNat)
    (hbl : bl.head = fun _ => none) :
    Shelved c (Copy.start c s bl) owner (Function.update content s.listCount fun _ => none) := by
  intro l hl
  have hlt : l < s.listCount + 1 := hl
  by_cases he : l = s.listCount
  · subst he
    rw [Function.update_self]
    refine ⟨fun _ => [], ?_, ?_, ?_, ?_, ?_, ?_⟩
    · simpa [Copy.start, applyAll, SegmentT.apply] using hpos
    · simp [Copy.start, applyAll, SegmentT.apply, SegmentT.read, hbl, Segment]
    all_goals simp
  · rw [Function.update_of_ne he]
    obtain ⟨ch, hc⟩ := h l (by omega)
    refine ⟨ch, hc.congr (fun n _ => ⟨rfl, rfl, rfl⟩) ?_ subset_rfl⟩
    simp [Copy.start, applyAll, SegmentT.apply, he]

theorem finish (h : Shelved c s owner content) (r : Copy) : Shelved c (Copy.finish s r) owner content := by
  intro l hl
  obtain ⟨ch, hc⟩ := h l hl
  exact ⟨ch, hc.congr (fun n _ => ⟨rfl, rfl, rfl⟩) rfl subset_rfl⟩

theorem release (h : Shelved c s owner content) (n : Nat) : Shelved c (s.release n) owner content := by
  intro l hl
  obtain ⟨ch, hc⟩ := h l hl
  refine ⟨ch, hc.congr (fun m _ => ?_) rfl subset_rfl⟩
  by_cases hm : m = n <;> simp [SegmentT.release, SegmentT.next, key, value, hm]

variable [DecidableEq Key]

theorem find_eq (h : Shelved c s owner content) (hl : s.bucketList < s.listCount) (k : Key) :
    s.find c k = content s.bucketList k :=
  (h.holds hl).find_eq k

/-- A turn adds the entries of one bucket to the new list. -/
theorem turn {r : Copy} (h : Shelved c s owner content) (hold : r.old < s.listCount) (hnew : r.new < s.listCount)
    (hf : ∀ k, bucketId c (s.list r.old).bucketCount k = r.b → content r.new k = none) :
    ∃ owner', Shelved c (r.turn c s) owner' (Function.update content r.new fun k =>
      if bucketId c (s.list r.old).bucketCount k = r.b then content r.old k else content r.new k) := by
  obtain ⟨ch, hc⟩ := h r.old hold
  obtain ⟨ch', hc'⟩ := h r.new hnew
  have hlen : (ch r.b).length ≤ s.nodeCount := (h.holds hold).length_le (Chains.loaded_iff.2 hc) r.b
  have hw := (hc.linked r.b).walk_of_length_le hlen
  have hmem := hc.mem r.b
  have hindex := hc.index r.b
  obtain ⟨ch₁, h₁, -⟩ := copyStores_chains hc' (fun n hn => hn.1) (fun p hp => (hmem p hp).1) (hc.nodup r.b)
    (fun p hp => hf _ (hindex p hp))
  have he : (fun k => (lookup s (ch r.b) k).or (content r.new k)) = fun k =>
      if bucketId c (s.list r.old).bucketCount k = r.b then content r.old k else content r.new k := by
    funext k
    split
    · rename_i hk
      rw [hf k hk, Option.or_none]
      refine Option.ext (fun v => ?_)
      rw [hc.content, hk, lookup_eq_some_iff (hc.nodup r.b)]
    · rename_i hk
      rw [lookup_eq_none (fun n hn (he : s.key n = k) => hk (he ▸ hindex n hn)), Option.none_or]
  rw [he] at h₁
  rw [Copy.turn, hw]
  refine ⟨fun n => if n < s.nodeCount then owner n else r.new, ?_⟩
  refine h.change (fun n hn => if_pos hn) (listCount_copyStores _ _ _).1 (fun l' hl' hne => ?_) ⟨ch₁, ?_⟩
  · exact copyStores_private (fun n hn => hn.1) (fun hm => hne (Set.mem_singleton_iff.1 hm).symm) _
  · refine h₁.congr (fun n _ => ⟨rfl, rfl, rfl⟩) rfl ?_
    rintro n (hn | hn)
    · exact ⟨hn.1.trans_le (nodeCount_le_applyAll _), by rw [if_pos hn.1]; exact hn.2⟩
    · exact ⟨hn.2, if_neg hn.1.not_gt⟩

theorem insert (h : Shelved c s owner content) (hl : l < s.listCount) (k : Key) (v : Value) :
    ∃ owner', Shelved c (s.applyAll ((Update.insert k v).stores c s l).1) owner'
      (Function.update content l (Function.update (content l) k (some v))) := by
  have hp : Private {n | n < s.nodeCount ∧ owner n = l} {l} (.newNode k v : Store Key Value) := trivial
  have hh : Holds c ((s.apply (.newNode k v)).loaded l) {n | n < s.nodeCount ∧ owner n = l} {l} (content l) :=
    (h.holds hl).apply hp
  have hlt : s.nodeCount < (s.apply (.newNode k v)).nodeCount := Nat.lt_succ_self _
  obtain ⟨ch, hc⟩ := linkStores_chains (k := k) (v := v) hh (fun hn => hn.1.ne rfl) hlt
    (by simp [SegmentT.apply, loaded, key]) (by simp [SegmentT.apply, loaded, value])
  have hplain := linkStores_plain (c := c) ((s.apply (.newNode k v)).loaded l) k s.nodeCount
  rw [applyAll_loaded (fun l' hm => (hplain _ hm l').2.1 rfl), Chains.loaded_iff] at hc
  refine ⟨Function.update owner s.nodeCount l, h.retarget (fun n hn => ?_) (Update.stores_plain _ _ _) ?_ ⟨ch, ?_⟩⟩
  · exact Function.update_of_ne hn.ne _ _
  · obtain ⟨ch₀, hc₀⟩ := hh.chains
    intro st hst o ho
    obtain rfl | hst := List.mem_cons.1 hst
    · cases ho
    obtain rfl | rfl | ⟨m, hm, rfl⟩ := Reclaim.linkStores_target hh hc₀ st hst o ho
    · exact .inr le_rfl
    · exact .inl rfl
    · exact .inl hm.2
  · refine hc.congr (fun n _ => ⟨rfl, rfl, rfl⟩) rfl ?_
    have hle := nodeCount_le_applyAll (s := s.apply (.newNode k v))
      (linkStores c ((s.apply (.newNode k v)).loaded l) k s.nodeCount).1
    rintro n (rfl | hn)
    · exact ⟨hlt.trans_le hle, Function.update_self _ _ _⟩
    · exact ⟨(hn.1.trans hlt).trans_le hle, (Function.update_of_ne hn.1.ne _ _).trans hn.2⟩

theorem erase (h : Shelved c s owner content) (hl : l < s.listCount) (k : Key) :
    Shelved c (s.applyAll ((Update.erase k : Update Key Value).stores c s l).1) owner
      (Function.update content l (Function.update (content l) k none)) := by
  have hh := h.holds hl
  obtain ⟨ch, hc⟩ := eraseSection_chains hh k
  have hplain := eraseSection_plain (c := c) (s.loaded l) k
  rw [applyAll_loaded (fun l' hm => (hplain _ hm l').2.1 rfl), Chains.loaded_iff] at hc
  refine h.retarget (fun n _ => rfl) (Update.stores_plain _ _ _) (fun st hst o ho => ?_) ⟨ch, ?_⟩
  · have hold := Reclaim.eraseSection_target hh k st hst o ho
    cases o with
    | node m => exact hold.imp_left (fun hr => (hh.mem_of_reach hr).2)
    | list l' => exact hold.imp_right Eq.ge
  · refine hc.congr (fun n _ => ⟨rfl, rfl, rfl⟩) rfl (fun n hn => ?_)
    exact ⟨hn.1.trans_le (nodeCount_le_applyAll _), hn.2⟩

theorem perform (h : Shelved c s owner content) (hl : l < s.listCount) (u : Update Key Value) :
    ∃ owner', Shelved c (s.perform (u.stores c s l)) owner'
      (Function.update content l (Function.update (content l) u.key u.value)) := by
  have hstores : ∃ owner', Shelved c (s.applyAll (u.stores c s l).1) owner'
      (Function.update content l (Function.update (content l) u.key u.value)) := by
    cases u with
    | insert k v => exact h.insert hl k v
    | erase k => exact ⟨owner, h.erase hl k⟩
  obtain ⟨owner', h'⟩ := hstores
  rw [SegmentT.perform]
  split
  · exact ⟨owner', h'⟩
  · exact ⟨owner', h'.release _⟩

end Shelved

end Wizard.HashMap
