import Wizard.HashMapGuards

/-! Iterators of a segment among the writers. `cbegin` takes the bucket list and
the first node without a record, a copy has no record, and `++` gives its only
record to the next node while it still reads the current one. -/

namespace Wizard.HashMap.Iterate

open SegmentT Reclaim Guard

variable {Key Value : Type}

/-- Where the iterator is in `cbegin`, `advanceBucketIfAtEnd` and `++`. -/
inductive Stage where
  | unused
  | begun
  | advancing
  | atSlot
  | slotLoaded (p : Option Nat)
  | slotPublished (p : Option Nat)
  | rest
  | nextLoaded (p : Option Nat)
  | nextPublished (p : Option Nat)

/-- The fields of an iterator; `record` is the one that `holder_node` owns. -/
structure Iter where
  stage : Stage
  list : Nat
  id : Nat
  node : Option Nat
  record : Record

/-- The steps of one iterator. -/
inductive Walk (s : SegmentT Key Value) : Iter → Iter → Prop
  | cbegin (i) (h : i.stage = .unused) : Walk s i ⟨.begun, s.bucketList, 0, none, none⟩
  | getHead (i) (h : i.stage = .begun) :
      Walk s i { i with stage := .advancing, node := s.read (.head i.list i.id) }
  | stop (i n) (h : i.stage = .advancing) (hn : i.node = some n) : Walk s i { i with stage := .rest }
  | finish (i) (h : i.stage = .advancing) (hn : i.node = none)
      (hc : (s.list i.list).bucketCount.toNat ≤ i.id + 1) :
      Walk s i { i with stage := .rest, id := i.id + 1 }
  | more (i) (h : i.stage = .advancing) (hn : i.node = none)
      (hc : i.id + 1 < (s.list i.list).bucketCount.toNat) :
      Walk s i { i with stage := .atSlot, id := i.id + 1 }
  | loadSlot (i) (h : i.stage = .atSlot) :
      Walk s i { i with stage := .slotLoaded (s.read (.head i.list i.id)) }
  | publishSlot (i p) (h : i.stage = .slotLoaded p) :
      Walk s i { i with stage := .slotPublished p, record := publish p }
  | retrySlot (i p) (h : i.stage = .slotPublished p) (hp : s.read (.head i.list i.id) ≠ p) :
      Walk s i { i with stage := .slotLoaded (s.read (.head i.list i.id)), record := none }
  | keepSlot (i p) (h : i.stage = .slotPublished p) (hp : s.read (.head i.list i.id) = p) :
      Walk s i { i with stage := .advancing, node := p, record := validate s i.record }
  | deref (i n) (h : i.stage = .rest) (hn : i.node = some n) : Walk s i i
  | loadNext (i n) (h : i.stage = .rest) (hn : i.node = some n) :
      Walk s i { i with stage := .nextLoaded (s.next n) }
  | publishNext (i p) (h : i.stage = .nextLoaded p) :
      Walk s i { i with stage := .nextPublished p, record := publish p }
  | retryNext (i p n) (h : i.stage = .nextPublished p) (hn : i.node = some n) (hp : s.next n ≠ p) :
      Walk s i { i with stage := .nextLoaded (s.next n), record := none }
  | keepNext (i p n) (h : i.stage = .nextPublished p) (hn : i.node = some n) (hp : s.next n = p) :
      Walk s i { i with stage := .advancing, node := p, record := validate s i.record }
  | drop (i) (h : i.stage = .rest) : Walk s i ⟨.unused, 0, 0, none, none⟩

/-- The object that the iterator dereferences in its next step. -/
def Iter.uses (i : Iter) : Option Obj :=
  match i.stage with
  | .begun => some (.list i.list)
  | .advancing => if i.node = none then some (.list i.list) else none
  | .atSlot => some (.list i.list)
  | .slotPublished _ => some (.list i.list)
  | .rest => i.node.map .node
  | .nextPublished _ => i.node.map .node
  | _ => none

/-- The iterator refers to the object, and its record does not protect it. -/
def Iter.Exposes (i : Iter) (o : Obj) : Prop :=
  i.stage ≠ .unused ∧ (o = .list i.list ∨ i.node.map .node = some o) ∧ i.record ≠ some (o, true)

structure State (Key Value : Type) where
  base : Reclaim.State Key Value
  iter : Nat → Iter

/-- Copying and moving leave the records where they are. -/
inductive Step [DecidableEq Key] (c : Config Key) : State Key Value → State Key Value → Prop
  | write (s b) (hm : Move c s.base b)
      (hg : ∀ o ∈ b.destroyed, o ∉ s.base.destroyed → ∀ j, (s.iter j).record ≠ some (o, true)) :
      Step c s { s with base := b }
  | walk (s j i) (hw : Walk s.base.seg (s.iter j) i) : Step c s { s with iter := Function.update s.iter j i }
  | copy (s j j') (h : (s.iter j).stage = .rest) (h' : (s.iter j').stage = .unused) :
      Step c s { s with iter := Function.update s.iter j' { s.iter j with record := none } }
  | assign (s j j') (h : (s.iter j).stage = .rest) (h' : (s.iter j').stage = .rest) :
      Step c s { s with iter := Function.update s.iter j' { s.iter j with record := (s.iter j').record } }

def Init [Inhabited Key] [Inhabited Value] (c : Config Key) (s : State Key Value) : Prop :=
  Reclaim.Init c s.base ∧ ∀ j, s.iter j = ⟨.unused, 0, 0, none, none⟩

/-- No destructor starts in an object that an iterator refers to without
protection. -/
def Spares (s t : State Key Value) : Prop :=
  ∀ o ∈ t.base.destroyed, o ∉ s.base.destroyed → ∀ j, ¬ (s.iter j).Exposes o

/-- A step that spares what iterators refer to, while no node has `2 ^ 16` links. -/
def SparingStep [DecidableEq Key] (c : Config Key) (s t : State Key Value) : Prop :=
  Step c s t ∧ Spares s t ∧ Reclaim.Bounded t.base

section Walks

variable {c : Config Key} {s : SegmentT Key Value} {b b' : Reclaim.State Key Value} {i i' : Iter}

/-- The iterator refers to live objects, and to a bucket that exists. -/
structure Sound (b : Reclaim.State Key Value) (i : Iter) : Prop where
  list : i.stage ≠ .unused → i.list < b.seg.listCount ∧ .list i.list ∉ b.destroyed
  slot : i.stage = .begun ∨ i.stage = .atSlot ∨ (∃ p, i.stage = .slotLoaded p ∨ i.stage = .slotPublished p) →
    i.id < (b.seg.list i.list).bucketCount.toNat
  unused : i.stage = .unused → i.node = none
  node : ∀ n, i.node = some n → n < b.seg.nodeCount ∧ .node n ∉ b.destroyed

theorem Sound.uses (h : Sound b i) {o : Obj} (ho : i.uses = some o) : o ∉ b.destroyed := by
  obtain ⟨stage, list, id, node, record⟩ := i
  have hnode : node.map .node = some o → o ∉ b.destroyed := by
    intro ho
    obtain ⟨n, hn, rfl⟩ := Option.map_eq_some_iff.1 ho
    exact (h.node n hn).2
  cases stage with
  | begun =>
    cases ho
    exact (h.list (by simp)).2
  | advancing =>
    simp only [Iter.uses] at ho
    split at ho
    · cases ho
      exact (h.list (by simp)).2
    · cases ho
  | atSlot =>
    cases ho
    exact (h.list (by simp)).2
  | slotPublished p =>
    cases ho
    exact (h.list (by simp)).2
  | rest => exact hnode ho
  | nextPublished p => exact hnode ho
  | _ => cases ho

/-- A pointer read from a live object leads to a live node. -/
theorem live_read (h : Live c b) {n : Nat} (loc : Loc) (ha : Allocated b.seg loc) (hd : loc.owner ∉ b.destroyed)
    (hr : b.seg.read loc = some n) : n < b.seg.nodeCount ∧ .node n ∉ b.destroyed := by
  obtain ⟨v, hv⟩ := h.sane
  exact ⟨hv.closed loc n ha hr, (h.linked ha hd hr).2⟩

theorem Sound.walk (h : Sound b i) (hl : Live c b) (hL : HasLists b.seg b.stores) (hw : Walk b.seg i i') :
    Sound b i' := by
  obtain ⟨hlist, hslot, hun, hnode⟩ := h
  cases hw with
  | cbegin hs =>
    obtain ⟨v, hv⟩ := hl.sane
    refine ⟨fun _ => ⟨hL.current, fun hd => ?_⟩, fun _ => hL.pos _ hL.current, by simp, by simp⟩
    exact (hv.list _ (.inl (hv.destroyed _ hd))).2.1 rfl
  | getHead hs =>
    obtain ⟨hlt, hd⟩ := hlist (by simp [hs])
    refine ⟨fun _ => ⟨hlt, hd⟩, by simp, by simp, fun n hn => ?_⟩
    exact live_read hl (.head i.list i.id) ⟨hlt, hslot (.inl hs)⟩ hd hn
  | stop n hs hn => exact ⟨fun _ => hlist (by simp [hs]), by simp, by simp, hnode⟩
  | finish hs hn hc => exact ⟨fun _ => hlist (by simp [hs]), by simp, by simp, hnode⟩
  | more hs hn hc => exact ⟨fun _ => hlist (by simp [hs]), fun _ => hc, by simp, hnode⟩
  | loadSlot hs =>
    exact ⟨fun _ => hlist (by simp [hs]), fun _ => hslot (.inr (.inl hs)), by simp, hnode⟩
  | publishSlot p hs =>
    exact ⟨fun _ => hlist (by simp [hs]), fun _ => hslot (.inr (.inr ⟨p, .inl hs⟩)), by simp, hnode⟩
  | retrySlot p hs hp =>
    exact ⟨fun _ => hlist (by simp [hs]), fun _ => hslot (.inr (.inr ⟨p, .inr hs⟩)), by simp, hnode⟩
  | keepSlot p hs hp =>
    obtain ⟨hlt, hd⟩ := hlist (by simp [hs])
    refine ⟨fun _ => ⟨hlt, hd⟩, by simp, by simp, fun n hn => ?_⟩
    exact live_read hl (.head i.list i.id) ⟨hlt, hslot (.inr (.inr ⟨p, .inr hs⟩))⟩ hd (hp.trans hn)
  | deref n hs hn => exact ⟨hlist, hslot, hun, hnode⟩
  | loadNext n hs hn => exact ⟨fun _ => hlist (by simp [hs]), by simp, by simp, hnode⟩
  | publishNext p hs => exact ⟨fun _ => hlist (by simp [hs]), by simp, by simp, hnode⟩
  | retryNext p n hs hn hp => exact ⟨fun _ => hlist (by simp [hs]), by simp, by simp, hnode⟩
  | keepNext p n hs hn hp =>
    obtain ⟨hlt, hd⟩ := hnode n hn
    refine ⟨fun _ => hlist (by simp [hs]), by simp, by simp, fun m hm => ?_⟩
    exact live_read hl (.next n) hlt hd (hp.trans hm)
  | drop hs => exact ⟨by simp, by simp, by simp, by simp⟩

/-- What the writers do leaves the iterator sound if it is spared. -/
theorem Sound.mono (h : Sound b i) (hn : b.seg.nodeCount ≤ b'.seg.nodeCount)
    (hl : b.seg.listCount ≤ b'.seg.listCount)
    (hb : ∀ l < b.seg.listCount, (b'.seg.list l).bucketCount = (b.seg.list l).bucketCount)
    (hs : ∀ o ∈ b'.destroyed, o ∉ b.destroyed → ¬ i.Exposes o ∧ i.record ≠ some (o, true)) :
    Sound b' i := by
  obtain ⟨hlist, hslot, hun, hnode⟩ := h
  have hkeep : ∀ o, i.stage ≠ .unused → (o = .list i.list ∨ i.node.map .node = some o) →
      o ∉ b.destroyed → o ∉ b'.destroyed := by
    intro o hst ho hd hd'
    obtain ⟨hne, hr⟩ := hs o hd' hd
    exact hne ⟨hst, ho, hr⟩
  refine ⟨fun hst => ?_, fun hst => ?_, hun, fun n hn' => ?_⟩
  · obtain ⟨hlt, hd⟩ := hlist hst
    exact ⟨hlt.trans_le hl, hkeep _ hst (.inl rfl) hd⟩
  · have hne : i.stage ≠ .unused := by
      obtain he | he | ⟨p, he | he⟩ := hst <;> simp [he]
    rw [hb _ (hlist hne).1]
    exact hslot hst
  · have hne : i.stage ≠ .unused := by
      intro he
      rw [hun he] at hn'
      cases hn'
    obtain ⟨hlt, hd⟩ := hnode n hn'
    exact ⟨hlt.trans_le hn, hkeep _ hne (.inr (by rw [hn']; rfl)) hd⟩

end Walks

section Runs

variable [DecidableEq Key] {c : Config Key} {s t : State Key Value}

theorem bucketCount_step {b b' : Reclaim.State Key Value} {l : Nat} (hm : Move c b b')
    (hl : l < b.seg.listCount) : (b'.seg.list l).bucketCount = (b.seg.list l).bucketCount := by
  cases hm with
  | store st q d hlock => exact bucketCount_applyAll hl [st]
  | _ => rfl

structure Inv (c : Config Key) (s : State Key Value) : Prop where
  live : Live c s.base
  lists : HasLists s.base.seg s.base.stores
  sound : ∀ j, Sound s.base (s.iter j)

theorem Inv.step (h : Inv c s) (hs : SparingStep c s t) : Inv c t := by
  obtain ⟨hst, hsp, hb⟩ := hs
  cases hst with
  | write b hm hg =>
    obtain ⟨v, hv⟩ := h.live.sane
    obtain ⟨hn, hl⟩ := counts_le_step hm
    refine ⟨h.live.step hm hb, hasLists_step h.lists hv hm, fun j => ?_⟩
    exact (h.sound j).mono hn hl (fun l hlt => bucketCount_step hm hlt)
      (fun o hd hd' => ⟨hsp o hd hd' j, hg o hd hd' j⟩)
  | walk j i hw =>
    refine ⟨h.live, h.lists, fun j' => ?_⟩
    by_cases hj : j' = j
    · subst hj
      simpa using (h.sound j').walk h.live h.lists hw
    · simpa [hj] using h.sound j'
  | copy j j' hr hr' | assign j j' hr hr' =>
    refine ⟨h.live, h.lists, fun i => ?_⟩
    by_cases hi : i = j'
    · subst hi
      have hh := h.sound j
      simpa using ⟨hh.list, hh.slot, hh.unused, hh.node⟩
    · simpa [hi] using h.sound i

variable [Inhabited Key] [Inhabited Value]

theorem reachable_quiet {c : Config Nat} {s : State Nat Nat} {b : Reclaim.State Nat Nat}
    (h : Reachable (Init c) (SparingStep c) s) (hq : Relation.ReflTransGen (Quiet c) s.base b) :
    Reachable (Init c) (SparingStep c) { s with base := b } := by
  induction hq with
  | refl => exact h
  | tail _ hs ih =>
    exact ih.tail ⟨.write _ _ hs.1 (fun o ho hno => absurd (hs.2.1 ▸ ho) hno),
      fun o ho hno => absurd (hs.2.1 ▸ ho) hno, hs.2.2⟩

end Runs

end Wizard.HashMap.Iterate
