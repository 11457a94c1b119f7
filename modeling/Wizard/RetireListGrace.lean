import Wizard.RetireListLinks

/-! Grace periods. The list is newest first as long as pushes come in the order of their
units, and then the tag of the head speaks for all nodes below it. -/

namespace Wizard.RetireList

variable {Tid Obj : Type*}

def Pc.now? : Pc → Option Nat
  | .idle => none
  | .gcLoad now _ | .gcCas now _ _ | .deleting now _ _ | .pushLoad now _ | .pushLink now _ _ |
      .pushCas now _ _ => some now

/-- A collection that is about to take the list has found it expired. -/
def Pc.Due : Pc → Prop
  | .gcCas now _ oldHead => expire oldHead (BitVec.ofNat 16 now) = true
  | _ => True

/-- What a thread has is as old as it thinks. -/
structure Pc.Timed (stamp : Ptr → Nat) (dropped : List Ptr) (pc : Pc) : Prop where
  mine : ∀ p now, pc.mine? = some p → pc.now? = some now → stamp p = now
  late : ∀ now, pc.now? = some now → ∀ p ∈ dropped, stamp p + 2 ≤ now
  due : pc.Due

/-- The list is newest first, its newest node speaks through the tag of the head, and what
a collection has taken is due. -/
structure Sound (s : State Tid Obj) (list : List Ptr) (drop : Tid → List Ptr) : Prop extends Kept s list drop where
  top : ∀ p, getPtr s.head = some p → getTag s.head = BitVec.ofNat 16 (s.stamp p)
  sorted : list.Pairwise fun p q => s.stamp q ≤ s.stamp p
  timed : ∀ t, (s.pc t).Timed s.stamp (drop t)
  freed : ∀ f ∈ s.freed, f.ts + 2 ≤ f.now

variable {s s' : State Tid Obj} {list : List Ptr} {drop : Tid → List Ptr} {t : Tid}

theorem Pc.Timed.of_idle (stamp : Ptr → Nat) : Pc.Timed stamp [] .idle :=
  ⟨nofun, nofun, trivial⟩

theorem Pc.Timed.advance {stamp : Ptr → Nat} {dropped dropped' : List Ptr} {pc pc' : Pc} (h : pc.Timed stamp dropped)
    (hm : pc'.mine? = pc.mine?) (hn : ∀ now, pc'.now? = some now → pc.now? = some now)
    (hsub : dropped' ⊆ dropped) (hdue : pc'.Due) : pc'.Timed stamp dropped' := by
  constructor
  · intro p now hp hnow
    exact h.mine p now (hm ▸ hp) (hn now hnow)
  · intro now hnow p hp
    exact h.late now (hn now hnow) p (hsub hp)
  · exact hdue

theorem Pc.Timed.congr {stamp stamp' : Ptr → Nat} {dropped : List Ptr} {pc : Pc} (h : pc.Timed stamp dropped)
    (hm : ∀ p, pc.mine? = some p → stamp' p = stamp p) (hd : ∀ p ∈ dropped, stamp' p = stamp p) :
    pc.Timed stamp' dropped := by
  constructor
  · intro p now hp hnow
    rw [hm p hp]
    exact h.mine p now hp hnow
  · intro now hnow p hp
    rw [hd p hp]
    exact h.late now hnow p hp
  · exact h.due

variable [DecidableEq Tid]

theorem Sound.setPc (h : Sound s list drop) {pc : Pc} (hk : Kept (s.setPc t pc) list drop)
    (ht : pc.Timed s.stamp (drop t)) : Sound (s.setPc t pc) list drop := by
  refine ⟨hk, h.top, h.sorted, ?_, h.freed⟩
  exact (Function.forall_update_iff s.pc (p := fun u x => x.Timed s.stamp (drop u))).2 ⟨ht, fun u _ => h.timed u⟩

/-- What comes after a collection takes place in its unit. -/
theorem finishGc_timed (s : State Tid Obj) (t : Tid) (now : Nat) (after : Option Ptr) :
    ∃ pc, s.finishGc t now after = s.setPc t pc ∧ pc.mine? = after ∧ (∀ n, pc.now? = some n → n = now) ∧ pc.Due := by
  cases after with
  | none => exact ⟨.idle, rfl, rfl, nofun, trivial⟩
  | some n => exact ⟨.pushLoad now n, rfl, rfl, fun m hm => (Option.some.inj hm).symm, trivial⟩

theorem deleteAt_timed (s : State Tid Obj) (t : Tid) (now : Nat) (after q : Option Ptr) :
    ∃ pc, s.deleteAt t now after q = s.setPc t pc ∧ pc.mine? = after ∧ (∀ n, pc.now? = some n → n = now) ∧ pc.Due := by
  cases q with
  | none => exact finishGc_timed s t now after
  | some n => exact ⟨.deleting now after n, rfl, rfl, fun m hm => (Option.some.inj hm).symm, trivial⟩

theorem Sound.finishGc (h : Sound s list drop) {now : Nat} {after : Option Ptr} (hm : (s.pc t).mine? = after)
    (hn : (s.pc t).now? = some now) (hk : Kept (s.finishGc t now after) list drop) :
    Sound (s.finishGc t now after) list drop := by
  obtain ⟨pc, he, hm', hn', hdue⟩ := finishGc_timed s t now after
  rw [he] at hk ⊢
  refine h.setPc hk ((h.timed t).advance (hm'.trans hm.symm) (fun n hnow => ?_) (fun _ => id) hdue)
  rw [hn, hn' n hnow]

omit [DecidableEq Tid] in
theorem Sound.setClock (h : Sound s list drop) (c : Nat) : Sound { s with clock := c } list drop :=
  ⟨h.toKept.setClock c, h.top, h.sorted, h.timed, h.freed⟩

theorem Sound.tryGc (h : Sound s list drop) (ht : s.pc t = .idle) :
    Sound (s.setPc t (.gcLoad s.clock none)) list drop := by
  have hnil := h.drop_nil (t := t) (by rw [ht]; rfl)
  apply h.setPc
  · apply h.toKept.setPc
    · rw [ht]
      rfl
    · rw [ht]
      rfl
    · trivial
  · rw [hnil]
    exact ⟨nofun, nofun, trivial⟩

theorem Sound.gcLoad (h : Sound s list drop) {now : Nat} {after : Option Ptr} (ht : s.pc t = .gcLoad now after) :
    Sound (if expire s.head (BitVec.ofNat 16 now) then s.setPc t (.gcCas now after s.head)
      else s.finishGc t now after) list drop := by
  have hk := h.toKept.gcLoad ht
  have htimed := h.timed t
  split
  · rename_i hexp
    rw [if_pos hexp] at hk
    rw [ht] at htimed
    exact h.setPc hk (htimed.advance rfl (fun _ => id) (fun _ => id) hexp)
  · rename_i hexp
    rw [if_neg hexp] at hk
    apply h.finishGc
    · rw [ht]
      rfl
    · rw [ht]
      rfl
    · exact hk

theorem Sound.retire (h : Sound s list drop) {p : Ptr} {d : Obj} (ht : s.pc t = .idle) (hp : ¬ s.live p) (h0 : p ≠ 0)
    (h48 : p.toNat < 2 ^ 48) : Sound ({ s with
      live := fun q => q = p ∨ s.live q
      next := Function.update s.next p none
      data := Function.update s.data p (some d)
      stamp := Function.update s.stamp p s.clock }.setPc t (.gcLoad s.clock (some p))) list drop := by
  have hstamp : ∀ q pl, At s list drop q pl → Function.update s.stamp p s.clock q = s.stamp q := by
    intro q pl hq
    refine Function.update_of_ne (fun he => hp ?_) _ _
    rw [← he]
    exact h.place.mem q pl hq
  refine ⟨h.toKept.retire ht hp h0 h48, ?_, ?_, ?_, h.freed⟩
  · intro q hq
    have hlist : q ∈ list := Segment.mem_of_some (hq ▸ h.linked)
    change getTag s.head = BitVec.ofNat 16 (Function.update s.stamp p s.clock q)
    rw [hstamp q .list hlist]
    exact h.top q hq
  · apply h.sorted.imp_of_mem
    intro a b ha hb hab
    change Function.update s.stamp p s.clock b ≤ Function.update s.stamp p s.clock a
    rw [hstamp a .list ha, hstamp b .list hb]
    exact hab
  · refine (Function.forall_update_iff s.pc (p := fun u x => x.Timed _ (drop u))).2 ⟨?_, fun u _ => ?_⟩
    · rw [h.drop_nil (t := t) (by rw [ht]; rfl)]
      refine ⟨fun q now hq hnow => ?_, nofun, trivial⟩
      cases hq
      cases hnow
      exact Function.update_self _ _ _
    · exact (h.timed u).congr (fun q hq => hstamp q (.mine u) hq) (fun q hq => hstamp q (.dropped u) hq)

theorem Sound.gcCasOk (h : Sound s list drop) {now : Nat} {after : Option Ptr} {oldHead : TaggedPtr}
    (ht : s.pc t = .gcCas now after oldHead) (he : s.head = oldHead)
    (hdue : ∀ p, getPtr s.head = some p → s.stamp p = now ∨ s.stamp p = now + 1 ∨ s.stamp p + 2 ≤ now) :
    Sound ({ s with head := 0 }.deleteAt t now after (getPtr oldHead)) [] (Function.update drop t list) := by
  have htimed := h.timed t
  rw [ht] at htimed
  have hexp : expire oldHead (BitVec.ofNat 16 now) = true := htimed.due
  have hlate : ∀ p ∈ list, s.stamp p + 2 ≤ now := by
    intro p hp
    cases hlist : list with
    | nil => simp [hlist] at hp
    | cons q rest =>
      have hq : getPtr s.head = some q := (hlist ▸ h.linked).1
      have htop : s.stamp q + 2 ≤ now := by
        rcases hdue q hq with hw | hw | hw
        · rw [← he, not_expire (h.top q hq) (.inl hw)] at hexp
          cases hexp
        · rw [← he, not_expire (h.top q hq) (.inr hw)] at hexp
          cases hexp
        · exact hw
      rw [hlist] at hp
      rcases List.mem_cons.1 hp with rfl | hp
      · exact htop
      · have hle := List.rel_of_pairwise_cons (hlist ▸ h.sorted) hp
        omega
  have hnull : getPtr 0 = none := rfl
  have hk := h.toKept.gcCasOk ht he
  obtain ⟨pc, hpc, hm, hn, hd⟩ := deleteAt_timed { s with head := 0 } t now after (getPtr oldHead)
  rw [hpc] at hk ⊢
  refine ⟨hk, ?_, List.Pairwise.nil, ?_, h.freed⟩
  · intro p hp
    cases hnull.symm.trans hp
  · intro u
    change (Function.update s.pc t pc u).Timed s.stamp (Function.update drop t list u)
    by_cases hu : u = t
    · rw [hu, Function.update_self, Function.update_self]
      refine ⟨fun p n hp hnow => ?_, fun n hnow p hp => ?_, hd⟩
      · rw [hm] at hp
        rw [hn n hnow]
        exact htimed.mine p now hp rfl
      · rw [hn n hnow]
        exact hlate p hp
    · rw [Function.update_of_ne hu, Function.update_of_ne hu]
      exact h.timed u

theorem Sound.delete (h : Sound s list drop) {now : Nat} {after : Option Ptr} {n : Ptr}
    (ht : s.pc t = .deleting now after n) :
    ∃ rest, Sound ({ s with
      live := fun q => q ≠ n ∧ s.live q
      freed := ⟨s.data n, s.stamp n, now⟩ :: s.freed }.deleteAt t now after (s.next n)) list
        (Function.update drop t rest) := by
  obtain ⟨rest, hdrop, hk⟩ := h.toKept.delete ht
  have htimed := h.timed t
  rw [ht, hdrop] at htimed
  obtain ⟨pc, hpc, hm, hn, hd⟩ := deleteAt_timed { s with
    live := fun q => q ≠ n ∧ s.live q
    freed := ⟨s.data n, s.stamp n, now⟩ :: s.freed } t now after (s.next n)
  refine ⟨rest, ?_⟩
  rw [hpc] at hk ⊢
  refine ⟨hk, h.top, h.sorted, ?_, ?_⟩
  · intro u
    change (Function.update s.pc t pc u).Timed s.stamp (Function.update drop t rest u)
    by_cases hu : u = t
    · rw [hu, Function.update_self, Function.update_self]
      refine htimed.advance hm (fun m hnow => ?_) (List.subset_cons_self n rest) hd
      rw [hn m hnow]
      rfl
    · rw [Function.update_of_ne hu, Function.update_of_ne hu]
      exact h.timed u
  · intro f hf
    rcases List.mem_cons.1 hf with rfl | hf
    · exact htimed.late now rfl n List.mem_cons_self
    · exact h.freed f hf

theorem Sound.pushOn (h : Sound s list drop) {now : Nat} {n : Ptr} (pc : Pc) (hm : (s.pc t).mine? = some n)
    (hn : (s.pc t).now? = some now) (hm' : pc.mine? = some n) (hn' : pc.now? = some now) (hd : pc.Due)
    (next : Ptr → Option Ptr) (hk : Kept ({ s with next := next }.setPc t pc) list drop) :
    Sound ({ s with next := next }.setPc t pc) list drop := by
  refine ⟨hk, h.top, h.sorted, ?_, h.freed⟩
  refine (Function.forall_update_iff s.pc (p := fun u x => x.Timed s.stamp (drop u))).2 ⟨?_, fun u _ => h.timed u⟩
  exact (h.timed t).advance (hm'.trans hm.symm) (fun m hnow => hn.trans (hn'.symm.trans hnow)) (fun _ => id) hd

/-- A pushed node is on top of nodes that are not newer. -/
theorem Sound.pushCasOk (h : Sound s list drop) {now : Nat} {n : Ptr} {oldHead : TaggedPtr}
    (ht : s.pc t = .pushCas now n oldHead)
    (he : s.head = oldHead) (hle : ∀ p, getPtr s.head = some p → s.stamp p ≤ now) :
    Sound ({ s with head := makeTaggedPtr n (BitVec.ofNat 16 now) }.setPc t .idle) (n :: list) drop := by
  have hmine : At s list drop n (.mine t) := by
    change (s.pc t).mine? = some n
    rw [ht]
    rfl
  have htimed := h.timed t
  rw [ht] at htimed
  have hstamp : s.stamp n = now := htimed.mine n now rfl rfl
  obtain ⟨h0, h48⟩ := h.small n (h.place.mem n _ hmine)
  refine ⟨h.toKept.pushCasOk ht he, ?_, ?_, ?_, h.freed⟩
  · intro p hp
    change getPtr (makeTaggedPtr n _) = some p at hp
    change getTag (makeTaggedPtr n _) = BitVec.ofNat 16 (s.stamp p)
    rw [getPtr_makeTaggedPtr h0 h48] at hp
    cases hp
    rw [getTag_makeTaggedPtr h48, hstamp]
  · refine List.pairwise_cons.2 ⟨fun q hq => ?_, h.sorted⟩
    change s.stamp q ≤ s.stamp n
    rw [hstamp]
    cases hlist : list with
    | nil =>
      rw [hlist] at hq
      cases hq
    | cons top rest =>
      have htop := hle top (hlist ▸ h.linked).1
      rw [hlist] at hq
      rcases List.mem_cons.1 hq with rfl | hq
      · exact htop
      · exact (List.rel_of_pairwise_cons (hlist ▸ h.sorted) hq).trans htop
  · refine (Function.forall_update_iff s.pc (p := fun u x => x.Timed s.stamp (drop u))).2 ⟨?_, fun u _ => h.timed u⟩
    rw [h.drop_nil (t := t) (by rw [ht]; rfl)]
    exact .of_idle s.stamp

theorem Sound.step {start : Nat} (h : Sound s list drop) (hs : Step start t s s') (hc : Careful t s s') :
    ∃ list' drop', Sound s' list' drop' := by
  cases hs with
  | tick c hle hspan => exact ⟨list, drop, h.setClock c⟩
  | retire p d ht hp h0 h48 => exact ⟨list, drop, h.retire ht hp h0 h48⟩
  | tryGc ht => exact ⟨list, drop, h.tryGc ht⟩
  | gcLoad now after ht => exact ⟨list, drop, h.gcLoad ht⟩
  | gcCasOk now after oldHead ht he =>
    obtain ⟨pc, hpc, -⟩ := deleteAt_eq { s with head := 0 } t now after (getPtr oldHead)
    refine ⟨[], Function.update drop t list, h.gcCasOk ht he fun p hp => hc.drop now after oldHead p ht ?_ hp⟩
    intro hhead
    have hnull : getPtr 0 = none := rfl
    rw [hpc] at hhead
    change 0 = s.head at hhead
    rw [← hhead] at hp
    cases hnull.symm.trans hp
  | gcCasFail now after oldHead ht =>
    refine ⟨list, drop, h.finishGc ?_ ?_ (h.toKept.gcCasFail ht)⟩
    · rw [ht]
      rfl
    · rw [ht]
      rfl
  | delete now after n ht =>
    obtain ⟨rest, hrest⟩ := h.delete ht
    exact ⟨list, Function.update drop t rest, hrest⟩
  | pushLoad now n ht =>
    refine ⟨list, drop, h.pushOn (.pushLink now n s.head) ?_ ?_ rfl rfl trivial s.next (h.toKept.pushLoad ht)⟩
    · rw [ht]
      rfl
    · rw [ht]
      rfl
  | pushLink now n oldHead ht =>
    refine ⟨list, drop, h.pushOn (.pushCas now n oldHead) ?_ ?_ rfl rfl trivial _ (h.toKept.pushLink ht)⟩
    · rw [ht]
      rfl
    · rw [ht]
      rfl
  | pushCasOk now n oldHead ht he =>
    refine ⟨n :: list, drop, h.pushCasOk ht he fun p hp => hc.push now n oldHead p ht ?_ hp⟩
    intro hhead
    -- the node on top would be the one that is still to be pushed
    have hmine : At s list drop n (.mine t) := by
      change (s.pc t).mine? = some n
      rw [ht]
      rfl
    obtain ⟨h0, h48⟩ := h.small n (h.place.mem n _ hmine)
    change makeTaggedPtr n (BitVec.ofNat 16 now) = s.head at hhead
    have hlinked := h.linked
    rw [← hhead, getPtr_makeTaggedPtr h0 h48] at hlinked
    cases h.place.unique n .list (.mine t) (Segment.mem_of_some hlinked) hmine
  | pushCasFail now n oldHead ht =>
    refine ⟨list, drop, h.pushOn (.pushLink now n s.head) ?_ ?_ rfl rfl trivial s.next (h.toKept.pushCasFail ht)⟩
    · rw [ht]
      rfl
    · rw [ht]
      rfl

omit [DecidableEq Tid] in
theorem Sound.init {start : Nat} (h : Init start s) : Sound s [] (fun _ => []) := by
  have hnull : getPtr 0 = none := rfl
  refine ⟨Kept.init h, ?_, List.Pairwise.nil, ?_, ?_⟩
  · intro p hp
    rw [h.head] at hp
    cases hnull.symm.trans hp
  · intro t
    rw [h.pc t]
    exact .of_idle s.stamp
  · intro f hf
    rw [h.freed] at hf
    cases hf

theorem Sound.run {start : Nat} (h : Reachable (Init start) (CarefulStep start) s) :
    ∃ list drop, Sound s list drop := by
  apply h.invariant
  · intro s hi
    exact ⟨[], fun _ => [], Sound.init hi⟩
  · rintro s s' - ⟨list, drop, hsound⟩ ⟨t, hs, hc⟩
    exact hsound.step hs hc

/-- In a run of careful steps a collection frees only what has been retired for more than
one full unit. -/
theorem freed_after_grace {start : Nat} (h : Reachable (Init start) (CarefulStep start) s) {f : Freed Obj}
    (hf : f ∈ s.freed) :
    1 < f.now - f.ts := by
  obtain ⟨list, drop, hsound⟩ := Sound.run h
  have hh := hsound.freed f hf
  omega

/-- The steps of a run that has only to be careful from unit 2 on. -/
def TestStep (c : Nat) (s s' : State Unit Unit) : Prop := Step 0 () s s' ∧ (2 ≤ c → Careful () s s')

theorem Step.gcLoad_expired {start now : Nat} {after : Option Ptr} (ht : s.pc t = .gcLoad now after)
    (he : expire s.head (BitVec.ofNat 16 now) = true) : Step start t s (s.setPc t (.gcCas now after s.head)) := by
  have hh : Step start t s _ := Step.gcLoad s now after ht
  rw [if_pos he] at hh
  exact hh

theorem Step.gcCasOk_some {start now : Nat} {after : Option Ptr} {n : Ptr} (ht : s.pc t = .gcCas now after s.head)
    (hn : getPtr s.head = some n) : Step start t s ({ s with head := 0 }.setPc t (.deleting now after n)) := by
  have hh : Step start t s _ := Step.gcCasOk s now after s.head ht rfl
  rw [hn] at hh
  exact hh

theorem pushed (c : Nat) : ∃ s : State Unit Unit, Reachable (Init 0) (TestStep c) s ∧ s.pc () = .idle ∧ s.clock = 0 ∧
    s.head = makeTaggedPtr 1 (BitVec.ofNat 16 0) ∧ s.stamp 1 = 0 := by
  have hinit : Init 0 (⟨0, fun _ => none, fun _ => none, fun _ => False, fun _ => 0, 0, fun _ => .idle, []⟩ :
    State Unit Unit) :=
    ⟨rfl, fun _ => id, rfl, fun _ => rfl, rfl⟩
  have h0 : Reachable (Init 0) (TestStep c) _ := Reachable.of_init hinit
  have h1 := h0.tail ⟨.retire _ 1 () rfl id (by decide) (by decide), fun _ => ⟨nofun, nofun⟩⟩
  have h2 := h1.tail ⟨.gcLoad _ 0 (some 1) rfl, fun _ => ⟨nofun, nofun⟩⟩
  have h3 := h2.tail ⟨.pushLoad _ 0 1 rfl, fun _ => ⟨nofun, nofun⟩⟩
  have h4 := h3.tail ⟨.pushLink _ 0 1 0 rfl, fun _ => ⟨nofun, nofun⟩⟩
  have h5 := h4.tail ⟨.pushCasOk _ 0 1 0 rfl rfl, fun _ => ⟨nofun, fun _ _ _ _ _ _ hp => nomatch hp⟩⟩
  exact ⟨_, h5, rfl, rfl, rfl, rfl⟩

/-- An object is retired in unit 0 and collected in unit `c`. -/
theorem collected {c : Nat} (hc : 1 ≤ c ∧ c ≤ 2) :
    ∃ s : State Unit Unit, Reachable (Init 0) (TestStep c) s ∧ ∃ f ∈ s.freed, f.ts = 0 ∧ f.now = c := by
  obtain ⟨s, h5, hpc, hclock, hhead, hstamp⟩ := pushed c
  have hexp : expire s.head (BitVec.ofNat 16 c) = true := by
    rw [hhead]
    obtain rfl | rfl : c = 1 ∨ c = 2 := by omega
    · decide
    · decide
  have hptr : getPtr s.head = some 1 := by
    rw [hhead]
    exact getPtr_makeTaggedPtr (by decide) (by decide) _
  have h6 := h5.tail ⟨.tick s c (by omega) (by omega), fun _ => ⟨by simp [hpc], by simp [hpc]⟩⟩
  have h7 := h6.tail ⟨.tryGc _ hpc, fun _ => ⟨by simp [hpc], by simp [hpc]⟩⟩
  have h8 := h7.tail ⟨.gcLoad_expired rfl hexp, fun _ => ⟨nofun, nofun⟩⟩
  have h9 := h8.tail ⟨.gcCasOk_some rfl hptr, fun hle => ⟨?_, nofun⟩⟩
  · have h10 := h9.tail ⟨.delete _ c none 1 rfl, fun _ => ⟨nofun, nofun⟩⟩
    obtain ⟨pc, he, -⟩ := deleteAt_eq _ () c none _
    refine ⟨_, h10, ?_⟩
    rw [he]
    exact ⟨_, List.mem_cons_self, hstamp, rfl⟩
  · intro now after oldHead p hgc _ hp
    cases hgc
    cases hptr.symm.trans hp
    refine .inr (.inr ?_)
    change s.stamp 1 + 2 ≤ c
    omega

theorem freed_after_grace_collected : ∃ s : State Unit Unit, Reachable (Init 0) (CarefulStep 0) s ∧
    ∃ f ∈ s.freed, 1 < f.now - f.ts := by
  obtain ⟨s, hr, hf⟩ := collected (c := 2) ⟨by decide, le_rfl⟩
  have hcareful : Reachable (Init 0) (CarefulStep 0) s := hr.mono fun _ _ hs => ⟨(), hs.1, hs.2 le_rfl⟩
  obtain ⟨f, hf, -⟩ := hf
  exact ⟨s, hcareful, f, hf, freed_after_grace hcareful hf⟩

/-- One unit is enough for a collection. -/
theorem freed_within_unit : ¬ ∀ (start : Nat) (s : State Unit Unit), Reachable (Init start) (Next start) s →
    ∀ f ∈ s.freed, 1 < f.now - f.ts := by
  intro hall
  obtain ⟨s, hr, hf⟩ := collected (c := 1) ⟨le_rfl, by decide⟩
  obtain ⟨f, hf, hts, hnow⟩ := hf
  have hh := hall 0 s (hr.mono fun _ _ hs => ⟨(), hs.1⟩) f hf
  omega

end Wizard.RetireList
