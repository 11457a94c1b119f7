import Wizard.RouteRcu

/-! The lists of `route_rcu.c` between the stores of a section: the forward links make a ring
of what is on a list now, the backward links one of what will be on it after the store. -/

namespace Wizard.RouteRcu

/-- The stage of the entries on the list of a head. -/
def Ptr.stage : Ptr → Stage
  | .junk c => .moved c
  | _ => .listed

/-- The list of the head is whole: a `route_clear` frees its `junk` entry by entry. -/
def State.Has (s : State) : Ptr → Prop
  | .routeList => True
  | .junk c => s.frame c = .ready ∨ s.frame c = .moving ∨ s.frame c = .unlocked ∨ s.frame c = .syncing
  | .entry _ => False

/-- What will be on the list of a head after the next store of the section. -/
def State.after (s : State) (h : Ptr) (l : List Nat) : List Nat :=
  match s.lock with
  | some (.publish a k) => if k.head = h then a :: l else l
  | some (.delNext a _) => if h = .routeList then l.erase a else l
  | _ => l

def entries (l : List Nat) : List Ptr := l.map .entry

section Conditions

variable (s : State) (ls : Ptr → List Nat)

/-- Why `a`, behind `front`, is to be taken out. -/
def Caller.Takes (a : Nat) (front back : List Nat) : Caller → Prop
  | .update => ∀ x ∈ front, s.addr x ≠ s.addr a
  | .clear c rep1 => s.frame c = .moving ∧ front = [] ∧ rep1 = (entries back).headD .routeList

/-- Why `a` is to go onto the list of the caller. -/
def Caller.Adds (a : Nat) : Caller → Prop
  | .update => s.stage a = .adding
  | .clear c rep1 => s.frame c = .moving ∧ s.stage a = .moved c ∧ a ∉ ls (.junk c) ∧
      rep1 = (entries (ls .routeList)).headD .routeList

def Section.Ok : Section → Prop
  | .scan addr rep => ∃ front back, ls .routeList = front ++ back ∧ rep = (entries back).headD .routeList ∧
      ∀ x ∈ front, s.addr x ≠ addr
  | .delBack a k => ∃ front back, ls .routeList = front ++ a :: back ∧ k.Takes s a front back
  | .delNext a k => ∃ front back, ls .routeList = front ++ a :: back ∧ k.Takes s a front back ∧
      s.prev (.entry a) = (entries front).getLastD .routeList
  | .addNext a k => k.Adds s ls a
  | .addPrev a k => k.Adds s ls a ∧ s.next (.entry a) = s.next k.head
  | .addBack a k => k.Adds s ls a ∧ s.next (.entry a) = s.next k.head ∧ s.prev (.entry a) = k.head
  | .publish a k => k.Adds s ls a ∧ s.next (.entry a) = s.next k.head
  | .clear c rep rep1 => s.frame c = .moving ∧ rep = (entries (ls .routeList)).headD .routeList ∧ rep1 = s.next rep
  | .unlock a => ∀ x, a = some x → s.stage x = .listed ∧ x ∉ ls .routeList

/-- The call of `route_clear` has `a` in its hands. -/
def Section.Carries (c a : Nat) : Section → Prop
  | .addNext b (.clear d _) | .addPrev b (.clear d _) | .addBack b (.clear d _)
    | .publish b (.clear d _) => d = c ∧ b = a
  | _ => False

def Frame.Ok (c : Nat) : Frame → Prop
  | .absent | .ready => ls (.junk c) = []
  | .freeing rep rep1 => rep1 = s.next rep ∧ (ls (.junk c)).Nodup ∧
      Segment (fun p => some (s.next p)) (some rep) (entries (ls (.junk c))) (some (.junk c))
  | .flagged a rep1 => s.stage a = .moved c ∧ (a :: ls (.junk c)).Nodup ∧
      Segment (fun p => some (s.next p)) (some rep1) (entries (ls (.junk c))) (some (.junk c))
  | _ => True

/-- `ls h` are the entries on the list of `h`. -/
structure Lists : Prop where
  next : ∀ h, s.Has h → Ring s.next h (entries (ls h))
  prev : ∀ h, s.Has h → Ring s.prev h (entries (s.after h (ls h))).reverse
  stage : ∀ h a, a ∈ ls h → s.stage a = h.stage
  other : ∀ b, ls (.entry b) = []
  lock : ∀ sec, s.lock = some sec → sec.Ok s ls
  frame : ∀ c, (s.frame c).Ok s ls c
  listed : ∀ a, s.stage a = .listed → a ∈ ls .routeList ∨ s.lock = some (.unlock (some a))
  moved : ∀ a c, s.stage a = .moved c → a ∈ ls (.junk c) ∨ (∃ sec, s.lock = some sec ∧ sec.Carries c a) ∨
    ∃ rep1, s.frame c = .flagged a rep1

end Conditions

variable {s s' : State} {ls ls' : Ptr → List Nat} {h h' p : Ptr} {a c : Nat}

@[simp] theorem entries_nil : entries [] = [] := rfl

@[simp] theorem entries_cons (a : Nat) (l : List Nat) : entries (a :: l) = .entry a :: entries l := rfl

@[simp] theorem entries_append (l l' : List Nat) : entries (l ++ l') = entries l ++ entries l' := List.map_append

theorem mem_entries {l : List Nat} : p ∈ entries l ↔ ∃ a ∈ l, .entry a = p := List.mem_map

theorem entry_mem_entries {l : List Nat} : .entry a ∈ entries l ↔ a ∈ l := by
  rw [mem_entries]
  constructor
  · rintro ⟨b, hb, hab⟩
    cases hab
    exact hb
  · intro ha
    exact ⟨a, ha, rfl⟩

theorem Ptr.stage_inj (hh : s.Has h) (hh' : s.Has h') (he : h.stage = h'.stage) : h = h' := by
  cases h <;> cases h' <;> simp_all [Ptr.stage, State.Has]

theorem State.Has.ne_entry (hh : s.Has h) : h ≠ .entry a := by
  rintro rfl
  exact hh

theorem Lists.nodup (hi : Lists s ls) (hh : s.Has h) : (ls h).Nodup :=
  List.Nodup.of_map _ (List.nodup_cons.1 (hi.next h hh).nodup).2

theorem Lists.not_mem (hi : Lists s ls) (hh : s.Has h) (ha : s.stage a ≠ h.stage) : .entry a ∉ h :: entries (ls h) := by
  intro hm
  rcases List.mem_cons.1 hm with he | hm
  · exact hh.ne_entry he.symm
  · exact ha (hi.stage h a (entry_mem_entries.1 hm))

/-- No node is part of two lists. -/
theorem Lists.disjoint (hi : Lists s ls) (hh : s.Has h) (hh' : s.Has h') (hne : h' ≠ h)
    (hp : p ∈ h :: entries (ls h)) : p ∉ h' :: entries (ls h') := by
  rcases List.mem_cons.1 hp with rfl | hp
  · intro hm
    rcases List.mem_cons.1 hm with he | hm
    · exact hne he.symm
    · obtain ⟨a, -, rfl⟩ := mem_entries.1 hm
      exact hh
  · obtain ⟨a, ha, rfl⟩ := mem_entries.1 hp
    refine hi.not_mem hh' fun he => hne ?_
    exact (Ptr.stage_inj hh hh' ((hi.stage h a ha).symm.trans he)).symm

/-- A node outside the list that a `route_clear` is freeing. -/
theorem Lists.not_mem_junk (hi : Lists s ls) (hh : s.Has h) (hc : ¬ s.Has (.junk c)) (hp : p ∈ h :: entries (ls h)) :
    p ∉ .junk c :: entries (ls (.junk c)) := by
  rcases List.mem_cons.1 hp with rfl | hp
  · intro hm
    rcases List.mem_cons.1 hm with rfl | hm
    · exact hc hh
    · obtain ⟨a, -, rfl⟩ := mem_entries.1 hm
      exact hh
  · obtain ⟨a, ha, rfl⟩ := mem_entries.1 hp
    intro hm
    have hm' : a ∈ ls (.junk c) := by simpa [entry_mem_entries] using hm
    have he : h.stage = Stage.moved c := (hi.stage h a ha).symm.trans (hi.stage _ a hm')
    cases h with
    | routeList => cases he
    | junk d =>
      cases he
      exact hc hh
    | entry b => exact hh

theorem Frame.Ok.congr {f : Frame} (hf : f.Ok s ls c)
    (hn : ¬ s.Has (.junk c) → s.frame c = f → ∀ p ∈ Ptr.junk c :: entries (ls (.junk c)), s'.next p = s.next p)
    (hc : s.frame c = f) (hls : ls' (.junk c) = ls (.junk c))
    (hs : ∀ a, s.stage a = .moved c → s'.stage a = .moved c) : f.Ok s' ls' c := by
  cases f with
  | absent => exact hls.trans hf
  | ready => exact hls.trans hf
  | moving => exact trivial
  | unlocked => exact trivial
  | syncing => exact trivial
  | freeing rep rep1 =>
    have hn := hn (by simp [State.Has, hc]) hc
    obtain ⟨hr, hnd, hseg⟩ := hf
    simp only [Frame.Ok, hls]
    refine ⟨?_, hnd, hseg.congr fun p hp => congrArg some (hn p (List.mem_cons_of_mem _ hp))⟩
    rw [hr]
    refine (hn rep ?_).symm
    cases hl : entries (ls (.junk c)) with
    | nil =>
      rw [hl] at hseg
      cases hseg
      exact List.mem_cons_self
    | cons q l =>
      rw [hl] at hseg
      cases hseg.1
      exact List.mem_cons_of_mem _ List.mem_cons_self
  | flagged a rep1 =>
    have hn := hn (by simp [State.Has, hc]) hc
    obtain ⟨ha, hm, hseg⟩ := hf
    simp only [Frame.Ok, hls]
    exact ⟨hs a ha, hm, hseg.congr fun p hp => congrArg some (hn p (List.mem_cons_of_mem _ hp))⟩

/-- Steps outside the section leave what it relies on. -/
structure Apart (s s' : State) (ls ls' : Ptr → List Nat) : Prop where
  lock : s'.lock = s.lock
  next : ∀ p, (∀ c, p = .junk c → s.frame c = .moving) → s'.next p = s.next p
  prev : ∀ p, (∀ c, p = .junk c → s.frame c = .moving) → s'.prev p = s.prev p
  addr : ∀ a, s.stage a = .listed → s'.addr a = s.addr a
  adding : ∀ a, s.stage a = .adding → s'.stage a = .adding
  listed : ∀ a, s'.stage a = .listed ↔ s.stage a = .listed
  moved : ∀ a c, s.frame c = .moving → s.stage a = .moved c → s'.stage a = .moved c
  moving : ∀ c, s.frame c = .moving → s'.frame c = .moving
  routes : ls' .routeList = ls .routeList
  junk : ∀ c, s.frame c = .moving → ls' (.junk c) = ls (.junk c)

theorem Apart.next_entry (hs : Apart s s' ls ls') (a : Nat) : s'.next (.entry a) = s.next (.entry a) :=
  hs.next _ fun _ hc => by cases hc

theorem Caller.Takes.apart {k : Caller} {front back : List Nat} (hk : k.Takes s a front back)
    (hs : Apart s s' ls ls') (hl : ∀ x ∈ front ++ a :: back, s.stage x = .listed) : k.Takes s' a front back := by
  cases k with
  | update =>
    intro x hx
    rw [hs.addr x (hl x (List.mem_append_left _ hx)), hs.addr a (hl a (by simp))]
    exact hk x hx
  | clear c rep1 => exact ⟨hs.moving c hk.1, hk.2⟩

theorem Caller.Adds.apart {k : Caller} (hk : k.Adds s ls a) (hs : Apart s s' ls ls') : k.Adds s' ls' a := by
  cases k with
  | update => exact hs.adding a hk
  | clear c rep1 =>
    obtain ⟨hc, ha, hm, hr⟩ := hk
    refine ⟨hs.moving c hc, hs.moved a c hc ha, ?_, ?_⟩
    · rwa [hs.junk c hc]
    · rwa [hs.routes]

theorem Caller.Adds.next_head {k : Caller} (hk : k.Adds s ls a) (hs : Apart s s' ls ls') :
    s'.next k.head = s.next k.head := by
  refine hs.next _ fun c hc => ?_
  cases k with
  | update => cases hc
  | clear d rep1 =>
    cases hc
    exact hk.1

theorem Section.Ok.apart {sec : Section} (h : sec.Ok s ls) (hi : ∀ a ∈ ls .routeList, s.stage a = .listed)
    (hs : Apart s s' ls ls') : sec.Ok s' ls' := by
  cases sec with
  | scan addr rep =>
    obtain ⟨front, back, hl, hr, hf⟩ := h
    rw [hl] at hi
    refine ⟨front, back, hs.routes.trans hl, hr, fun x hx => ?_⟩
    rw [hs.addr x (hi x (List.mem_append_left _ hx))]
    exact hf x hx
  | delBack a k =>
    obtain ⟨front, back, hl, hk⟩ := h
    rw [hl] at hi
    exact ⟨front, back, hs.routes.trans hl, hk.apart hs hi⟩
  | delNext a k =>
    obtain ⟨front, back, hl, hk, hp⟩ := h
    rw [hl] at hi
    refine ⟨front, back, hs.routes.trans hl, hk.apart hs hi, ?_⟩
    rw [hs.prev _ fun _ hc => by cases hc]
    exact hp
  | addNext a k => exact Caller.Adds.apart h hs
  | addPrev a k =>
    refine ⟨h.1.apart hs, ?_⟩
    rw [hs.next_entry, h.1.next_head hs]
    exact h.2
  | addBack a k =>
    refine ⟨h.1.apart hs, ?_, ?_⟩
    · rw [hs.next_entry, h.1.next_head hs]
      exact h.2.1
    · rw [hs.prev _ fun _ hc => by cases hc]
      exact h.2.2
  | publish a k =>
    refine ⟨h.1.apart hs, ?_⟩
    rw [hs.next_entry, h.1.next_head hs]
    exact h.2
  | clear c rep rep1 =>
    obtain ⟨hc, hr, hr1⟩ := h
    refine ⟨hs.moving c hc, ?_, ?_⟩
    · rwa [hs.routes]
    · rw [hr1, hs.next]
      intro d hd
      rw [hd] at hr
      cases hl : ls .routeList <;> simp [hl] at hr
  | unlock a =>
    intro x hx
    rw [hs.listed, hs.routes]
    exact h x hx

theorem Lists.of_apart (hi : Lists s ls) (hs : Apart s s' ls ls')
    (hnext : ∀ h, s'.Has h → Ring s'.next h (entries (ls' h)))
    (hprev : ∀ h, s'.Has h → Ring s'.prev h (entries (s'.after h (ls' h))).reverse)
    (hjunk : ∀ c a, a ∈ ls' (.junk c) → s'.stage a = .moved c) (hother : ∀ b, ls' (.entry b) = [])
    (hframe : ∀ c, (s'.frame c).Ok s' ls' c)
    (hmoved : ∀ a c, s'.stage a = .moved c → a ∈ ls' (.junk c) ∨ (∃ sec, s'.lock = some sec ∧ sec.Carries c a) ∨
      ∃ rep1, s'.frame c = .flagged a rep1) : Lists s' ls' := by
  refine ⟨hnext, hprev, ?_, hother, ?_, hframe, ?_, hmoved⟩
  · intro h a ha
    cases h with
    | routeList =>
      rw [hs.routes] at ha
      exact (hs.listed a).2 (hi.stage _ a ha)
    | junk c => exact hjunk c a ha
    | entry b => simp [hother b] at ha
  · intro sec hsec
    exact (hi.lock sec (hs.lock ▸ hsec)).apart (hi.stage .routeList) hs
  · intro a ha
    rw [hs.routes, hs.lock]
    exact hi.listed a ((hs.listed a).1 ha)

theorem Lists.setReader (hi : Lists s ls) (t : Nat) (r : Reader) : Lists (s.setReader t r) ls :=
  ⟨hi.next, hi.prev, hi.stage, hi.other, hi.lock, hi.frame, hi.listed, hi.moved⟩

theorem Lists.readUnlock (hi : Lists s ls) (t : Nat) (r : Reader) :
    Lists ({ s with awaits := fun p u => u ≠ t ∧ s.awaits p u }.setReader t r) ls :=
  ⟨hi.next, hi.prev, hi.stage, hi.other, hi.lock, hi.frame, hi.listed, hi.moved⟩

theorem Apart.of_stage (hl : s'.lock = s.lock) (hn : s'.next = s.next) (hp : s'.prev = s.prev) (hf : s'.frame = s.frame)
    (haddr : ∀ a, s.stage a = .listed → s'.addr a = s.addr a) (hadd : ∀ a, s.stage a = .adding → s'.stage a = .adding)
    (hlist : ∀ a, s'.stage a = .listed ↔ s.stage a = .listed)
    (hmoved : ∀ a c, s'.stage a = .moved c ↔ s.stage a = .moved c) : Apart s s' ls ls := by
  refine ⟨hl, fun p _ => congrFun hn p, fun p _ => congrFun hp p, haddr, hadd, hlist, ?_, ?_, rfl, fun c _ => rfl⟩
  · intro a c _ ha
    exact (hmoved a c).2 ha
  · intro c hc
    rw [hf]
    exact hc

/-- An entry that is on no list changes hands. -/
theorem Lists.of_stage (hi : Lists s ls) (hl : s'.lock = s.lock) (hn : s'.next = s.next) (hp : s'.prev = s.prev)
    (hf : s'.frame = s.frame) (haddr : ∀ a, s.stage a = .listed → s'.addr a = s.addr a)
    (hadd : ∀ a, s.stage a = .adding → s'.stage a = .adding) (hlist : ∀ a, s'.stage a = .listed ↔ s.stage a = .listed)
    (hmoved : ∀ a c, s'.stage a = .moved c ↔ s.stage a = .moved c) : Lists s' ls := by
  have hhas : ∀ h, s'.Has h ↔ s.Has h := by
    intro h
    cases h <;> simp [State.Has, hf]
  have hafter : ∀ h l, s'.after h l = s.after h l := by
    intro h l
    rw [State.after, State.after, hl]
  refine hi.of_apart (.of_stage hl hn hp hf haddr hadd hlist hmoved) ?_ ?_ ?_ hi.other ?_ ?_
  · intro h hh
    rw [hn]
    exact hi.next h ((hhas h).1 hh)
  · intro h hh
    rw [hp, hafter]
    exact hi.prev h ((hhas h).1 hh)
  · intro c a ha
    exact (hmoved a c).2 (hi.stage _ a ha)
  · intro c
    rw [hf]
    refine (hi.frame c).congr (fun _ _ p _ => congrFun hn p) rfl rfl fun a ha => (hmoved a c).2 ha
  · intro a c ha
    rw [hl, hf]
    exact hi.moved a c ((hmoved a c).1 ha)

theorem Lists.adds_of_carries (hi : Lists s ls) {sec : Section} (hl : s.lock = some sec) (hc : sec.Carries c a) :
    s.frame c = .moving ∧ s.stage a = .moved c ∧ a ∉ ls (.junk c) := by
  have hok := hi.lock sec hl
  have key : ∀ k : Caller, k.Adds s ls a → (∃ rep1, k = .clear c rep1) →
      s.frame c = .moving ∧ s.stage a = .moved c ∧ a ∉ ls (.junk c) := by
    rintro k hk ⟨rep1, rfl⟩
    exact ⟨hk.1, hk.2.1, hk.2.2.1⟩
  cases sec with
  | addNext b k =>
    cases k with
    | update => cases hc
    | clear d rep1 =>
      obtain ⟨rfl, rfl⟩ := hc
      exact key (.clear _ rep1) hok ⟨rep1, rfl⟩
  | addPrev b k =>
    cases k with
    | update => cases hc
    | clear d rep1 =>
      obtain ⟨rfl, rfl⟩ := hc
      exact key (.clear _ rep1) hok.1 ⟨rep1, rfl⟩
  | addBack b k =>
    cases k with
    | update => cases hc
    | clear d rep1 =>
      obtain ⟨rfl, rfl⟩ := hc
      exact key (.clear _ rep1) hok.1 ⟨rep1, rfl⟩
  | publish b k =>
    cases k with
    | update => cases hc
    | clear d rep1 =>
      obtain ⟨rfl, rfl⟩ := hc
      exact key (.clear _ rep1) hok.1 ⟨rep1, rfl⟩
  | _ => cases hc

theorem Lists.after_junk (hi : Lists s ls) (hc : s.frame c ≠ .moving) {l : List Nat} : s.after (.junk c) l = l := by
  rw [State.after]
  cases hs : s.lock with
  | none => rfl
  | some sec =>
    have hsec := hi.lock sec hs
    cases sec with
    | publish a k =>
      cases k with
      | update => rfl
      | clear d rep1 =>
        have hd : d ≠ c := by
          rintro rfl
          exact hc hsec.1.1
        simp [Caller.head, hd]
    | _ => rfl

section FrameSteps

variable {f : Frame} (hi : Lists s ls) (hl : s'.lock = s.lock) (hn : ∀ p, p ≠ .junk c → s'.next p = s.next p)
  (hp : ∀ p, p ≠ .junk c → s'.prev p = s.prev p) (haddr : s'.addr = s.addr) (hc : s.frame c ≠ .moving)
  (hf : s'.frame = Function.update s.frame c f) (hst : ∀ a, s.stage a ≠ .moved c → s'.stage a = s.stage a)
  (hst' : ∀ a, s.stage a = .moved c → s'.stage a = .moved c ∨ s'.stage a = .free)
  (hls : ∀ h, h ≠ .junk c → ls' h = ls h)
include hl hn hp haddr hc hf hst hst' hls

theorem apart_of_frame : Apart s s' ls ls' := by
  have hne : ∀ d, s.frame d = .moving → d ≠ c := by
    rintro d hd rfl
    exact hc hd
  refine ⟨hl, ?_, ?_, fun a _ => congrFun haddr a, ?_, ?_, ?_, ?_, hls _ (by simp), ?_⟩
  · intro p hm
    exact hn p fun he => hne c (hm c he) rfl
  · intro p hm
    exact hp p fun he => hne c (hm c he) rfl
  · intro a ha
    rw [hst a (by simp [ha]), ha]
  · intro a
    by_cases ha : s.stage a = .moved c
    · rcases hst' a ha with h | h <;> simp [h, ha]
    · rw [hst a ha]
  · intro a d hd ha
    rw [hst a (by simpa [ha] using hne d hd), ha]
  · intro d hd
    rw [hf, Function.update_of_ne (hne d hd), hd]
  · intro d hd
    exact hls _ (by simpa using hne d hd)

include hi

/-- A call of `route_clear` goes on outside the lock. -/
theorem Lists.of_frame
    (hring : s'.Has (.junk c) → Ring s'.next (.junk c) (entries (ls' (.junk c))) ∧
      Ring s'.prev (.junk c) (entries (ls' (.junk c))).reverse)
    (hjunk : ∀ a ∈ ls' (.junk c), s'.stage a = .moved c) (hok : f.Ok s' ls' c)
    (hmoved : ∀ a, s'.stage a = .moved c → a ∈ ls' (.junk c) ∨ ∃ rep1, f = .flagged a rep1) : Lists s' ls' := by
  have hap := apart_of_frame hl hn hp haddr hc hf hst hst' hls
  have hhas : ∀ h, h ≠ .junk c → s'.Has h → s.Has h := by
    intro h hne hh
    cases h with
    | routeList => exact trivial
    | entry b => exact hh
    | junk d =>
      rw [State.Has, hf, Function.update_of_ne fun hd => hne (by rw [hd])] at hh
      exact hh
  have hout : ∀ h, h ≠ .junk c → s.Has h → .junk c ∉ h :: entries (ls h) := by
    intro h hne hh hm
    rcases List.mem_cons.1 hm with he | hm
    · exact hne he.symm
    · obtain ⟨a, -, ha⟩ := mem_entries.1 hm
      cases ha
  have hafter : ∀ h l, s'.after h l = s.after h l := by
    intro h l
    rw [State.after, State.after, hl]
  refine hi.of_apart hap ?_ ?_ ?_ ?_ ?_ ?_
  · intro h hh
    by_cases hne : h = .junk c
    · subst hne
      exact (hring hh).1
    · rw [hls h hne]
      refine (hi.next h (hhas h hne hh)).congr fun p hpm => hn p ?_
      exact ne_of_mem_of_not_mem hpm (hout h hne (hhas h hne hh))
  · intro h hh
    rw [hafter]
    by_cases hne : h = .junk c
    · subst hne
      rw [hi.after_junk hc]
      exact (hring hh).2
    · rw [hls h hne]
      refine (hi.prev h (hhas h hne hh)).congr fun p hpm => hp p ?_
      rintro rfl
      rcases List.mem_cons.1 hpm with he | hpm
      · exact hne he.symm
      · obtain ⟨a, -, ha⟩ := mem_entries.1 (List.mem_reverse.1 hpm)
        cases ha
  · intro d a ha
    by_cases hd : d = c
    · subst hd
      exact hjunk a ha
    · rw [hls _ (by simpa using hd)] at ha
      have hm : s.stage a = .moved d := hi.stage _ a ha
      rw [hst a (by simpa [hm] using hd), hm]
  · intro b
    rw [hls _ (by simp), hi.other]
  · intro d
    rw [hf]
    by_cases hd : d = c
    · subst hd
      simpa using hok
    · rw [Function.update_of_ne hd]
      refine (hi.frame d).congr (fun _ _ p hpm => hn p ?_) rfl (hls _ (by simpa using hd)) ?_
      · rintro rfl
        rcases List.mem_cons.1 hpm with he | hpm
        · cases he
          exact hd rfl
        · obtain ⟨a, -, ha⟩ := mem_entries.1 hpm
          cases ha
      · intro a ha
        rw [hst a (by simpa [ha] using hd), ha]
  · intro a d ha
    rw [hl, hf]
    by_cases hd : d = c
    · subst hd
      rcases hmoved a ha with h | ⟨rep1, h⟩
      · exact .inl h
      · right
        right
        exact ⟨rep1, by simp [h]⟩
    · rw [hls _ (by simpa using hd), Function.update_of_ne hd]
      refine hi.moved a d ?_
      by_cases hac : s.stage a = .moved c
      · rcases hst' a hac with h | h
        · rw [h] at ha
          cases ha
          exact absurd rfl hd
        · rw [h] at ha
          cases ha
      · rw [← hst a hac, ha]

end FrameSteps

section Outside

variable (hi : Lists s ls)
include hi

/-- An entry goes from one hand to another, neither of them a list. -/
theorem Lists.passOn {st st' : Stage} (hst : s'.stage = Function.update s.stage a st') (ha : s.stage a = st)
    (h : st = .free ∨ st = .deleted ∨ st = .queued ∨ st = .freeing)
    (h' : st' = .adding ∨ st' = .queued ∨ st' = .freeing ∨ st' = .free) (hl : s'.lock = s.lock) (hn : s'.next = s.next)
    (hp : s'.prev = s.prev) (hf : s'.frame = s.frame) (haddr : ∀ b, b ≠ a → s'.addr b = s.addr b) : Lists s' ls := by
  have hne : ∀ b, b ≠ a → s'.stage b = s.stage b := by
    intro b hb
    rw [hst, Function.update_of_ne hb]
  have hself : s'.stage a = st' := by
    rw [hst, Function.update_self]
  refine hi.of_stage hl hn hp hf ?_ ?_ ?_ ?_
  · intro b hb
    refine haddr b ?_
    rintro rfl
    rw [ha] at hb
    simp [hb] at h
  · intro b hb
    rw [hne b, hb]
    rintro rfl
    rw [ha] at hb
    simp [hb] at h
  · intro b
    by_cases hb : b = a
    · rw [hb, hself, ha]
      rcases h with rfl | rfl | rfl | rfl <;> rcases h' with rfl | rfl | rfl | rfl <;> simp
    · rw [hne b hb]
  · intro b d
    by_cases hb : b = a
    · rw [hb, hself, ha]
      rcases h with rfl | rfl | rfl | rfl <;> rcases h' with rfl | rfl | rfl | rfl <;> simp
    · rw [hne b hb]

theorem Lists.mem_junk (h : s.frame c ≠ .moving) (hf : ∀ rep1, s.frame c ≠ .flagged a rep1)
    (ha : s.stage a = .moved c) : a ∈ ls (.junk c) := by
  rcases hi.moved a c ha with hm | ⟨sec, hl, hcar⟩ | ⟨rep1, hf'⟩
  · exact hm
  · exact absurd (hi.adds_of_carries hl hcar).1 h
  · exact absurd hf' (hf rep1)

theorem Lists.initJunk (h : s.frame c = .absent) :
    Lists (((s.setNext (.junk c) (.junk c)).setPrev (.junk c) (.junk c)).setFrame c .ready) ls := by
  have hls : ls (.junk c) = [] := by
    have hok := hi.frame c
    rw [h] at hok
    exact hok
  refine hi.of_frame (c := c) rfl (fun p hp => Function.update_of_ne hp _ _) (fun p hp => Function.update_of_ne hp _ _)
    rfl (by simp [h]) rfl (fun _ _ => rfl) (fun _ h => .inl h) (fun _ _ => rfl) ?_ (hi.stage (.junk c)) hls
    fun a ha => .inl (hi.mem_junk (by simp [h]) (by simp [h]) ha)
  intro _
  rw [hls]
  exact ⟨Ring.empty (Function.update_self ..), Ring.empty (Function.update_self ..)⟩

theorem Lists.synchronize (h : s.frame c = .unlocked) : Lists ((s.await (.junk c)).setFrame c .syncing) ls := by
  have hh : s.Has (.junk c) := by simp [State.Has, h]
  refine hi.of_frame (c := c) rfl (fun _ _ => rfl) (fun _ _ => rfl) rfl (by simp [h]) rfl (fun _ _ => rfl)
    (fun _ h => .inl h) (fun _ _ => rfl) (fun _ => ⟨hi.next _ hh, ?_⟩) (hi.stage (.junk c)) trivial
    fun a ha => .inl (hi.mem_junk (by simp [h]) (by simp [h]) ha)
  have hp := hi.prev _ hh
  rwa [hi.after_junk (by simp [h])] at hp

theorem Lists.synchronized (h : s.frame c = .syncing) :
    Lists (s.setFrame c (.freeing (s.next (.junk c)) (s.next (s.next (.junk c))))) ls := by
  have hh : s.Has (.junk c) := by simp [State.Has, h]
  refine hi.of_frame (c := c) rfl (fun _ _ => rfl) (fun _ _ => rfl) rfl (by simp [h]) rfl (fun _ _ => rfl)
    (fun _ h => .inl h) (fun _ _ => rfl) ?_ (hi.stage (.junk c)) ⟨rfl, hi.nodup hh, (hi.next _ hh).tail⟩
    fun a ha => .inl (hi.mem_junk (by simp [h]) (by simp [h]) ha)
  intro hno
  simp [State.Has, State.setFrame] at hno

/-- The `route_clear` is about to free the first entry of what is left of its list. -/
theorem Lists.freeing {rep1 : Ptr} (h : s.frame c = .freeing (.entry a) rep1) :
    ∃ l, ls (.junk c) = a :: l ∧ (a :: l).Nodup ∧
      Segment (fun p => some (s.next p)) (some rep1) (entries l) (some (.junk c)) := by
  have hok := hi.frame c
  rw [h] at hok
  obtain ⟨hr, hnd, hseg⟩ := hok
  cases hl : ls (.junk c) with
  | nil =>
    rw [hl] at hseg
    cases hseg
  | cons b l =>
    rw [hl] at hseg
    cases hseg.1
    rw [hr]
    exact ⟨l, rfl, hl ▸ hnd, hseg.2⟩

theorem Lists.clearFlag {rep1 : Ptr} {l : List Nat} (h : s.frame c = .freeing (.entry a) rep1)
    (hl : ls (.junk c) = a :: l) (hnd : (a :: l).Nodup)
    (hseg : Segment (fun p => some (s.next p)) (some rep1) (entries l) (some (.junk c))) :
    Lists ((s.flag a).setFrame c (.flagged a rep1)) (Function.update ls (.junk c) l) := by
  have hmem : ∀ b, b ∈ ls (.junk c) ↔ b = a ∨ b ∈ l := by simp [hl]
  refine hi.of_frame (c := c) rfl (fun _ _ => rfl) (fun _ _ => rfl) rfl (by simp [h]) rfl (fun _ _ => rfl)
    (fun _ h => .inl h) (fun h' hne => Function.update_of_ne hne _ _) ?_ ?_ ?_ ?_
  · intro hno
    simp [State.Has, State.setFrame] at hno
  · intro b hb
    rw [Function.update_self] at hb
    exact hi.stage (.junk c) b ((hmem b).2 (.inr hb))
  · simp only [Frame.Ok, Function.update_self]
    exact ⟨hi.stage (.junk c) a ((hmem a).2 (.inl rfl)), hnd, hseg⟩
  · intro b hb
    rw [Function.update_self]
    rcases (hmem b).1 (hi.mem_junk (by simp [h]) (by simp [h]) hb) with rfl | hm
    · exact .inr ⟨rep1, rfl⟩
    · exact .inl hm

theorem Lists.flagged {rep1 : Ptr} (h : s.frame c = .flagged a rep1) :
    s.stage a = .moved c ∧ (a :: ls (.junk c)).Nodup ∧
    Segment (fun p => some (s.next p)) (some rep1) (entries (ls (.junk c))) (some (.junk c)) := by
  have hok := hi.frame c
  rw [h] at hok
  exact hok

theorem Lists.clearFree {rep1 : Ptr} (h : s.frame c = .flagged a rep1) :
    Lists ((s.setStage a .free).setFrame c (.freeing rep1 (s.next rep1))) ls := by
  obtain ⟨ha, hnd, hseg⟩ := hi.flagged h
  obtain ⟨hm, hnd'⟩ := List.nodup_cons.1 hnd
  refine hi.of_frame (c := c) rfl (fun _ _ => rfl) (fun _ _ => rfl) rfl (by simp [h]) rfl ?_ ?_ (fun _ _ => rfl)
    ?_ ?_ ⟨rfl, hnd', hseg⟩ ?_
  · intro b hb
    refine Function.update_of_ne ?_ _ _
    rintro rfl
    exact hb ha
  · intro b hb
    by_cases hba : b = a
    · rw [hba]
      exact .inr (Function.update_self ..)
    · exact .inl ((Function.update_of_ne hba _ _).trans hb)
  · intro hno
    simp [State.Has, State.setFrame] at hno
  · intro b hb
    refine (Function.update_of_ne (ne_of_mem_of_not_mem hb hm) _ _).trans (hi.stage (.junk c) b hb)
  · intro b hb
    have hba : b ≠ a := by
      rintro rfl
      have hself : Function.update s.stage b Stage.free b = .free := Function.update_self ..
      cases hself.symm.trans hb
    have hb' : s.stage b = .moved c := (Function.update_of_ne hba ..).symm.trans hb
    refine .inl (hi.mem_junk (by simp [h]) ?_ hb')
    rintro r hf
    rw [h] at hf
    cases hf
    exact hba rfl

theorem Lists.clearDone {rep1 : Ptr} (h : s.frame c = .freeing (.junk c) rep1) : Lists (s.setFrame c .absent) ls := by
  have hls : ls (.junk c) = [] := by
    have hok := hi.frame c
    rw [h] at hok
    cases hl : ls (.junk c) with
    | nil => rfl
    | cons b l =>
      rw [Frame.Ok, hl] at hok
      cases hok.2.2.1
  refine hi.of_frame (c := c) rfl (fun _ _ => rfl) (fun _ _ => rfl) rfl (by simp [h]) rfl (fun _ _ => rfl)
    (fun _ h => .inl h) (fun _ _ => rfl) ?_ (hi.stage (.junk c)) hls
    fun a ha => .inl (hi.mem_junk (by simp [h]) (by simp [h]) ha)
  intro hno
  simp [State.Has, State.setFrame] at hno

end Outside

end Wizard.RouteRcu
