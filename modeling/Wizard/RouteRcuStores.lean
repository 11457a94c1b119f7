import Wizard.RouteRcuLists

/-! What each store under `routelock` does to the lists of `route_rcu.c`. -/

namespace Wizard.RouteRcu

variable {s : State} {ls : Ptr → List Nat} {h p q : Ptr} {a c : Nat} {k : Caller} {sec : Section}

theorem getLastD_reverse {α : Type*} (l : List α) (x : α) : l.reverse.getLastD x = l.headD x := by
  cases l <;> simp

theorem headD_reverse {α : Type*} (l : List α) (x : α) : l.reverse.headD x = l.getLastD x := by
  rw [← getLastD_reverse, List.reverse_reverse]

theorem Caller.Adds.not_mem (hk : k.Adds s ls a) (hi : Lists s ls) (h : Ptr) : a ∉ ls h := by
  intro hm
  have hst := hi.stage h a hm
  cases k with
  | update =>
    rw [show s.stage a = .adding from hk] at hst
    cases h <;> cases hst
  | clear c rep1 =>
    obtain ⟨-, hc, hnm, -⟩ := hk
    rw [hc] at hst
    cases h with
    | junk d =>
      cases hst
      exact hnm hm
    | _ => cases hst

theorem Caller.Adds.has (hk : k.Adds s ls a) : s.Has k.head := by
  cases k with
  | update => exact trivial
  | clear c rep1 => exact .inr (.inl hk.1)

theorem entry_not_mem (ha : ∀ h, a ∉ ls h) (hh : h ≠ .entry a) : .entry a ∉ h :: entries (ls h) := by
  intro hm
  rcases List.mem_cons.1 hm with he | hm
  · exact hh he.symm
  · exact ha h (entry_mem_entries.1 hm)

theorem of_update_eq {f : Nat → Stage} {b : Nat} {x y : Stage} (hb : Function.update f a x b = y) (hne : x ≠ y) :
    b ≠ a ∧ f b = y := by
  have hba : b ≠ a := by
    rintro rfl
    exact hne ((Function.update_self ..).symm.trans hb)
  exact ⟨hba, (Function.update_of_ne hba ..).symm.trans hb⟩

section Rings

variable (hi : Lists s ls)
include hi

theorem Lists.ring_update (hh : s.Has h) (hp : p ∉ h :: entries (ls h)) (q : Ptr) :
    Ring (Function.update s.next p q) h (entries (ls h)) :=
  (hi.next h hh).update_of_not_mem hp q

theorem Lists.frame_update {s' : State} {ls' : Ptr → List Nat} (hn : s'.next = Function.update s.next p q)
    (hp : ∀ c, ¬ s.Has (.junk c) → p ∉ Ptr.junk c :: entries (ls (.junk c))) (hf : s'.frame = s.frame)
    (hls : ∀ c, s.frame c ≠ .moving → ls' (.junk c) = ls (.junk c))
    (hs : ∀ a c, s.stage a = .moved c → s'.stage a = .moved c) (c : Nat) : (s'.frame c).Ok s' ls' c := by
  rw [hf]
  by_cases hc : s.frame c = .moving
  · rw [hc]
    exact trivial
  · refine (hi.frame c).congr (fun hno _ x hx => ?_) rfl (hls c hc) fun a => hs a c
    rw [hn, Function.update_of_ne (ne_of_mem_of_not_mem hx (hp c hno))]

theorem Lists.goOn (hok : sec.Ok s ls) (hafter : ∀ h l, (s.setLock sec).after h l = s.after h l)
    (hno : ∀ a, s.lock ≠ some (.unlock (some a)))
    (hcarry : ∀ sec₀, s.lock = some sec₀ → ∀ c a, ¬ sec₀.Carries c a) : Lists (s.setLock sec) ls := by
  refine ⟨hi.next, ?_, hi.stage, hi.other, ?_, hi.frame, ?_, ?_⟩
  · intro h hh
    rw [hafter]
    exact hi.prev h hh
  · rintro _ ⟨⟩
    exact hok
  · intro a ha
    rcases hi.listed a ha with hm | hl
    · exact .inl hm
    · exact absurd hl (hno a)
  · intro a c ha
    rcases hi.moved a c ha with hm | ⟨sec₀, hl, hc⟩ | hf
    · exact .inl hm
    · exact absurd hc (hcarry sec₀ hl c a)
    · exact .inr (.inr hf)

theorem Lists.listed_of (hl : s.lock = some sec) (hno : ∀ a, sec ≠ .unlock (some a)) {lock : Option Section}
    (hb : s.stage a = .listed) : a ∈ ls .routeList ∨ lock = some (.unlock (some a)) := by
  rcases hi.listed a hb with hm | hl'
  · exact .inl hm
  · exact absurd (Option.some.inj (hl.symm.trans hl')) (hno a)

theorem Lists.moved_of {sec' : Section} (hl : s.lock = some sec) (hc : ∀ a, sec.Carries c a → sec'.Carries c a)
    (hb : s.stage a = .moved c) :
    a ∈ ls (.junk c) ∨ (∃ sec₀, some sec' = some sec₀ ∧ sec₀.Carries c a) ∨ ∃ rep1, s.frame c = .flagged a rep1 := by
  rcases hi.moved a c hb with hm | ⟨sec₀, hl', hc'⟩ | hf
  · exact .inl hm
  · rw [hl] at hl'
    cases hl'
    exact .inr (.inl ⟨_, rfl, hc a hc'⟩)
  · exact .inr (.inr hf)

/-- `newp->next = head->next`. -/
theorem Lists.addNext (hl : s.lock = some (.addNext a k)) :
    Lists ((s.setNext (.entry a) (s.next k.head)).setLock (.addPrev a k)) ls := by
  have hk : k.Adds s ls a := hi.lock _ hl
  have hm := hk.not_mem hi
  have hne : k.head ≠ .entry a := hk.has.ne_entry
  refine ⟨?_, ?_, hi.stage, hi.other, ?_, ?_, ?_, ?_⟩
  · intro h hh
    exact hi.ring_update hh (entry_not_mem hm hh.ne_entry) _
  · intro h hh
    have hp := hi.prev h hh
    rw [State.after, hl] at hp
    exact hp
  · rintro _ ⟨⟩
    refine ⟨hk, ?_⟩
    simp [State.setNext, State.setLock, Function.update_of_ne hne]
  · exact hi.frame_update rfl (fun c _ => entry_not_mem hm (by simp)) rfl (fun _ _ => rfl) fun _ _ h => h
  · exact fun b => hi.listed_of hl (by simp)
  · refine fun b c => hi.moved_of hl fun x hx => ?_
    cases k <;> exact hx

/-- `newp->prev = head`. -/
theorem Lists.addPrev (hl : s.lock = some (.addPrev a k)) :
    Lists ((s.setPrev (.entry a) k.head).setLock (.addBack a k)) ls := by
  obtain ⟨hk, hn⟩ : k.Adds s ls a ∧ _ := hi.lock _ hl
  have hm := hk.not_mem hi
  refine ⟨hi.next, ?_, hi.stage, hi.other, ?_, hi.frame, ?_, ?_⟩
  · intro h hh
    have hp := hi.prev h hh
    rw [State.after, hl] at hp
    refine Ring.update_of_not_mem hp ?_ _
    have hnm := entry_not_mem hm (hh.ne_entry)
    simpa using hnm
  · rintro _ ⟨⟩
    refine ⟨hk, hn, ?_⟩
    simp [State.setPrev, State.setLock]
  · exact fun b => hi.listed_of hl (by simp)
  · refine fun b c => hi.moved_of hl fun x hx => ?_
    cases k <;> exact hx

/-- `head->next->prev = newp`. -/
theorem Lists.addBack (hl : s.lock = some (.addBack a k)) :
    Lists ((s.setPrev (s.next k.head) (.entry a)).setLock (.publish a k)) ls := by
  obtain ⟨hk, hn, hp⟩ : k.Adds s ls a ∧ _ ∧ _ := hi.lock _ hl
  have hm := hk.not_mem hi
  have hfirst := (hi.next _ hk.has).first
  refine ⟨hi.next, ?_, hi.stage, hi.other, ?_, hi.frame, ?_, ?_⟩
  · intro h hh
    have hr := hi.prev h hh
    simp only [State.after, hl] at hr
    simp only [State.after, State.setLock]
    by_cases hke : k.head = h
    · subst hke
      rw [if_pos rfl, entries_cons, List.reverse_cons]
      have hr' : Ring s.prev k.head ((entries (ls k.head)).reverse ++ []) := by rwa [List.append_nil]
      have hlast := hr'.link
      have hins := hr'.insert (a := .entry a) (by simpa using entry_not_mem hm hk.has.ne_entry) (hp.trans hlast.symm)
      rw [getLastD_reverse, ← hfirst] at hins
      exact hins
    · rw [if_neg hke]
      refine Ring.update_of_not_mem hr (fun hmem => ?_) _
      refine hi.disjoint hk.has hh (Ne.symm hke) ?_ (by simpa using hmem)
      rw [hfirst]
      cases entries (ls k.head) <;> simp
  · rintro _ ⟨⟩
    exact ⟨hk, hn⟩
  · exact fun b => hi.listed_of hl (by simp)
  · refine fun b c => hi.moved_of hl fun x hx => ?_
    cases k <;> exact hx

/-- `head->next = newp` puts the new entry in front of the list. -/
theorem Lists.published (hl : s.lock = some (.publish a k)) (hh : s.Has h) :
    Ring (Function.update s.next k.head (.entry a)) h (entries (Function.update ls k.head (a :: ls k.head) h)) ∧
      Ring s.prev h (entries (Function.update ls k.head (a :: ls k.head) h)).reverse := by
  obtain ⟨hk, hn⟩ : k.Adds s ls a ∧ _ := hi.lock _ hl
  have hm := hk.not_mem hi
  have hprev := hi.prev h hh
  simp only [State.after, hl] at hprev
  by_cases hke : h = k.head
  · subst hke
    rw [if_pos rfl] at hprev
    rw [Function.update_self]
    refine ⟨?_, hprev⟩
    exact Ring.insert (l := []) (hi.next _ hh) (entry_not_mem hm hh.ne_entry) hn
  · rw [if_neg (Ne.symm hke)] at hprev
    rw [Function.update_of_ne hke]
    exact ⟨hi.ring_update hh (hi.disjoint hk.has hh hke List.mem_cons_self) _, hprev⟩

theorem Lists.publish (hl : s.lock = some (.publish a .update)) :
    Lists ((({ s with table := ⟨s.addr a, s.iface a⟩ :: s.table }.setNext .routeList (.entry a)).setStage
      a .listed).setLock (.unlock none)) (Function.update ls .routeList (a :: ls .routeList)) := by
  obtain ⟨hk, hn⟩ : s.stage a = .adding ∧ _ := hi.lock _ hl
  have hpub := fun h hh => hi.published hl (h := h) hh
  refine ⟨fun h hh => (hpub h hh).1, fun h hh => (hpub h hh).2, ?_, ?_, ?_, ?_, ?_, ?_⟩
  · intro h b hb
    change Function.update s.stage a .listed b = h.stage
    by_cases hr : h = .routeList
    · subst hr
      rw [Function.update_self, List.mem_cons] at hb
      by_cases hba : b = a
      · rw [hba, Function.update_self]
        rfl
      · rw [Function.update_of_ne hba]
        exact hi.stage _ b (hb.resolve_left hba)
    · rw [Function.update_of_ne hr] at hb
      rw [Function.update_of_ne]
      · exact hi.stage h b hb
      · rintro rfl
        exact Caller.Adds.not_mem (k := .update) hk hi h hb
  · intro b
    rw [Function.update_of_ne (by simp), hi.other]
  · rintro _ ⟨⟩
    rintro x ⟨⟩
  · refine hi.frame_update (p := .routeList) rfl
      (fun c hc => hi.not_mem_junk (h := .routeList) trivial hc List.mem_cons_self) rfl
      (fun c _ => Function.update_of_ne (by simp) _ _) fun b c hb => ?_
    change Function.update s.stage a .listed b = .moved c
    rw [Function.update_of_ne, hb]
    rintro rfl
    rw [hk] at hb
    cases hb
  · intro b hb
    left
    rw [Function.update_self, List.mem_cons]
    by_cases hba : b = a
    · exact .inl hba
    · right
      have hb' : s.stage b = .listed := by
        rwa [← Function.update_of_ne hba Stage.listed s.stage]
      rcases hi.listed b hb' with hm | hl'
      · exact hm
      · rw [hl] at hl'
        cases hl'
  · intro b c hb
    rw [Function.update_of_ne (by simp)]
    exact hi.moved_of hl (fun x hx => hx.elim) (of_update_eq hb (by simp)).2

theorem Lists.publishJunk {rep : Ptr} (hl : s.lock = some (.publish a (.clear c rep))) :
    Lists ((s.setNext (.junk c) (.entry a)).setLock (.clear c rep (s.next rep)))
      (Function.update ls (.junk c) (a :: ls (.junk c))) := by
  obtain ⟨hk, hn⟩ : Caller.Adds s ls a (.clear c rep) ∧ _ := hi.lock _ hl
  have hpub := fun h hh => hi.published hl (h := h) hh
  refine ⟨fun h hh => (hpub h hh).1, fun h hh => (hpub h hh).2, ?_, ?_, ?_, ?_, ?_, ?_⟩
  · intro h b hb
    by_cases hr : h = .junk c
    · subst hr
      rw [Function.update_self, List.mem_cons] at hb
      rcases hb with rfl | hb
      · exact hk.2.1
      · exact hi.stage _ b hb
    · rw [Function.update_of_ne hr] at hb
      exact hi.stage h b hb
  · intro b
    rw [Function.update_of_ne (by simp), hi.other]
  · rintro _ ⟨⟩
    refine ⟨hk.1, ?_, ?_⟩
    · rw [Function.update_of_ne (by simp)]
      exact hk.2.2.2
    · have hr : rep ≠ .junk c := by
        rw [hk.2.2.2]
        cases ls .routeList <;> simp
      exact (Function.update_of_ne hr _ _).symm
  · refine hi.frame_update (p := .junk c) rfl
      (fun d hd => hi.not_mem_junk hk.has hd List.mem_cons_self) rfl ?_ fun _ _ h => h
    intro d hd
    refine Function.update_of_ne ?_ _ _
    rintro ⟨⟩
    exact hd hk.1
  · intro b hb
    rw [Function.update_of_ne (by simp)]
    exact hi.listed_of hl (by simp) hb
  · intro b d hb
    rcases hi.moved b d hb with hm | ⟨sec₀, hl', hc⟩ | hf
    · left
      by_cases hd : d = c
      · subst hd
        rw [Function.update_self]
        exact List.mem_cons_of_mem _ hm
      · rwa [Function.update_of_ne (by simpa using hd)]
    · rw [hl] at hl'
      cases hl'
      obtain ⟨rfl, rfl⟩ := hc
      left
      rw [Function.update_self]
      exact List.mem_cons_self
    · exact .inr (.inr hf)

theorem Lists.erase_eq {front back : List Nat} (hls : ls .routeList = front ++ a :: back) :
    (ls .routeList).erase a = front ++ back := by
  have hn := hi.nodup (h := .routeList) trivial
  rw [hls] at hn ⊢
  rw [List.erase_append_right, List.erase_cons_head]
  intro ha
  exact (List.nodup_append.1 hn).2.2 a ha a List.mem_cons_self rfl

theorem Lists.next_eq {front back : List Nat} (hls : ls .routeList = front ++ a :: back) :
    s.next (.entry a) = (entries back).headD .routeList := by
  have hr := hi.next .routeList trivial
  rw [hls, entries_append, entries_cons, List.append_cons] at hr
  have hlink := hr.link
  rwa [List.getLastD_concat] at hlink

/-- `elem->next->prev = elem->prev`. -/
theorem Lists.delBack (hl : s.lock = some (.delBack a k)) :
    Lists ((s.setPrev (s.next (.entry a)) (s.prev (.entry a))).setLock (.delNext a k)) ls := by
  obtain ⟨front, back, hls, hk⟩ := hi.lock _ hl
  have hnext := hi.next_eq hls
  have hprev : Ring s.prev .routeList ((entries back).reverse ++ .entry a :: (entries front).reverse) := by
    have hr := hi.prev .routeList trivial
    simp only [State.after, hl, hls] at hr
    simpa using hr
  have hmem : s.next (.entry a) ∈ Ptr.routeList :: entries back := by
    rw [hnext]
    cases entries back <;> simp
  refine ⟨hi.next, ?_, hi.stage, hi.other, ?_, hi.frame, ?_, ?_⟩
  · intro h hh
    have hr := hi.prev h hh
    simp only [State.after, hl] at hr
    simp only [State.after, State.setLock]
    by_cases hrl : h = .routeList
    · subst hrl
      rw [if_pos rfl, hi.erase_eq hls, entries_append, List.reverse_append]
      have hrem := hprev.remove
      rw [getLastD_reverse, ← hnext] at hrem
      exact hrem
    · rw [if_neg hrl]
      refine Ring.update_of_not_mem hr (fun hm => ?_) _
      refine hi.disjoint (h := .routeList) trivial hh hrl ?_ (by simpa using hm)
      rw [hls]
      simp only [entries_append, entries_cons, List.mem_cons, List.mem_append] at hmem ⊢
      tauto
  · rintro _ ⟨⟩
    refine ⟨front, back, hls, ?_, ?_⟩
    · cases k <;> exact hk
    · have hne : Ptr.entry a ≠ s.next (.entry a) := by
        intro he
        rw [← he] at hmem
        have hn := hprev.nodup
        simp only [List.nodup_cons, List.nodup_append, List.mem_append, List.mem_cons, List.mem_reverse] at hn hmem
        rcases hmem with hm | hm
        · cases hm
        · exact hn.2.2.2 _ hm _ (.inl rfl) rfl
      change Function.update s.prev (s.next (.entry a)) (s.prev (.entry a)) (.entry a) = _
      rw [Function.update_of_ne hne]
      rw [List.append_cons] at hprev
      have hlink := hprev.link
      rwa [List.getLastD_concat, headD_reverse] at hlink
  · exact fun b => hi.listed_of hl (by simp)
  · exact fun b c => hi.moved_of hl fun x hx => hx.elim

/-- `elem->prev->next = elem->next` takes the entry out. -/
theorem Lists.skipped {front back : List Nat} (hl : s.lock = some (.delNext a k))
    (hls : ls .routeList = front ++ a :: back)
    (hp : s.prev (.entry a) = (entries front).getLastD .routeList) (hh : s.Has h) :
    Ring (Function.update s.next (s.prev (.entry a)) (s.next (.entry a))) h
        (entries (Function.update ls .routeList (front ++ back) h)) ∧
      Ring s.prev h (entries (Function.update ls .routeList (front ++ back) h)).reverse := by
  have hprev := hi.prev h hh
  simp only [State.after, hl] at hprev
  by_cases hrl : h = .routeList
  · subst hrl
    rw [if_pos rfl, hi.erase_eq hls] at hprev
    rw [Function.update_self]
    refine ⟨?_, hprev⟩
    have hr := hi.next .routeList trivial
    rw [hls, entries_append, entries_cons] at hr
    rw [hp, entries_append]
    exact hr.remove
  · rw [if_neg hrl] at hprev
    rw [Function.update_of_ne hrl]
    refine ⟨hi.ring_update hh (hi.disjoint (h := .routeList) trivial hh hrl ?_) _, hprev⟩
    rw [hp, hls]
    have hm : (entries front).getLastD .routeList ∈ Ptr.routeList :: entries front := List.getLastD_mem_cons
    simp only [entries_append, List.mem_cons, List.mem_append] at hm ⊢
    tauto

omit hi in
theorem prev_mem {front back : List Nat} (hls : ls .routeList = front ++ a :: back)
    (hp : s.prev (.entry a) = (entries front).getLastD .routeList) :
    s.prev (.entry a) ∈ Ptr.routeList :: entries (ls .routeList) := by
  have hm : (entries front).getLastD .routeList ∈ Ptr.routeList :: entries front := List.getLastD_mem_cons
  rw [hp, hls]
  simp only [entries_append, List.mem_cons, List.mem_append] at hm ⊢
  tauto

theorem Lists.delNext {front back : List Nat} (hl : s.lock = some (.delNext a .update))
    (hls : ls .routeList = front ++ a :: back) (hp : s.prev (.entry a) = (entries front).getLastD .routeList) :
    Lists (({ s with table := RouteTable.del s.table (s.addr a) }.setNext (s.prev (.entry a))
      (s.next (.entry a))).setLock (.unlock (some a))) (Function.update ls .routeList (front ++ back)) := by
  have hskip := fun h hh => hi.skipped (h := h) hl hls hp hh
  have hn := hi.nodup (h := .routeList) trivial
  rw [hls, List.nodup_middle, List.nodup_cons] at hn
  have hsub : ∀ x ∈ front ++ back, x ∈ ls .routeList := by
    intro x hx
    rw [hls]
    exact (List.Sublist.append_left (List.sublist_cons_self a back) front).subset hx
  refine ⟨fun h hh => (hskip h hh).1, fun h hh => (hskip h hh).2, ?_, ?_, ?_, ?_, ?_, ?_⟩
  · intro h b hb
    by_cases hr : h = .routeList
    · subst hr
      rw [Function.update_self] at hb
      exact hi.stage _ b (hsub b hb)
    · rw [Function.update_of_ne hr] at hb
      exact hi.stage h b hb
  · intro b
    rw [Function.update_of_ne (by simp), hi.other]
  · rintro _ ⟨⟩
    rintro x ⟨⟩
    refine ⟨hi.stage .routeList a ?_, ?_⟩
    · rw [hls]
      simp
    · rw [Function.update_self]
      exact hn.1
  · refine hi.frame_update rfl (fun c hc => hi.not_mem_junk (h := .routeList) trivial hc (prev_mem hls hp)) rfl
      (fun c _ => Function.update_of_ne (by simp) _ _) fun _ _ h => h
  · intro b hb
    rw [Function.update_self]
    by_cases hba : b = a
    · right
      rw [hba]
      rfl
    · left
      rcases hi.listed b hb with hm | hl'
      · rw [hls] at hm
        simp only [List.mem_append, List.mem_cons] at hm ⊢
        tauto
      · rw [hl] at hl'
        cases hl'
  · intro b c hb
    rw [Function.update_of_ne (by simp)]
    exact hi.moved_of hl (fun x hx => hx.elim) hb

theorem Lists.delNextClear {rep1 : Ptr} {back : List Nat} (hl : s.lock = some (.delNext a (.clear c rep1)))
    (hls : ls .routeList = a :: back) (hp : s.prev (.entry a) = .routeList) (hc : s.frame c = .moving)
    (hr : rep1 = (entries back).headD .routeList) :
    Lists ((({ s with table := s.table.tail }.setNext (s.prev (.entry a)) (s.next (.entry a))).setStage
      a (.moved c)).setLock (.addNext a (.clear c rep1))) (Function.update ls .routeList back) := by
  have hls' : ls .routeList = [] ++ a :: back := hls
  have hskip := fun h hh => hi.skipped (h := h) hl hls' hp hh
  have hn := hi.nodup (h := .routeList) trivial
  rw [hls, List.nodup_cons] at hn
  have ha : s.stage a = .listed := hi.stage .routeList a (by simp [hls])
  have hm : ∀ h, h ≠ .routeList → a ∉ ls h := by
    intro h hne ham
    have hst := hi.stage h a ham
    rw [ha] at hst
    cases h with
    | routeList => exact hne rfl
    | junk d => cases hst
    | entry b => simp [hi.other b] at ham
  refine ⟨fun h hh => (hskip h hh).1, fun h hh => (hskip h hh).2, ?_, ?_, ?_, ?_, ?_, ?_⟩
  · intro h b hb
    have hb' : b ∈ ls h ∧ b ≠ a := by
      by_cases hrl : h = .routeList
      · subst hrl
        rw [Function.update_self] at hb
        exact ⟨by simp [hls, hb], ne_of_mem_of_not_mem hb hn.1⟩
      · rw [Function.update_of_ne hrl] at hb
        exact ⟨hb, ne_of_mem_of_not_mem hb (hm h hrl)⟩
    exact (Function.update_of_ne hb'.2 _ _).trans (hi.stage h b hb'.1)
  · intro b
    rw [Function.update_of_ne (by simp), hi.other]
  · rintro _ ⟨⟩
    refine ⟨hc, Function.update_self .., ?_, ?_⟩
    · rw [Function.update_of_ne (by simp)]
      exact hm _ (by simp)
    · rw [Function.update_self]
      exact hr
  · refine hi.frame_update rfl
      (fun c hc => hi.not_mem_junk (h := .routeList) trivial hc (prev_mem hls' hp)) rfl
      (fun c _ => Function.update_of_ne (by simp) _ _) fun b d hb => ?_
    refine (Function.update_of_ne ?_ _ _).trans hb
    rintro rfl
    rw [ha] at hb
    cases hb
  · intro b hb
    left
    rw [Function.update_self]
    obtain ⟨hba, hb'⟩ := of_update_eq hb (by simp)
    rcases hi.listed b hb' with hbm | hl'
    · rw [hls] at hbm
      exact (List.mem_cons.1 hbm).resolve_left hba
    · rw [hl] at hl'
      cases hl'
  · intro b d hb
    by_cases hba : b = a
    · subst hba
      have hself : Function.update s.stage b (Stage.moved c) b = .moved c := Function.update_self ..
      cases hself.symm.trans hb
      exact .inr (.inl ⟨_, rfl, rfl, rfl⟩)
    · rw [Function.update_of_ne (by simp)]
      have hb' : s.stage b = .moved d := by
        rwa [← Function.update_of_ne hba (Stage.moved c) s.stage]
      exact hi.moved_of hl (fun x hx => hx.elim) hb'

theorem Lists.unlock (hl : s.lock = some (.unlock none)) : Lists s.unlock ls := by
  refine ⟨hi.next, ?_, hi.stage, hi.other, ?_, hi.frame, ?_, ?_⟩
  · intro h hh
    have hr := hi.prev h hh
    simp only [State.after, hl] at hr
    exact hr
  · rintro _ ⟨⟩
  · intro a ha
    exact hi.listed_of hl (by simp) ha
  · intro a c ha
    rcases hi.moved a c ha with hm | ⟨sec₀, hl', hc⟩ | hf
    · exact .inl hm
    · rw [hl] at hl'
      cases hl'
      exact hc.elim
    · exact .inr (.inr hf)

theorem Lists.unlockDel (hl : s.lock = some (.unlock (some a))) : Lists (s.unlock.setStage a .deleted) ls := by
  obtain ⟨ha, hm⟩ := hi.lock _ hl a rfl
  have hne : ∀ b st, s.stage b = st → st ≠ .listed → Function.update s.stage a .deleted b = st := by
    rintro b st hb hst
    refine (Function.update_of_ne ?_ _ _).trans hb
    rintro rfl
    exact hst (hb.symm.trans ha)
  refine ⟨hi.next, ?_, ?_, hi.other, ?_, ?_, ?_, ?_⟩
  · intro h hh
    have hr := hi.prev h hh
    simp only [State.after, hl] at hr
    exact hr
  · intro h b hb
    refine (Function.update_of_ne ?_ _ _).trans (hi.stage h b hb)
    rintro rfl
    have hst := (hi.stage h b hb).symm.trans ha
    cases h with
    | routeList => exact hm hb
    | junk d => cases hst
    | entry x => simp [hi.other x] at hb
  · rintro _ ⟨⟩
  · exact fun c => (hi.frame c).congr (fun _ _ _ _ => rfl) rfl rfl fun b hb => hne b _ hb (by simp)
  · intro b hb
    obtain ⟨hba, hb'⟩ := of_update_eq hb (by simp)
    rcases hi.listed b hb' with hbm | hl'
    · exact .inl hbm
    · rw [hl] at hl'
      cases hl'
      exact absurd rfl hba
  · intro b c hb
    rcases hi.moved b c (of_update_eq hb (by simp)).2 with hbm | ⟨sec₀, hl', hc⟩ | hf
    · exact .inl hbm
    · rw [hl] at hl'
      cases hl'
      exact hc.elim
    · exact .inr (.inr hf)

theorem Lists.addLock (h : s.stage a = .adding) (hl : s.lock = none) : Lists (s.setLock (.addNext a .update)) ls :=
  hi.goOn h (by simp [State.after, State.setLock, hl]) (by simp [hl]) (by simp [hl])

theorem Lists.delLock (hl : s.lock = none) (addr : BitVec 64) :
    Lists (s.setLock (.scan addr (s.next .routeList))) ls := by
  refine hi.goOn ⟨[], ls .routeList, rfl, (hi.next .routeList trivial).first, by simp⟩ ?_ (by simp [hl]) (by simp [hl])
  simp [State.after, State.setLock, hl]

theorem Lists.scan {addr : BitVec 64} (hl : s.lock = some (.scan addr (.entry a))) :
    ∃ front back, ls .routeList = front ++ a :: back ∧ ∀ x ∈ front, s.addr x ≠ addr := by
  obtain ⟨front, back, hls, hr, hf⟩ := hi.lock _ hl
  cases back with
  | nil => cases hr
  | cons b back =>
    cases hr
    exact ⟨front, back, hls, hf⟩

theorem Lists.of_scan {addr : BitVec 64} (hl : s.lock = some (.scan addr p)) (hok : sec.Ok s ls)
    (hafter : ∀ h l, (s.setLock sec).after h l = l) : Lists (s.setLock sec) ls := by
  refine hi.goOn hok ?_ (by simp [hl]) ?_
  · intro h l
    rw [hafter, State.after, hl]
  · rw [hl]
    rintro _ ⟨⟩ c a hc
    exact hc

theorem Lists.scanNext {addr : BitVec 64} (hl : s.lock = some (.scan addr (.entry a))) (hd : s.addr a ≠ addr) :
    Lists (s.setLock (.scan addr (s.next (.entry a)))) ls := by
  obtain ⟨front, back, hls, hf⟩ := hi.scan hl
  refine hi.of_scan hl ⟨front ++ [a], back, ?_, hi.next_eq hls, ?_⟩ fun _ _ => rfl
  · rw [hls, List.append_cons]
  · intro x hx
    rcases List.mem_append.1 hx with hx | hx
    · exact hf x hx
    · rw [List.mem_singleton.1 hx]
      exact hd

theorem Lists.scanFound {addr : BitVec 64} (hl : s.lock = some (.scan addr (.entry a))) (hd : s.addr a = addr) :
    Lists (s.setLock (.delBack a .update)) ls := by
  obtain ⟨front, back, hls, hf⟩ := hi.scan hl
  refine hi.of_scan hl ⟨front, back, hls, fun x hx => ?_⟩ fun _ _ => rfl
  rw [hd]
  exact hf x hx

theorem Lists.scanEnd {addr : BitVec 64} (hl : s.lock = some (.scan addr .routeList)) :
    Lists (s.setLock (.unlock none)) ls := by
  refine hi.of_scan hl ?_ fun _ _ => rfl
  rintro x ⟨⟩

theorem Lists.clear {rep1 : Ptr} (hl : s.lock = some (.clear c (.entry a) rep1)) :
    s.frame c = .moving ∧ ∃ back, ls .routeList = a :: back ∧ rep1 = (entries back).headD .routeList := by
  obtain ⟨hc, hr, hr1⟩ := hi.lock _ hl
  cases hls : ls .routeList with
  | nil =>
    rw [hls] at hr
    cases hr
  | cons b back =>
    rw [hls] at hr
    cases hr
    have hls' : ls .routeList = [] ++ a :: back := hls
    exact ⟨hc, back, rfl, hr1.trans (hi.next_eq hls')⟩

theorem Lists.clearMove {rep1 : Ptr} (hl : s.lock = some (.clear c (.entry a) rep1)) :
    Lists (s.setLock (.delBack a (.clear c rep1))) ls := by
  obtain ⟨hc, back, hls, hr⟩ := hi.clear hl
  refine hi.goOn ⟨[], back, hls, hc, rfl, hr⟩ ?_ (by simp [hl]) ?_
  · simp [State.after, State.setLock, hl]
  · rw [hl]
    rintro _ ⟨⟩ c a hc
    exact hc

omit hi in
/-- The list of a head is whole before and after its call goes on. -/
theorem has_of_setFrame {f : Frame} (hc : s.Has (.junk c)) (hh : (s.setFrame c f).Has h) : s.Has h := by
  cases h with
  | routeList => exact trivial
  | entry b => exact hh
  | junk d =>
    by_cases hd : d = c
    · rw [hd]
      exact hc
    · simpa [State.Has, State.setFrame, Function.update_of_ne hd] using hh

theorem Lists.clearLock (h : s.frame c = .ready) (hl : s.lock = none) :
    Lists ((s.setFrame c .moving).setLock (.clear c (s.next .routeList) (s.next (s.next .routeList)))) ls := by
  have hhas : ∀ h', (s.setFrame c .moving).Has h' → s.Has h' := fun h' => has_of_setFrame (.inl h)
  refine ⟨fun h' hh => hi.next h' (hhas h' hh), ?_, hi.stage, hi.other, ?_, ?_, ?_, ?_⟩
  · intro h' hh
    have hr := hi.prev h' (hhas h' hh)
    simp only [State.after, hl] at hr
    exact hr
  · rintro _ ⟨⟩
    exact ⟨Function.update_self .., (hi.next .routeList trivial).first, rfl⟩
  · intro d
    change (Function.update s.frame c .moving d).Ok _ _ _
    by_cases hd : d = c
    · rw [hd, Function.update_self]
      exact trivial
    · rw [Function.update_of_ne hd]
      exact (hi.frame d).congr (fun _ _ _ _ => rfl) rfl rfl fun _ h => h
  · intro a ha
    rcases hi.listed a ha with hm | hl'
    · exact .inl hm
    · rw [hl] at hl'
      cases hl'
  · intro a d ha
    rcases hi.moved a d ha with hm | ⟨sec₀, hl', -⟩ | ⟨rep1, hf⟩
    · exact .inl hm
    · rw [hl] at hl'
      cases hl'
    · refine .inr (.inr ⟨rep1, (Function.update_of_ne ?_ _ _).trans hf⟩)
      rintro rfl
      rw [h] at hf
      cases hf

theorem Lists.clearUnlock {rep1 : Ptr} (hl : s.lock = some (.clear c .routeList rep1)) :
    Lists (s.unlock.setFrame c .unlocked) ls := by
  obtain ⟨h, -, -⟩ := hi.lock _ hl
  have hhas : ∀ h', (s.unlock.setFrame c .unlocked).Has h' → s.Has h' := fun h' => has_of_setFrame (.inr (.inl h))
  refine ⟨fun h' hh => hi.next h' (hhas h' hh), ?_, hi.stage, hi.other, ?_, ?_, ?_, ?_⟩
  · intro h' hh
    have hr := hi.prev h' (hhas h' hh)
    simp only [State.after, hl] at hr
    exact hr
  · rintro _ ⟨⟩
  · intro d
    change (Function.update s.frame c .unlocked d).Ok _ _ _
    by_cases hd : d = c
    · rw [hd, Function.update_self]
      exact trivial
    · rw [Function.update_of_ne hd]
      exact (hi.frame d).congr (fun _ _ _ _ => rfl) rfl rfl fun _ h => h
  · intro a ha
    exact hi.listed_of hl (by simp) ha
  · intro a d ha
    rcases hi.moved a d ha with hm | ⟨sec₀, hl', hc⟩ | ⟨rep1, hf⟩
    · exact .inl hm
    · rw [hl] at hl'
      cases hl'
      exact hc.elim
    · refine .inr (.inr ⟨rep1, (Function.update_of_ne ?_ _ _).trans hf⟩)
      rintro rfl
      rw [h] at hf
      cases hf

end Rings

end Wizard.RouteRcu
