import Wizard.HazptrLists

/-! Retired objects are neither lost nor deleted twice: each of them is on one list or
has been deleted once. -/

namespace Wizard.Hazptr

variable {Obj Rec Cell Holder Tid : Type*}
variable {own : Spot Tid → List Obj} {t : Tid} {s s' : State Obj Rec Cell Holder Tid}

theorem Lists.not_mem_of_fresh (h : Lists s own) {x : Obj} (hx : ¬ s.retired x) (p : Spot Tid) : x ∉ own p := by
  intro hp
  exact hx (h.place.mem x (some p) hp)

variable [DecidableEq Tid] [DecidableEq Obj]

/-- `retire` puts a new object at the end of the private list. -/
theorem Lists.pushPriv (h : Lists s own) {x : Obj} (ha : (s.thread t).act = .client) (hx : ¬ s.retired x) :
    Lists { s with
      next := (s.privList t).link s.next x
      privList := Function.update s.privList t ((s.privList t).push x)
      retired := fun y => y = x ∨ s.retired y }
      (Function.update own (.priv t) (own (.priv t) ++ [x])) := by
  have hs := h.settled (t := t) (by rw [ha]; rfl)
  have hfresh := h.not_mem_of_fresh hx
  have hnext : ∀ q y, q ≠ .priv t → y ∈ own q → (s.privList t).link s.next x y = s.next y := by
    intro q y hq hy
    apply hs.priv.link_of_ne
    · intro hyx
      rw [hyx] at hy
      exact hfresh q hy
    · intro hy'
      exact hq (h.spot_eq hy hy')
  refine h.step t ?_ ?_ h.once ?_ ?_ ?_ ?_ (fun _ _ => rfl) ?_
  · intro p
    by_cases hp : p = .priv t
    · rw [hp, Function.update_self]
      apply List.Nodup.append (h.nodup _) (List.nodup_singleton x)
      intro y hy hyx
      rw [List.mem_singleton.1 hyx] at hy
      exact hfresh _ hy
    · rw [Function.update_of_ne hp]
      exact h.nodup p
  · apply h.place.insert x (some (.priv t)) (fun _ => Iff.rfl)
    · intro p
      cases p with
      | none =>
        have hd : s.deletions x = 0 := by
          by_contra hd
          exact hx (h.place.mem x none hd)
        simp [At, hd]
      | some p =>
        by_cases hp : p = .priv t
        · simp [At, hp]
        · simp [At, hp, hfresh p]
    · intro y p hy
      cases p with
      | none => exact Iff.rfl
      | some p =>
        by_cases hp : p = .priv t
        · simp [At, hp, hy]
        · simp [At, hp]
  · rw [Function.update_of_ne (by simp)]
    exact h.retiredList.congr (fun y hy => hnext .retiredList y (by simp) hy)
  · intro p u hp hu
    apply Function.update_of_ne
    intro he
    rw [he] at hp
    exact hu (Option.some.inj hp).symm
  · intro p u hp hu y hy
    refine hnext p y ?_ hy
    intro he
    rw [he] at hp
    exact hu (Option.some.inj hp).symm
  · intro u hu
    exact Function.update_of_ne hu _ _
  · rw [threadLists_iff (by rw [ha]; rfl)]
    refine ⟨?_, ?_, ?_⟩
    · simp only [Function.update_self]
      exact hs.priv.push (h.nodup _) (hfresh _)
    · apply hs.batches.frame
      · intro d _
        simp
      · rintro d - y (hy | hy)
        · exact hnext _ y (by simp) hy
        · exact hnext _ y (by simp) hy
    · intro d hd
      simpa using hs.beyond d hd

omit [DecidableEq Tid] [DecidableEq Obj] in
theorem Lists.rest_cons (h : Lists s own) {x : Obj} {b : Batch Obj} {rest : List (Batch Obj)}
    (ha : (s.thread t).act = .reclaim) (hstack : (s.thread t).stack = b :: rest) (hp : b.p = some x) :
    ∃ l, own (.rest t rest.length) = x :: l ∧ Segment s.next (s.next x) l none := by
  have hs := h.settled (t := t) (by rw [ha]; rfl)
  rw [hstack] at hs
  have hseg := hs.batches.1
  rw [hp] at hseg
  cases hl : own (.rest t rest.length) with
  | nil =>
    rw [hl] at hseg
    cases hseg
  | cons y l =>
    rw [hl] at hseg
    obtain ⟨hy, hl'⟩ := hseg
    rw [← Option.some.inj hy] at hl' ⊢
    exact ⟨l, rfl, hl'⟩

theorem Lists.keep (h : Lists s own) {x : Obj} {b : Batch Obj} {rest : List (Batch Obj)}
    (ha : (s.thread t).act = .reclaim) (hstack : (s.thread t).stack = b :: rest) (hp : b.p = some x) :
    ∃ own', Lists ({ s with next := b.leftList.link s.next x }.setBatch t
      ⟨s.next x, b.set, b.leftList.push x⟩ rest) own' ∧
      ∀ u d y, y ∈ own' (.rest u d) → y ∈ own (.rest u d) := by
  have hs := h.settled (t := t) (by rw [ha]; rfl)
  obtain ⟨l, hl, hseg⟩ := h.rest_cons ha hstack hp
  rw [hstack] at hs
  obtain ⟨-, hleft, hbelow⟩ := hs.batches
  have hx : x ∈ own (.rest t rest.length) := by simp [hl]
  have hat : At s own x (some (.rest t rest.length)) := hx
  have hxl : x ∉ own (.left t rest.length) := by
    intro hxl
    cases h.spot_eq hx hxl
  have hnd := h.nodup (.rest t rest.length)
  rw [hl, List.nodup_cons] at hnd
  have hnext : ∀ q y, q ≠ .left t rest.length → y ≠ x → y ∈ own q →
      b.leftList.link s.next x y = s.next y := by
    intro q y hq hyx hy
    apply hleft.link_of_ne hyx
    intro hy'
    exact hq (h.spot_eq hy hy')
  have hne : ∀ q y, q ≠ .rest t rest.length → y ∈ own q → y ≠ x := by
    intro q y hq hy hyx
    rw [hyx] at hy
    exact hq (h.spot_eq hy hx)
  let own' := Function.update (Function.update own (.rest t rest.length) l) (.left t rest.length)
    (own (.left t rest.length) ++ [x])
  have hrest' : own' (.rest t rest.length) = l := by simp [own']
  have hleft' : own' (.left t rest.length) = own (.left t rest.length) ++ [x] := by simp [own']
  have hother : ∀ p, p ≠ .rest t rest.length → p ≠ .left t rest.length → own' p = own p := by
    intro p h1 h2
    simp [own', h1, h2]
  refine ⟨own', h.step t ?_ ?_ h.once ?_ ?_ ?_ (fun _ _ => rfl) ?_ ?_, ?_⟩
  · intro p
    by_cases h1 : p = .rest t rest.length
    · rw [h1, hrest']
      exact hnd.2
    · by_cases h2 : p = .left t rest.length
      · rw [h2, hleft']
        apply List.Nodup.append (h.nodup _) (List.nodup_singleton x)
        intro y hy hyx
        rw [List.mem_singleton.1 hyx] at hy
        exact hxl hy
      · rw [hother p h1 h2]
        exact h.nodup p
  · apply h.place.move (some (.left t rest.length)) hat
    · intro p
      cases p with
      | none =>
        have hnone := h.place.iff_eq hat none
        simp only [reduceCtorEq, iff_false] at hnone ⊢
        exact hnone
      | some p =>
        show x ∈ own' p ↔ _
        by_cases h1 : p = .rest t rest.length
        · rw [h1, hrest']
          simp [hnd.1]
        · by_cases h2 : p = .left t rest.length
          · rw [h2, hleft']
            simp
          · rw [hother p h1 h2]
            simp only [Option.some.injEq, h2, iff_false]
            intro hxp
            exact h1 (h.spot_eq hxp hx)
    · intro y p hy
      cases p with
      | none => exact Iff.rfl
      | some p =>
        show y ∈ own' p ↔ y ∈ own p
        by_cases h1 : p = .rest t rest.length
        · rw [h1, hrest', hl]
          simp [hy]
        · by_cases h2 : p = .left t rest.length
          · rw [h2, hleft']
            simp [hy]
          · rw [hother p h1 h2]
  · show Segment _ _ (own' .retiredList) none
    rw [hother _ (by simp) (by simp)]
    exact h.retiredList.congr (fun y hy => hnext _ y (by simp) (hne _ y (by simp) hy) hy)
  · intro p u hp' hu
    apply hother
    · intro he
      rw [he] at hp'
      exact hu (Option.some.inj hp').symm
    · intro he
      rw [he] at hp'
      exact hu (Option.some.inj hp').symm
  · intro p u hp' hu y hy
    refine hnext p y ?_ (hne p y ?_ hy) hy
    · intro he
      rw [he] at hp'
      exact hu (Option.some.inj hp').symm
    · intro he
      rw [he] at hp'
      exact hu (Option.some.inj hp').symm
  · intro u hu
    simp [State.setBatch, State.setThread, hu]
  · simp only [State.setBatch, State.setThread, Function.update_self]
    rw [threadLists_iff (by rw [ha]; rfl)]
    refine ⟨?_, ⟨?_, ?_, ?_⟩, ?_⟩
    · rw [hother _ (by simp) (by simp)]
      exact hs.priv.congr (fun y hy => hnext _ y (by simp) (hne _ y (by simp) hy) hy)
    · rw [hrest']
      apply hseg.congr
      intro y hy
      have hyx : y ≠ x := ne_of_mem_of_not_mem hy hnd.1
      exact hnext (.rest t rest.length) y (by simp) hyx (by simp [hl, hy])
    · rw [hleft']
      exact hleft.push (h.nodup _) hxl
    · apply hbelow.frame
      · intro d hd
        constructor
        · apply hother
          · intro he
            have hdl := (Spot.rest.inj he).2
            omega
          · simp
        · apply hother
          · simp
          · intro he
            have hdl := (Spot.left.inj he).2
            omega
      · rintro d hd y (hy | hy)
        · refine hnext _ y (by simp) (hne _ y ?_ hy) hy
          intro he
          have hdl := (Spot.rest.inj he).2
          omega
        · refine hnext _ y ?_ (hne _ y (by simp) hy) hy
          intro he
          have hdl := (Spot.left.inj he).2
          omega
    · intro d hd
      have hd' : rest.length + 1 ≤ d := hd
      rw [hother, hother]
      · exact hs.beyond d hd
      · simp
      · intro he
        have hdl := (Spot.left.inj he).2
        omega
      · intro he
        have hdl := (Spot.rest.inj he).2
        omega
      · simp
  · intro u d y hy
    by_cases h1 : Spot.rest u d = .rest t rest.length
    · rw [h1, hrest'] at hy
      rw [h1, hl]
      exact List.mem_cons_of_mem _ hy
    · rw [hother _ h1 (by simp)] at hy
      exact hy

theorem Lists.delete (h : Lists s own) {x : Obj} {b : Batch Obj} {rest : List (Batch Obj)}
    (ha : (s.thread t).act = .reclaim) (hstack : (s.thread t).stack = b :: rest) (hp : b.p = some x) :
    ∃ own', Lists (({ s with
      deletions := Function.update s.deletions x (s.deletions x + 1) }.setBatch t
        { b with p := s.next x } rest).setAct t .client) own' ∧
      ∀ u d y, y ∈ own' (.rest u d) → y ∈ own (.rest u d) := by
  have hs := h.settled (t := t) (by rw [ha]; rfl)
  obtain ⟨l, hl, hseg⟩ := h.rest_cons ha hstack hp
  rw [hstack] at hs
  obtain ⟨-, hleft, hbelow⟩ := hs.batches
  have hat : At s own x (some (.rest t rest.length)) := by simp [At, hl]
  have hnd := h.nodup (.rest t rest.length)
  rw [hl, List.nodup_cons] at hnd
  have hzero : s.deletions x = 0 := by
    by_contra hd
    cases h.place.unique x none _ hd hat
  let own' := Function.update own (.rest t rest.length) l
  have hrest' : own' (.rest t rest.length) = l := by simp [own']
  have hother : ∀ p, p ≠ .rest t rest.length → own' p = own p := by
    intro p hp'
    simp [own', hp']
  refine ⟨own', h.step t ?_ ?_ ?_ ?_ ?_ (fun _ _ _ _ _ _ => rfl) (fun _ _ => rfl) ?_ ?_, ?_⟩
  · intro p
    by_cases h1 : p = .rest t rest.length
    · rw [h1, hrest']
      exact hnd.2
    · rw [hother p h1]
      exact h.nodup p
  · apply h.place.move none hat
    · intro p
      cases p with
      | none => simp [At, State.setAct, State.setBatch, State.setThread]
      | some p =>
        show x ∈ own' p ↔ _
        simp only [reduceCtorEq, iff_false]
        by_cases h1 : p = .rest t rest.length
        · rw [h1, hrest']
          exact hnd.1
        · rw [hother p h1]
          intro hxp
          exact h1 (h.spot_eq hxp hat)
    · intro y p hy
      cases p with
      | none => simp [At, State.setAct, State.setBatch, State.setThread, hy]
      | some p =>
        show y ∈ own' p ↔ y ∈ own p
        by_cases h1 : p = .rest t rest.length
        · rw [h1, hrest', hl]
          simp [hy]
        · rw [hother p h1]
  · intro y
    by_cases hy : y = x
    · simp [State.setAct, State.setBatch, State.setThread, hy, hzero]
    · simpa [State.setAct, State.setBatch, State.setThread, hy] using h.once y
  · show Segment _ _ (own' .retiredList) none
    rw [hother _ (by simp)]
    exact h.retiredList
  · intro p u hp' hu
    apply hother
    intro he
    rw [he] at hp'
    exact hu (Option.some.inj hp').symm
  · intro u hu
    simp [State.setAct, State.setBatch, State.setThread, hu]
  · simp only [State.setAct, State.setBatch, State.setThread, Function.update_self]
    show Settled s.next own' t (s.privList t) (_ :: rest)
    refine ⟨?_, ⟨?_, ?_, ?_⟩, ?_⟩
    · rw [hother _ (by simp)]
      exact hs.priv
    · rw [hrest']
      exact hseg
    · rw [hother _ (by simp)]
      exact hleft
    · apply hbelow.frame
      · intro d hd
        refine ⟨hother _ ?_, hother _ (by simp)⟩
        intro he
        have hdl := (Spot.rest.inj he).2
        omega
      · intro d _ y _
        rfl
    · intro d hd
      have hd' : rest.length + 1 ≤ d := hd
      have hne : Spot.rest t d ≠ .rest t rest.length := by
        intro he
        have hdl := (Spot.rest.inj he).2
        omega
      rw [hother _ hne, hother _ (by simp)]
      exact hs.beyond d hd
  · intro u d y hy
    by_cases h1 : Spot.rest u d = .rest t rest.length
    · rw [h1, hrest'] at hy
      rw [h1, hl]
      exact List.mem_cons_of_mem _ hy
    · rw [hother _ h1] at hy
      exact hy

omit [DecidableEq Tid] [DecidableEq Obj] in
/-- The innermost batch is done when both its parts are empty. -/
theorem Settled.pop {next : Obj → Option Obj} {priv : DoubleLinkedList Obj} {b : Batch Obj}
    {rest : List (Batch Obj)} (h : Settled next own t priv (b :: rest)) (hp : b.p = none)
    (hl : ¬ 0 < b.leftList.count) : Settled next own t priv rest := by
  obtain ⟨hrest, hleft, hbelow⟩ := h.batches
  refine ⟨h.priv, hbelow, ?_⟩
  intro d hd
  by_cases hdl : d = rest.length
  · rw [hdl, hleft.eq_nil hl]
    rw [hp] at hrest
    exact ⟨hrest.unique (show Segment next none [] none from rfl), rfl⟩
  · exact h.beyond d (by simp; omega)

omit [DecidableEq Obj] in
theorem Lists.outside (h : Lists s own) (hn : s'.next = s.next) (hg : s'.retiredList = s.retiredList)
    (hr : s'.retired = s.retired) (hd : s'.deletions = s.deletions) (hp : s'.privList = s.privList)
    {a : Act Obj Rec Cell Holder} (ht : s'.thread = (s.setAct t a).thread)
    (hpl : (s.thread t).act.plain = true) (ha : a.plain = true) : Lists s' own := by
  refine h.quiet hn hg hr hd hp ?_
  intro u
  rw [ht]
  by_cases hu : u = t
  · subst hu
    exact .inr ⟨by simpa using ha, by simpa using h.settled hpl⟩
  · exact .inl (setAct_thread_of_ne hu a)

/-- The unprocessed parts only shrink, except that an exchange fills a new one. -/
def Shrinks (s : State Obj Rec Cell Holder Tid) (own own' : Spot Tid → List Obj) : Prop :=
  ∀ u d y, y ∈ own' (.rest u d) →
    y ∈ own (.rest u d) ∨ (s.thread u).act = .exchange ∧ d = (s.thread u).stack.length

omit [DecidableEq Tid] [DecidableEq Obj] in
theorem shrinks_refl (s : State Obj Rec Cell Holder Tid) (own : Spot Tid → List Obj) : Shrinks s own own :=
  fun _ _ _ hy => .inl hy

omit [DecidableEq Obj] in
theorem shrinks_pour {p : Spot Tid} (hp : ∀ u d, p ≠ .rest u d) :
    Shrinks s own (pour own p .retiredList) := by
  intro u d y hy
  rw [pour_of_ne (hp u d).symm (by simp)] at hy
  exact .inl hy

theorem lists_retire (h : Lists s own) {x : Obj} (ha : (s.thread t).act = .client) (hx : ¬ s.retired x) :
    ∃ own', Lists (s.retire t x) own' ∧ Shrinks s own own' := by
  have hpush := h.pushPriv ha hx
  refine ⟨Function.update own (.priv t) (own (.priv t) ++ [x]), ?_, ?_⟩
  · unfold State.retire
    split
    · refine hpush.setAct ?_ rfl
      show (s.thread t).act.plain = true
      rw [ha]
      rfl
    · exact hpush
  · intro u d y hy
    rw [Function.update_of_ne (by simp)] at hy
    exact .inl hy

theorem lists_link (h : Lists s own) {source : Source} {tail : Obj} {r : Option Obj}
    (ha : (s.thread t).act = .link source ∨ (s.thread t).act = .append source)
    (hl : (s.source t source).tail = some tail) :
    Lists ({ s with next := Function.update s.next tail r }.setAct t (.append source)) own := by
  cases source with
  | priv =>
    have hplain : (s.thread t).act.plain = true := by
      rcases ha with ha | ha <;> rw [ha] <;> rfl
    obtain ⟨hmem, hs⟩ := h.redirectPriv (h.settled hplain) hl r
    exact h.redirect (p := .priv t) rfl hmem hs
  | left =>
    obtain ⟨hs, b, rest, hstack, hp⟩ := h.left_settled ha
    simp only [State.source, hstack] at hl
    rw [hstack] at hs
    obtain ⟨hmem, hs'⟩ := h.redirectLeft hs hl r
    refine h.redirect (p := .left t rest.length) rfl hmem ?_
    show Settled _ _ _ _ (s.thread t).stack ∧ _
    rw [hstack]
    exact ⟨hs', b, rest, rfl, hp⟩

omit [DecidableEq Obj] in
theorem lists_append (h : Lists s own) {source : Source} {tail : Obj}
    (ha : (s.thread t).act = .append source) (hl : (s.source t source).tail = some tail)
    (he : s.retiredList = s.next tail) :
    ∃ own', Lists ({ s with retiredList := (s.source t source).head }.setAct t (.countRetired source)) own' ∧
      Shrinks s own own' := by
  cases source with
  | priv => exact ⟨_, h.appendPriv ha hl he, shrinks_pour (by simp)⟩
  | left =>
    obtain ⟨-, b, rest, hstack, -⟩ := h.left_settled (.inr ha)
    simp only [State.source, hstack] at hl ⊢
    exact ⟨_, h.appendLeft ha hstack hl he, shrinks_pour (by simp)⟩

omit [DecidableEq Obj] in
theorem lists_exchange (h : Lists s own) (ha : (s.thread t).act = .exchange) :
    ∃ own', Lists (({ s with retiredList := none }.setBatch t ⟨s.retiredList, [], .clear⟩
      (s.thread t).stack).setAct t .loadRecords) own' ∧ Shrinks s own own' := by
  refine ⟨_, h.exchange ha, ?_⟩
  intro u d y hy
  by_cases hud : Spot.rest u d = .rest t (s.thread t).stack.length
  · obtain ⟨rfl, rfl⟩ := Spot.rest.inj hud
    exact .inr ⟨ha, rfl⟩
  · rw [pour_of_ne (by simp) hud] at hy
    exact .inl hy

omit [DecidableEq Obj] in
theorem lists_countLeft (h : Lists s own) {b : Batch Obj} {rest : List (Batch Obj)} {count : Int}
    (ha : (s.thread t).act = .countRetired .left) (hstack : (s.thread t).stack = b :: rest) :
    Lists (({ s with retiredCount := count }.setThread t { s.thread t with stack := rest }).finish t) own := by
  have ht := h.threads t
  simp only [ThreadLists, ha, hstack, List.tail_cons] at ht
  have hcount : Lists { s with retiredCount := count } own :=
    h.quiet rfl rfl rfl rfl rfl (fun _ => .inl rfl)
  exact hcount.finish ht.1

omit [DecidableEq Obj] in
theorem lists_countPriv (h : Lists s own) {count : Int} (ha : (s.thread t).act = .countRetired .priv) :
    Lists ({ s with
      retiredCount := count, privList := Function.update s.privList t .clear }.setAct t .loadCount) own := by
  have ht := h.threads t
  simp only [ThreadLists, ha] at ht
  refine h.step t h.nodup h.place h.once h.retiredList (fun _ _ _ _ => rfl) (fun _ _ _ _ _ _ => rfl) ?_ ?_ ?_
  · intro u hu
    exact Function.update_of_ne hu _ _
  · intro u hu
    exact setAct_thread_of_ne hu _
  · rw [setAct_thread_self]
    show Settled s.next own t (Function.update s.privList t .clear t) (s.thread t).stack
    rw [Function.update_self]
    exact ht

variable [DecidableEq Rec] [DecidableEq Cell] [DecidableEq Holder]

theorem lists_step {useCache : Bool} (hstep : Step useCache t s s') (h : Lists s own) :
    ∃ own', Lists s' own' ∧ Shrinks s own own' := by
  cases hstep with
  | store c v ha hv => exact ⟨own, h.quiet rfl rfl rfl rfl rfl (fun _ => .inl rfl), shrinks_refl s own⟩
  | retire x ha hx hcell => exact lists_retire h ha hx
  | acquire x ha hu hh hf =>
    refine ⟨own, ?_, shrinks_refl s own⟩
    unfold State.searchAt
    split <;> exact h.setAct (by rw [ha]; rfl) rfl
  | acquireCached x rec rest ha hu hh hf hp =>
    exact ⟨own, h.quiet rfl rfl rfl rfl rfl (fun _ => .inl rfl), shrinks_refl s own⟩
  | acquireFresh x ha hu hh hf hp =>
    exact ⟨own, h.setAct (by rw [ha]; rfl) rfl, shrinks_refl s own⟩
  | loadActive x rec ha =>
    refine ⟨own, ?_, shrinks_refl s own⟩
    split
    · unfold State.searchAt
      split <;> exact h.setAct (by rw [ha]; rfl) rfl
    · exact h.setAct (by rw [ha]; rfl) rfl
  | casActiveOk x rec ha hr =>
    exact ⟨own, h.outside rfl rfl rfl rfl rfl rfl (by rw [ha]; rfl) rfl, shrinks_refl s own⟩
  | casActiveFail x rec ha hr =>
    refine ⟨own, ?_, shrinks_refl s own⟩
    unfold State.searchAt
    split <;> exact h.setAct (by rw [ha]; rfl) rfl
  | newRecord x rec ha hr =>
    exact ⟨own, h.outside rfl rfl rfl rfl rfl rfl (by rw [ha]; rfl) rfl, shrinks_refl s own⟩
  | pushRecordOk x rec ha he =>
    exact ⟨own, h.outside rfl rfl rfl rfl rfl rfl (by rw [ha]; rfl) rfl, shrinks_refl s own⟩
  | pushRecordFail x rec ha =>
    exact ⟨own, h.quiet rfl rfl rfl rfl rfl (fun _ => .inl rfl), shrinks_refl s own⟩
  | countRecord x rec ha =>
    exact ⟨own, h.outside rfl rfl rfl rfl rfl rfl (by rw [ha]; rfl) rfl, shrinks_refl s own⟩
  | tryProtect x rec p src ha hh hf =>
    exact ⟨own, h.outside rfl rfl rfl rfl rfl rfl (by rw [ha]; rfl) rfl, shrinks_refl s own⟩
  | getProtected x rec src ha hh hf =>
    exact ⟨own, h.setAct (by rw [ha]; rfl) rfl, shrinks_refl s own⟩
  | publish x rec p src ha hh =>
    exact ⟨own, h.outside rfl rfl rfl rfl rfl rfl (by rw [ha]; rfl) rfl, shrinks_refl s own⟩
  | validateOk x p src again ha he =>
    exact ⟨own, h.setAct (by rw [ha]; rfl) rfl, shrinks_refl s own⟩
  | validateFail x p src again ha he =>
    exact ⟨own, h.setAct (by rw [ha]; rfl) rfl, shrinks_refl s own⟩
  | retract x rec latest src again ha hh =>
    refine ⟨own, h.outside rfl rfl rfl rfl rfl rfl (by rw [ha]; rfl) ?_, shrinks_refl s own⟩
    split <;> rfl
  | reset x rec p ha hh hf => exact ⟨own, h.quiet rfl rfl rfl rfl rfl (fun _ => .inl rfl), shrinks_refl s own⟩
  | swap x x' rec rec' ha hh hh' hf hf' =>
    exact ⟨own, h.quiet rfl rfl rfl rfl rfl (fun _ => .inl rfl), shrinks_refl s own⟩
  | destroy x rec ha hu hh hf =>
    exact ⟨own, h.outside rfl rfl rfl rfl rfl rfl (by rw [ha]; rfl) rfl, shrinks_refl s own⟩
  | destroyCached x rec ha hu hh hf =>
    refine ⟨own, ?_, shrinks_refl s own⟩
    unfold State.freeCachedRec
    split <;> exact h.quiet rfl rfl rfl rfl rfl (fun _ => .inl rfl)
  | releaseRecord rec ha =>
    exact ⟨own, h.outside rfl rfl rfl rfl rfl rfl (by rw [ha]; rfl) rfl, shrinks_refl s own⟩
  | link source tail ha hl => exact ⟨own, lists_link h (.inl ha) hl, shrinks_refl s own⟩
  | appendOk source tail ha hl he => exact lists_append h ha hl he
  | appendFail source tail ha hl =>
    refine ⟨own, ?_, shrinks_refl s own⟩
    have hlink := lists_link (r := s.retiredList) h (.inr ha) hl
    have hsame : { s with next := Function.update s.next tail s.retiredList }.setAct t (.append source) =
        { s with next := Function.update s.next tail s.retiredList } := by
      simp [State.setAct, State.setThread, ← ha]
    rw [hsame] at hlink
    exact hlink
  | countPriv ha => exact ⟨own, lists_countPriv h ha, shrinks_refl s own⟩
  | countLeft b rest ha hs => exact ⟨own, lists_countLeft h ha hs, shrinks_refl s own⟩
  | loadCount ha => exact ⟨own, h.setAct (by rw [ha]; rfl) rfl, shrinks_refl s own⟩
  | loadHazptrCount cnt ha =>
    refine ⟨own, ?_, shrinks_refl s own⟩
    split
    · have hfin := h.finish (h.settled (t := t) (by rw [ha]; rfl))
      simpa [State.setThread] using hfin
    · exact h.setAct (by rw [ha]; rfl) rfl
  | casCountOk cnt ha he =>
    exact ⟨own, h.outside rfl rfl rfl rfl rfl rfl (by rw [ha]; rfl) rfl, shrinks_refl s own⟩
  | casCountFail cnt ha => exact ⟨own, h.setAct (by rw [ha]; rfl) rfl, shrinks_refl s own⟩
  | exchange ha => exact lists_exchange h ha
  | loadRecords ha =>
    refine ⟨own, ?_, shrinks_refl s own⟩
    unfold State.scanAt
    split <;> exact h.setAct (by rw [ha]; rfl) rfl
  | scan rec b rest ha hs =>
    have hsettled := h.settled (t := t) (by rw [ha]; rfl)
    rw [hs] at hsettled
    have hset : Lists (s.setBatch t { b with set := s.realptr rec :: b.set } rest) own := by
      refine h.setThread (by rw [ha]; rfl) ?_
      exact ⟨hsettled.priv, hsettled.batches, hsettled.beyond⟩
    have hact : ((s.setBatch t { b with set := s.realptr rec :: b.set } rest).thread t).act.plain = true := by
      simp [State.setBatch, State.setThread, ha, Act.plain]
    refine ⟨own, ?_, shrinks_refl s own⟩
    unfold State.scanAt
    split <;> exact hset.setAct hact rfl
  | keep x b rest ha hs hp hset =>
    obtain ⟨own', h', hsub⟩ := h.keep ha hs hp
    exact ⟨own', h', fun u d y hy => .inl (hsub u d y hy)⟩
  | delete x b rest ha hs hp hset =>
    obtain ⟨own', h', hsub⟩ := h.delete ha hs hp
    exact ⟨own', h', fun u d y hy => .inl (hsub u d y hy)⟩
  | destructed b rest ha hs => exact ⟨own, h.setAct (by rw [ha]; rfl) rfl, shrinks_refl s own⟩
  | appendLeft b rest ha hs hp hl =>
    refine ⟨own, ?_, shrinks_refl s own⟩
    refine h.step t h.nodup h.place h.once h.retiredList (fun _ _ _ _ => rfl) (fun _ _ _ _ _ _ => rfl)
      (fun _ _ => rfl) (fun u hu => setAct_thread_of_ne hu _) ?_
    rw [setAct_thread_self]
    exact ⟨h.settled (by rw [ha]; rfl), b, rest, hs, hp⟩
  | reclaimed b rest ha hs hp hl =>
    have hsettled := h.settled (t := t) (by rw [ha]; rfl)
    rw [hs] at hsettled
    exact ⟨own, h.finish (hsettled.pop hp hl), shrinks_refl s own⟩
  | exit ha hs he =>
    have hsettled := h.settled (t := t) (by rw [ha]; rfl)
    rw [hs] at hsettled
    refine ⟨own, ?_, shrinks_refl s own⟩
    unfold State.exit
    split
    · exact h.setThread rfl hsettled
    · have hpool : Lists { s with pool := Function.update s.pool t [] } own :=
        h.quiet rfl rfl rfl rfl rfl (fun _ => .inl rfl)
      exact hpool.setThread rfl hsettled
  | dropCached rec rest ha =>
    exact ⟨own, h.outside rfl rfl rfl rfl rfl rfl (by rw [ha]; rfl) rfl, shrinks_refl s own⟩
  | exited ha => exact ⟨own, h.setAct (by rw [ha]; rfl) rfl, shrinks_refl s own⟩

omit [DecidableEq Rec] [DecidableEq Cell] [DecidableEq Holder] [DecidableEq Tid] [DecidableEq Obj] in
theorem lists_init (hs : Init s) : Lists s (fun _ => []) := by
  constructor
  · intro p
    exact List.nodup_nil
  · constructor
    · intro x p hp
      cases p with
      | none => exact absurd (hs.deletions x) hp
      | some p => cases hp
    · intro x hx
      exact absurd hx (hs.retired x)
    · intro x p q hp
      cases p with
      | none => exact absurd (hs.deletions x) hp
      | some p => cases hp
  · intro x
    rw [hs.deletions]
    omega
  · exact hs.retiredList
  · intro t
    rw [hs.thread, hs.privList]
    exact ⟨Items.clear _, trivial, fun _ _ => ⟨rfl, rfl⟩⟩

theorem reachable_lists {useCache : Bool} (hs : Reachable Init (Next useCache) s) : ∃ own, Lists s own := by
  apply hs.invariant
  · intro s₀ h₀
    exact ⟨_, lists_init h₀⟩
  · rintro s₁ s₂ - ⟨own, h₁⟩ ⟨t, hstep⟩
    obtain ⟨own', h₂, -⟩ := lists_step hstep h₁
    exact ⟨own', h₂⟩

/-- The batch of the call of `bulkReclaim` at depth `d`. -/
def batchAt : List (Batch Obj) → Nat → Option (Batch Obj)
  | [], _ => none
  | b :: rest, d => if d = rest.length then some b else batchAt rest d

section Pointers

omit [DecidableEq Rec] [DecidableEq Cell] [DecidableEq Holder] [DecidableEq Tid] [DecidableEq Obj]

theorem batchAt_lt {stack : List (Batch Obj)} {d : Nat} {b : Batch Obj} (h : batchAt stack d = some b) :
    d < stack.length := by
  induction stack with
  | nil => cases h
  | cons c rest ih =>
    unfold batchAt at h
    split at h
    · simp only [List.length_cons]
      omega
    · have hlt := ih h
      simp only [List.length_cons]
      omega

theorem exists_batchAt {stack : List (Batch Obj)} {d : Nat} (h : d < stack.length) :
    ∃ b, batchAt stack d = some b := by
  induction stack with
  | nil => cases h
  | cons c rest ih =>
    unfold batchAt
    split
    · exact ⟨c, rfl⟩
    · apply ih
      simp only [List.length_cons] at h
      omega

theorem Batches.batchAt {next : Obj → Option Obj} {stack : List (Batch Obj)} (h : Batches next own t stack)
    {d : Nat} {b : Batch Obj} (hd : batchAt stack d = some b) :
    Segment next b.p (own (.rest t d)) none ∧ Items next b.leftList (own (.left t d)) := by
  induction stack with
  | nil => cases hd
  | cons c rest ih =>
    unfold Hazptr.batchAt at hd
    split at hd
    · rename_i hlen
      rw [← Option.some.inj hd, hlen]
      exact ⟨h.1, h.2.1⟩
    · exact ih h.2.2 hd

/-- Where the pointers lead to an object, or that it has been deleted. -/
def Linked (s : State Obj Rec Cell Holder Tid) (x : Obj) : Option (Spot Tid) → Prop
  | some (.priv t) => x ∈ walk s.next (s.privList t).head (s.privList t).count.toNat
  | some .retiredList => ∃ l, Segment s.next s.retiredList l none ∧ x ∈ l
  | some (.rest t d) => ∃ b l, batchAt (s.thread t).stack d = some b ∧ Segment s.next b.p l none ∧ x ∈ l
  | some (.left t d) => ∃ b, batchAt (s.thread t).stack d = some b ∧
      x ∈ walk s.next b.leftList.head b.leftList.count.toNat
  | none => s.deletions x ≠ 0

/-- The list is one whose compare-and-swap in `append` has succeeded. -/
def HandedOver (s : State Obj Rec Cell Holder Tid) : Option (Spot Tid) → Prop
  | some (.priv t) => (s.thread t).act = .countRetired .priv
  | some (.left t d) => (s.thread t).act = .countRetired .left ∧ d + 1 = (s.thread t).stack.length
  | _ => False

theorem ThreadLists.priv {next : Obj → Option Obj} {priv : DoubleLinkedList Obj}
    {th : Thread Obj Rec Cell Holder} (h : ThreadLists next own t priv th) :
    (th.act = .countRetired .priv → own (.priv t) = []) ∧
      (th.act ≠ .countRetired .priv → Items next priv (own (.priv t))) := by
  unfold ThreadLists at h
  split at h
  · rename_i ha
    exact ⟨fun _ => h.priv.eq_nil (by simp [DoubleLinkedList.clear]), fun hne => absurd ha hne⟩
  · rename_i ha
    exact ⟨fun hne => by simp [ha] at hne, fun _ => h.1.priv⟩
  · rename_i ha
    exact ⟨fun hne => by simp [ha] at hne, fun _ => h.1.priv⟩
  · rename_i ha
    exact ⟨fun hne => by simp [ha] at hne, fun _ => h.1.priv⟩
  · rename_i hne _ _ _
    exact ⟨fun ha => absurd ha hne, fun _ => h.priv⟩

theorem ThreadLists.beyond {next : Obj → Option Obj} {priv : DoubleLinkedList Obj}
    {th : Thread Obj Rec Cell Holder} (h : ThreadLists next own t priv th) {d : Nat}
    (hd : th.stack.length ≤ d) : own (.rest t d) = [] ∧ own (.left t d) = [] := by
  unfold ThreadLists at h
  split at h
  · exact h.beyond d hd
  · exact h.1.beyond d (by simp only [List.length_tail]; omega)
  · exact h.1.beyond d hd
  · exact h.1.beyond d hd
  · exact h.beyond d hd

theorem ThreadLists.batch {next : Obj → Option Obj} {priv : DoubleLinkedList Obj}
    {th : Thread Obj Rec Cell Holder} (h : ThreadLists next own t priv th) {d : Nat} {b : Batch Obj}
    (hd : batchAt th.stack d = some b) :
    Segment next b.p (own (.rest t d)) none ∧
      (th.act = .countRetired .left ∧ d + 1 = th.stack.length → own (.left t d) = []) ∧
      (¬ (th.act = .countRetired .left ∧ d + 1 = th.stack.length) →
        Items next b.leftList (own (.left t d))) := by
  by_cases ha : th.act = .countRetired .left
  · simp only [ThreadLists, ha] at h
    obtain ⟨hs, c, rest, hstack, hp⟩ := h
    rw [hstack] at hs hd ⊢
    by_cases hdr : d = rest.length
    · simp only [batchAt, if_pos hdr, Option.some.injEq] at hd
      subst hd
      obtain ⟨hrest, hleft⟩ := hs.beyond d (by simp [hdr])
      rw [hrest, hp]
      exact ⟨rfl, fun _ => hleft, fun hh => absurd ⟨ha, by simp [hdr]⟩ hh⟩
    · simp only [batchAt, if_neg hdr] at hd
      obtain ⟨hrest, hleft⟩ := hs.batches.batchAt hd
      exact ⟨hrest, fun hh => absurd hh.2 (by simp [hdr]), fun _ => hleft⟩
  · have hb : Batches next own t th.stack := by
      unfold ThreadLists at h
      split at h
      · exact h.batches
      · contradiction
      · exact h.1.batches
      · exact h.1.batches
      · exact h.batches
    obtain ⟨hrest, hleft⟩ := hb.batchAt hd
    exact ⟨hrest, fun hh => absurd hh.1 ha, fun _ => hleft⟩

theorem Lists.linked_iff (h : Lists s own) (x : Obj) (p : Option (Spot Tid)) :
    Linked s x p ∧ ¬ HandedOver s p ↔ At s own x p := by
  rcases p with _ | p
  · exact and_iff_left (fun hh => hh)
  · cases p with
    | priv t =>
      obtain ⟨hnil, hitems⟩ := (h.threads t).priv
      by_cases ha : (s.thread t).act = .countRetired .priv
      · simp [HandedOver, At, ha, hnil ha]
      · simp [HandedOver, Linked, At, ha, (hitems ha).walk_eq]
    | retiredList =>
      constructor
      · rintro ⟨⟨l, hl, hx⟩, -⟩
        rw [hl.unique h.retiredList] at hx
        exact hx
      · intro hx
        exact ⟨⟨_, h.retiredList, hx⟩, fun hh => hh⟩
    | rest t d =>
      constructor
      · rintro ⟨⟨b, l, hb, hl, hx⟩, -⟩
        rw [hl.unique ((h.threads t).batch hb).1] at hx
        exact hx
      · intro hx
        by_cases hd : d < (s.thread t).stack.length
        · obtain ⟨b, hb⟩ := exists_batchAt hd
          exact ⟨⟨b, _, hb, ((h.threads t).batch hb).1, hx⟩, fun hh => hh⟩
        · have hnil := ((h.threads t).beyond (by omega : _ ≤ d)).1
          simp [At, hnil] at hx
    | left t d =>
      by_cases hd : d < (s.thread t).stack.length
      · obtain ⟨b, hb⟩ := exists_batchAt hd
        obtain ⟨-, hnil, hitems⟩ := (h.threads t).batch hb
        by_cases ha : (s.thread t).act = .countRetired .left ∧ d + 1 = (s.thread t).stack.length
        · simp [HandedOver, At, ha, hnil ha]
        · have hleft := hitems ha
          simp only [HandedOver, Linked, At, ha, not_false_eq_true, and_true]
          constructor
          · rintro ⟨b', hb', hx⟩
            rw [hb] at hb'
            rw [← Option.some.inj hb', hleft.walk_eq] at hx
            exact hx
          · intro hx
            exact ⟨b, hb, by rw [hleft.walk_eq]; exact hx⟩
      · constructor
        · rintro ⟨⟨b, hb, -⟩, -⟩
          exact absurd (batchAt_lt hb) hd
        · intro hx
          have hnil := ((h.threads t).beyond (by omega : _ ≤ d)).2
          simp [At, hnil] at hx

end Pointers

/-- A manager that nobody has used yet. -/
def State.unused : State Obj Rec Cell Holder Tid where
  next := fun _ => none
  retiredList := none
  retiredCount := 0
  hazptrCount := 0
  hazptrList := none
  recNext := fun _ => none
  active := fun _ => false
  realptr := fun _ => none
  allocated := fun _ => False
  cell := fun _ => none
  holder := fun _ => none
  privList := fun _ => .clear
  pool := fun _ => []
  thread := fun _ => ⟨.client, [], false⟩
  retired := fun _ => False
  deletions := fun _ => 0

omit [DecidableEq Tid] [DecidableEq Obj] [DecidableEq Rec] [DecidableEq Cell] [DecidableEq Holder] in
theorem unused_init : Init (State.unused : State Obj Rec Cell Holder Tid) := by
  constructor <;> intros <;> first | rfl | exact fun hh => hh

end Wizard.Hazptr
