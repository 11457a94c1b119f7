import Wizard.RouteRefcntSafe

/-! What a lookup of `route_refcnt.c` returns as long as no lookup's pointer is left dangling. Its
way may lead over entries that were taken out, and over memory that is an entry again by the time
the lookup comes there. -/

namespace Wizard.RouteRefcnt

open RouteTable

variable {Tid : Type*}

/-- From `p` on, the lookup of `addr` comes to an answer in `P`, or to memory that is not linked. -/
inductive Way (s : State Tid) (l : List Nat) (addr : BitVec 64) (P : BitVec 64 → Prop) : Option Nat → Prop
  | nil (h : P ulongMax) : Way s l addr P none
  | on (front back : List Nat) (a : Nat) (hl : l = front ++ a :: back)
      (h : P (answer ((a :: back).map s.route) addr)) : Way s l addr P (some a)
  | off (a : Nat) (ha : a ∉ l) (hst : s.stage a = .linked) (hm : s.addr a = addr → P (s.iface a))
      (hw : s.addr a ≠ addr → Way s l addr P (way s.next a)) : Way s l addr P (some a)
  | gone (a : Nat) (hst : s.stage a ≠ .linked) : Way s l addr P (some a)

variable {s s' : State Tid} {l l' junk junk' front back : List Nat} {addr : BitVec 64} {P P' : BitVec 64 → Prop}
  {p : Option Nat} {a b : Nat}

theorem Way.ulongMax_of_none (h : Way s l addr P none) : P ulongMax := by
  cases h with
  | nil h => exact h

theorem Way.hit (h : Way s l addr P (some a)) (ha : s.stage a = .linked) (he : s.addr a = addr) : P (s.iface a) := by
  cases h with
  | on front back _ hl hp =>
    rw [List.map_cons, answer_cons_of_eq he] at hp
    exact hp
  | off _ _ _ hm _ => exact hm he
  | gone _ hst => exact absurd ha hst

theorem Way.tail (h : Way s l addr P (some a)) (hlist : Linked s.next l) (ha : s.stage a = .linked)
    (hne : s.addr a ≠ addr) : Way s l addr P (way s.next a) := by
  cases h with
  | on front back _ hl hp =>
    rw [List.map_cons, answer_cons_of_ne hne] at hp
    subst hl
    have hn : way s.next a = back.head? := Segment.next_eq_head? hlist
    rw [hn]
    cases back with
    | nil => exact .nil hp
    | cons b back => exact .on (front ++ [a]) back b (by simp) hp
  | off _ _ _ _ hw => exact hw hne
  | gone _ hst => exact absurd ha hst

/-- When the whole list has been taken off, the way leads on along its entries. -/
theorem Way.of_cleared (hlist : Segment (way s.next) (some a) (a :: back) none)
    (hst : ∀ b ∈ a :: back, s.stage b = .linked) (hp : P (answer ((a :: back).map s.route) addr)) :
    Way s [] addr P (some a) := by
  induction back generalizing a with
  | nil =>
    have hn : way s.next a = none := hlist.2
    refine .off a (by simp) (hst a (by simp)) (fun he => ?_) fun hne => ?_
    · rw [List.map_cons, answer_cons_of_eq he] at hp
      exact hp
    · rw [List.map_cons, answer_cons_of_ne hne] at hp
      rw [hn]
      exact .nil hp
  | cons b back ih =>
    obtain ⟨-, hlist⟩ := hlist
    have hn : way s.next a = some b := hlist.1
    refine .off a (by simp) (hst a (by simp)) (fun he => ?_) fun hne => ?_
    · rw [List.map_cons, answer_cons_of_eq he] at hp
      exact hp
    · rw [List.map_cons, answer_cons_of_ne hne] at hp
      rw [hn] at hlist ⊢
      exact ih hlist (fun c hc => hst c (List.mem_cons_of_mem a hc)) hp

theorem routes_congr (h : ∀ b ∈ l, s'.route b = s.route b) : l.map s'.route = l.map s.route := List.map_congr_left h

section Change

variable [Fintype Tid] (hi : Inv s l junk) (hi' : Inv s' l' junk')
  (hr : ∀ b, s'.stage b = .linked → s'.route b = s.route b) (hP : ∀ r, P r → P' r)
include hi hi' hr hP

omit hi hP in
theorem Inv.routes_eq (h : ∀ b ∈ back, b ∈ l') : back.map s'.route = back.map s.route :=
  List.map_congr_left fun b hb => hr b (hi'.linked b (List.mem_append_left _ (h b hb)))

/-- The entry itself is taken out. -/
theorem Way.deleted (hl : l = front ++ a :: back) (hl' : l' = front ++ back)
    (hp : P (answer ((a :: back).map s.route) addr)) (hw : way s'.next a = way s.next a) (hst : s'.stage = s.stage) :
    Way s' l' addr P' (some a) := by
  subst hl hl'
  have hnot : a ∉ front ++ back := (List.nodup_cons.1 (List.nodup_middle.1 hi.list.nodup)).1
  have ha : s'.stage a = .linked := by
    rw [hst]
    exact hi.linked a (by simp)
  have hra := hr a ha
  have haddr : s'.addr a = s.addr a := congrArg Route.addr hra
  have hn : way s.next a = back.head? := Segment.next_eq_head? hi.list
  refine .off a hnot ha (fun he => ?_) fun hne => ?_
  · rw [haddr] at he
    rw [List.map_cons, answer_cons_of_eq he] at hp
    rw [show s'.iface a = s.iface a from congrArg Route.iface hra]
    exact hP _ hp
  · rw [haddr] at hne
    rw [List.map_cons, answer_cons_of_ne hne] at hp
    rw [hw, hn]
    cases back with
    | nil => exact .nil (hP _ hp)
    | cons b back =>
      refine .on front back b rfl ?_
      rw [hi'.routes_eq hr fun c hc => List.mem_append_right _ hc]
      exact hP _ hp

omit hi in
/-- An entry behind is taken out. It was the first one for its address, so if the answer is
another one, then so is that of the table. -/
theorem Way.deleted_behind {m : List Nat} {c : Nat} (hl' : l' = front ++ a :: (m ++ back))
    (hp : P (answer ((a :: (m ++ c :: back)).map s.route) addr)) (hd : Differ s (s.addr c) (front ++ a :: m))
    (hnew : P' (answer s'.table addr)) : Way s' l' addr P' (some a) := by
  refine .on front (m ++ back) a hl' ?_
  subst hl'
  have hroutes : (a :: (m ++ back)).map s'.route = (a :: m).map s.route ++ back.map s.route := by
    rw [hi'.routes_eq hr fun c hc => List.mem_append_right _ hc, ← List.cons_append, List.map_append]
  have hold : (a :: (m ++ c :: back)).map s.route = (a :: m).map s.route ++ s.route c :: back.map s.route := by
    rw [← List.cons_append, List.map_append]
    rfl
  rw [hold] at hp
  rw [hroutes]
  rcases answer_remove ((a :: m).map s.route) (back.map s.route) (s.route c) addr with h | ⟨hc, h⟩
  · rw [h]
    exact hP _ hp
  · have htable : s'.table = (front ++ a :: m).map s.route ++ back.map s.route := by
      rw [hi'.table, hi'.routes_eq hr fun x hx => hx, ← List.map_append]
      simp
    rw [htable, answer_append_of_ne] at hnew
    · rw [h]
      exact hnew
    · intro r hr
      obtain ⟨x, hx, rfl⟩ := List.mem_map.1 hr
      have hc : s.addr c = addr := hc
      rw [← hc]
      exact hd x hx

theorem Way.step (hc : Change s s' l l') (hnew : P' (answer s'.table addr)) (h : Way s l addr P p) :
    Way s' l' addr P' p := by
  induction h with
  | nil h => exact .nil (hP _ h)
  | on front back a hl hp =>
    have keep : ∀ front' : List Nat, l' = front' ++ a :: back → Way s' l' addr P' (some a) := by
      intro front' hl'
      refine .on front' back a hl' ?_
      rw [hi'.routes_eq hr fun c hc => by rw [hl']; exact List.mem_append_right _ hc]
      exact hP _ hp
    cases hc with
    | quiet hl' _ _ _ => exact keep front (hl'.trans hl)
    | publish c hl' _ _ _ => exact keep (c :: front) (by rw [hl', hl]; rfl)
    | delete front' back' c hl₁ hl' hd hw hst =>
      rcases List.append_eq_append_iff.1 (hl.symm.trans hl₁) with ⟨m, rfl, hm⟩ | ⟨m, rfl, hm⟩
      · cases m with
        | nil =>
          obtain ⟨rfl, rfl⟩ := List.cons.inj hm
          rw [List.append_nil] at hl' hw
          refine Way.deleted hi hi' hr hP hl hl' hp (hw a fun ha => ?_) hst
          have hnot := (List.nodup_cons.1 (List.nodup_middle.1 (hl ▸ hi.list.nodup))).1
          exact hnot (List.mem_append_left _ ha)
        | cons b m =>
          obtain ⟨rfl, rfl⟩ := List.cons.inj hm
          rw [List.append_assoc] at hl'
          exact Way.deleted_behind hi' hr hP hl' hp hd hnew
      · cases m with
        | nil =>
          obtain ⟨rfl, rfl⟩ := List.cons.inj hm
          rw [List.append_nil] at hl
          refine Way.deleted hi hi' hr hP hl hl' hp (hw c fun ha => ?_) hst
          have hnot := (List.nodup_cons.1 (List.nodup_middle.1 (hl ▸ hi.list.nodup))).1
          exact hnot (List.mem_append_left _ ha)
        | cons b m =>
          obtain ⟨rfl, rfl⟩ := List.cons.inj hm
          exact keep (front' ++ m) (hl'.trans (List.append_assoc front' m (a :: back)).symm)
    | clear hl' hw hst =>
      subst hl hl'
      have hlinked : ∀ b ∈ a :: back, s'.stage b = .linked := fun b hb => by
        rw [hst]
        exact hi.linked b (List.mem_append_left _ (List.mem_append_right _ hb))
      obtain ⟨q, -, hseg⟩ := Segment.append_iff.1 hi.list
      refine Way.of_cleared ?_ hlinked ?_
      · rw [hw]
        exact ⟨rfl, hseg.2⟩
      · rw [List.map_congr_left fun b hb => hr b (hlinked b hb)]
        exact hP _ hp
  | off a ha hst hm _ ih =>
    by_cases hst' : s'.stage a = .linked
    · have hra := hr a hst'
      have haddr : s'.addr a = s.addr a := congrArg Route.addr hra
      have hiface : s'.iface a = s.iface a := congrArg Route.iface hra
      have off : a ∉ l' → way s'.next a = way s.next a → Way s' l' addr P' (some a) := by
        intro ha' hw
        refine .off a ha' hst' (fun he => ?_) fun hne => ?_
        · rw [hiface]
          exact hP _ (hm (haddr.symm.trans he))
        · rw [hw]
          exact ih (by rwa [haddr] at hne)
      cases hc with
      | quiet hl' _ hw _ => exact off (by rwa [hl']) (hw a hst)
      | publish c hl' hc hw _ =>
        refine off ?_ (congrFun hw a)
        rw [hl']
        refine List.not_mem_cons_of_ne_of_not_mem ?_ ha
        rintro rfl
        exact hc hst
      | delete front' back' c hl₁ hl' hd hw _ =>
        subst hl₁ hl'
        refine off (fun hmem => ha ?_) (hw a fun hmem => ha (List.mem_append_left _ hmem))
        simp only [List.mem_append, List.mem_cons] at hmem ⊢
        tauto
      | clear hl' hw _ => exact off (by simp [hl']) (congrFun hw a)
    · exact .gone a hst'
  | gone a hst =>
    by_cases hst' : s'.stage a = .linked
    · cases hc with
      | quiet _ _ _ hs => exact absurd (hs a hst') hst
      | publish c hl' _ _ hs =>
        have hac : a = c := by
          by_contra hne
          exact hst (hs a hne hst')
        subst hac
        refine .on [] l a hl' ?_
        rw [← hl', ← hi'.table]
        exact hnew
      | delete _ _ _ _ _ _ _ hs => exact absurd (hs ▸ hst') hst
      | clear _ _ hs => exact absurd (hs ▸ hst') hst
    · exact .gone a hst'

end Change

/-- What a thread knows that drops its reference to the entry. -/
def After.Ahead (s : State Tid) (l : List Nat) (P : BitVec 64 → BitVec 64 → Prop) (a : Nat) : After → Prop
  | .next addr b => a = b ∧ s.addr a ≠ addr ∧ Way s l addr (P addr) (some a)
  | .done addr ret => P addr ret
  | _ => True

/-- The answers of a lookup are among those of `P`. -/
def Pc.Ahead (s : State Tid) (l : List Nat) (P : BitVec 64 → BitVec 64 → Prop) : Pc → Prop
  | .load addr (.entry a) => s.addr a ≠ addr ∧ Way s l addr (P addr) (some a)
  | .check addr a | .read addr a | .cas addr a _ | .compare addr a => Way s l addr (P addr) (some a)
  | .iface addr a => s.addr a = addr ∧ Way s l addr (P addr) (some a)
  | .put a k | .flag a k | .free a k => k.Ahead s l P a
  | .returned addr ret => P addr ret
  | _ => True

variable {A A' : BitVec 64 → BitVec 64 → Prop} {q : Pc} {t u : Tid}

theorem After.Ahead.pc {k : After} (h : k.Ahead s l A a) : k.pc.Ahead s l A := by
  match k, h with
  | .next _ _, ⟨rfl, hne, hw⟩ => exact ⟨hne, hw⟩
  | .done _ _, h => exact h
  | .del, _ | .clear none, _ | .clear (some _), _ => exact trivial

/-- The entry whose address the thread has compared is the same entry still. -/
theorem Pc.Ahead.keep
    (haddr : ∀ a, q.bare? = some a ∨ q.role.held = some a ∧ q.role.adding = none ∨ q.role.freeing = some a →
      s'.addr a = s.addr a)
    (hway : ∀ {addr p}, Way s l addr (A addr) p → Way s' l' addr (A' addr) p) (hA : ∀ addr r, A addr r → A' addr r)
    (h : q.Ahead s l A) : q.Ahead s' l' A' := by
  have hafter : ∀ {k : After} {a : Nat}, s'.addr a = s.addr a → k.Ahead s l A a → k.Ahead s' l' A' a := by
    intro k a ha h
    cases k with
    | next addr b =>
      obtain ⟨rfl, hne, hw⟩ := h
      exact ⟨rfl, by rwa [ha], hway hw⟩
    | done addr ret => exact hA addr ret h
    | _ => exact trivial
  cases q with
  | load addr repp =>
    cases repp with
    | routeList => exact trivial
    | entry a => exact ⟨by rw [haddr a (.inl rfl)]; exact h.1, hway h.2⟩
  | check addr a | read addr a | cas addr a old | compare addr a => exact hway h
  | iface addr a => exact ⟨by rw [haddr a (.inr (.inl ⟨rfl, rfl⟩))]; exact h.1, hway h.2⟩
  | put a k => exact hafter (haddr a (.inr (.inl ⟨rfl, rfl⟩))) h
  | flag a k | free a k => exact hafter (haddr a (.inr (.inr rfl))) h
  | returned addr ret => exact hA addr ret h
  | _ => exact trivial

section Turns

variable [DecidableEq Tid]

theorem Step.pc_of_ne (hs : Step t s s') (hu : u ≠ t) : s'.pc u = s.pc u := by
  cases hs with
  | garbage => rfl
  | _ => exact Function.update_of_ne hu _ _

theorem Step.route_eq (hs : Step t s s') (hb : s'.stage b = .linked) : s'.route b = s.route b := by
  cases hs with
  | garbage a addr iface n reFreed rep h =>
    have hne : b ≠ a := by
      rintro rfl
      cases h.symm.trans hb
    exact congrArg₂ Route.mk (Function.update_of_ne hne _ _) (Function.update_of_ne hne _ _)
  | malloc a addr iface h ha =>
    have hne := (linked_of_setStage (s := s.write a addr iface 1) (a := a) (by simp) hb).1
    exact congrArg₂ Route.mk (Function.update_of_ne hne _ _) (Function.update_of_ne hne _ _)
  | _ => rfl

variable [Fintype Tid]

/-- The turn of a thread, seen in the state before it. -/
theorem Inv.turn (hi : Inv s l junk) (hsteady : Steady s) (hs : Step t s s')
    (hcur : ∀ addr, A addr (answer s.table addr)) (h : (s.pc t).Ahead s l A) : (s'.pc t).Ahead s l A := by
  have hself : ∀ {q : Pc}, q.Ahead s l A → ((s.setPc t q).pc t).Ahead s l A := fun hq => by rwa [setPc_self]
  have hlinked : ∀ a, (s.pc t).role.held = some a → (s.pc t).role.adding = none → s.stage a = .linked :=
    fun a => hi.linked_of_held
  have hbare := hsteady t
  cases hs with
  | garbage => exact h
  | callLookup addr hp => exact hself (q := .load addr .routeList) trivial
  | load addr repp rep hp hn =>
    rw [hp] at h hbare
    refine hself (q := .check addr rep) ?_
    cases repp with
    | routeList =>
      have hl := hi.list
      cases l with
      | nil => cases hn.symm.trans hl
      | cons b back =>
        cases hn.symm.trans hl.1
        refine .on [] back rep rfl ?_
        rw [← hi.table]
        exact hcur addr
    | entry a =>
      have hw := h.2.tail hi.list (hbare a rfl) h.1
      rw [way, hn] at hw
      exact hw
  | loadNull addr repp hp hn =>
    rw [hp] at h hbare
    refine hself (q := .returned addr ulongMax) ?_
    cases repp with
    | routeList =>
      have hl := hi.list
      cases l with
      | cons b back => cases hn.symm.trans hl.1
      | nil =>
        have hc := hcur addr
        rw [hi.table] at hc
        exact hc
    | entry a =>
      have hw := h.2.tail hi.list (hbare a rfl) h.1
      rw [way, hn] at hw
      exact hw.ulongMax_of_none
  | check addr rep hp =>
    rw [hp] at h
    refine hself ?_
    split
    · exact trivial
    · exact h
  | read addr rep hp =>
    rw [hp] at h
    refine hself ?_
    split
    · exact trivial
    · exact h
  | casOk addr rep old hp hc =>
    rw [hp] at h
    rw [setPc_self]
    exact h
  | casFail addr rep old hp hc =>
    rw [hp] at h
    exact hself (q := .check addr rep) h
  | compare addr rep hp =>
    rw [hp] at h
    refine hself ?_
    split
    · next he => exact ⟨he, h⟩
    · next he => exact ⟨rfl, he, h⟩
  | iface addr rep hp =>
    rw [hp] at h hlinked
    exact hself (q := .put rep (.done addr (s.iface rep))) (h.2.hit (hlinked rep rfl rfl) h.1)
  | put rep k hp =>
    rw [hp] at h
    rw [setPc_self]
    split
    · exact h
    · exact After.Ahead.pc h
  | flag rep k hp =>
    rw [hp] at h
    rw [setPc_self]
    exact h
  | free rep k hp =>
    rw [hp] at h
    rw [setPc_self]
    exact After.Ahead.pc h
  | test addr repp rep hp =>
    rw [setPc_self]
    split <;> trivial
  | empty rep hp =>
    rw [setPc_self]
    cases rep <;> trivial
  | unlock rep hp =>
    rw [setPc_self]
    cases rep <;> trivial
  | _ =>
    rw [setPc_self]
    trivial

/-- What a lookup returns, if it does and no lookup's pointer was left dangling, is what the table
said at some moment between its start and its end. -/
theorem steady_lookup_answers {visited : List (State Tid)} (hT : Fintype.card Tid + 1 < 2 ^ 31)
    (h : Reachable Init SteadyStep s) (hidle : s.pc t = .idle) (hr : Run SteadyStep s visited s')
    {addr ret : BitVec 64} (hret : s'.pc t = .returned addr ret) : ∃ v ∈ visited, answer v.table addr = ret := by
  have key : Steady s' ∧ (∃ l junk, Inv s' l junk ∧
      (s'.pc t).Ahead s' l fun addr ret => ∃ v ∈ visited, answer v.table addr = ret) ∧ s' ∈ visited := by
    clear hret
    induction hr with
    | start =>
      obtain ⟨hsteady, l, junk, hi⟩ := steady_and_inv_of_reachable hT h
      refine ⟨hsteady, ⟨l, junk, hi, ?_⟩, by simp⟩
      rw [hidle]
      trivial
    | @tail visited v w hr hs ih =>
      obtain ⟨⟨u, hs⟩, hsteady'⟩ := hs
      obtain ⟨hsteady, ⟨l, junk, hi, ha⟩, hmem⟩ := ih
      obtain ⟨l', junk', hi', hc⟩ := hi.step hT hsteady hs
      have hP : ∀ addr r, (∃ x ∈ visited, answer x.table addr = r) → ∃ x ∈ visited ++ [w], answer x.table addr = r :=
        fun addr r ⟨x, hx, hxr⟩ => ⟨x, List.mem_append_left _ hx, hxr⟩
      have hturn : (w.pc t).Ahead v l fun addr ret => ∃ x ∈ visited, answer x.table addr = ret := by
        by_cases htu : t = u
        · subst htu
          exact hi.turn hsteady hs (fun addr => ⟨v, hmem, rfl⟩) ha
        · rwa [hs.pc_of_ne htu]
      refine ⟨hsteady', ⟨l', junk', hi', hturn.keep (fun a hrel => ?_) (fun hw => ?_) hP⟩, by simp⟩
      · -- no pointer of the thread is to memory that has just been written
        have hst : w.stage a = .linked := by
          rcases hrel with hb | ⟨hh, hadd⟩ | hf
          · exact hsteady' t a hb
          · exact hi'.linked_of_held hh hadd
          · exact (hi'.pcs t).freeing a hf
        exact congrArg Route.addr (hs.route_eq hst)
      · exact hw.step hi hi' (fun b => hs.route_eq) (hP _) hc ⟨w, by simp, rfl⟩
  obtain ⟨-, ⟨l, junk, -, ha⟩, -⟩ := key
  rw [hret] at ha
  exact ha

omit [Fintype Tid] in
theorem steady_run_tail {visited : List (State Tid)} (h : Run SteadyStep s visited s') {s'' : State Tid}
    (hs : Step t s' s'') (hsteady : Steady s'') : Run SteadyStep s (visited ++ [s'']) s'' :=
  h.tail ⟨⟨t, hs⟩, hsteady⟩

end Turns

/-- The route is deleted under the lookup, which returns it nevertheless. -/
theorem steady_lookup_answers_deleted : ∃ (s s' : State Bool) (visited : List (State Bool)),
    Run SteadyStep s visited s' ∧ s'.table = [] ∧ s'.pc true = .returned 5 7 ∧ ∃ v ∈ visited, answer v.table 5 = 7 := by
  have h₀ : Reachable Init SteadyStep unused := .of_init init_unused
  have h₁ := steady_tail h₀ (.malloc (t := false) _ 0 5 7 rfl rfl) (by decide)
  have h₂ := steady_tail h₁ (.addLock (t := false) _ 0 rfl rfl) (by decide)
  have h₃ := steady_tail h₂ (.link (t := false) _ 0 rfl) (by decide)
  have h₄ := steady_tail h₃ (.reset (t := false) _ 0 rfl) (by decide)
  have h₅ := steady_tail h₄ (.publish (t := false) _ 0 rfl) (by decide)
  have h := steady_tail h₅ (.unlock (t := false) _ none rfl) (by decide)
  have start : ∀ {s : State Bool}, Reachable Init SteadyStep s → Run SteadyStep s [s] s := fun _ => .start
  have r₁ := steady_run_tail (start h) (.callLookup (t := true) _ 5 rfl) (by decide)
  have r₂ := steady_run_tail r₁ (.load (t := true) _ 5 .routeList 0 rfl rfl) (by decide)
  have r₃ := steady_run_tail r₂ (.check (t := true) _ 5 0 rfl) (by decide)
  have r₄ := steady_run_tail r₃ (.read (t := true) _ 5 0 rfl) (by decide)
  have r₅ := steady_run_tail r₄ (.casOk (t := true) _ 5 0 1 rfl rfl) (by decide)
  have r₆ := steady_run_tail r₅ (.compare (t := true) _ 5 0 rfl) (by decide)
  have r₇ := steady_run_tail r₆ (.callDel (t := false) _ 5 rfl) (by decide)
  have r₈ := steady_run_tail r₇ (.delLock (t := false) _ 5 rfl rfl) (by decide)
  have r₉ := steady_run_tail r₈ (.scan (t := false) _ 5 .routeList 0 rfl rfl) (by decide)
  have r₁₀ := steady_run_tail r₉ (.test (t := false) _ 5 .routeList 0 rfl) (by decide)
  have r₁₁ := steady_run_tail r₁₀ (.skip (t := false) _ .routeList 0 rfl) (by decide)
  have r₁₂ := steady_run_tail r₁₁ (.iface (t := true) _ 5 0 rfl) (by decide)
  have r := steady_run_tail r₁₂ (.put (t := true) _ 0 (.done 5 7) rfl) (by decide)
  exact ⟨_, _, _, r, rfl, rfl, steady_lookup_answers (t := true) (by decide) h rfl r rfl⟩

end Wizard.RouteRefcnt
