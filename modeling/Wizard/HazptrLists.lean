import Wizard.Hazptr
import Wizard.Places
import Wizard.Segment

/-! The lists of retired objects. One `next` field serves the private lists, the list
of the manager, and the batches of all calls of `bulkReclaim`; each thread writes it
only in objects that it owns. -/

namespace Wizard.Hazptr

variable {Obj Rec Cell Holder Tid : Type*}

/-- `xs` are the objects of a `DoubleLinkedList`. The last of them may point anywhere. -/
structure Items (next : Obj → Option Obj) (l : DoubleLinkedList Obj) (xs : List Obj) : Prop where
  head : l.head = xs.head?
  tail : l.tail = xs.getLast?
  count : l.count = xs.length
  segment : ∃ e, Segment next xs.head? xs e

namespace Items

variable {next next' : Obj → Option Obj} {l : DoubleLinkedList Obj} {xs : List Obj}

theorem clear (next : Obj → Option Obj) : Items next .clear [] :=
  ⟨rfl, rfl, rfl, none, rfl⟩

theorem congr (h : Items next l xs) (he : ∀ x ∈ xs, next' x = next x) : Items next' l xs := by
  obtain ⟨e, hs⟩ := h.segment
  exact ⟨h.head, h.tail, h.count, e, hs.congr he⟩

theorem walk_eq (h : Items next l xs) : walk next l.head l.count.toNat = xs := by
  obtain ⟨e, hs⟩ := h.segment
  rw [h.head, h.count, Int.toNat_natCast]
  exact hs.walk_eq

theorem eq_nil (h : Items next l xs) (hc : ¬ 0 < l.count) : xs = [] := by
  rw [h.count] at hc
  apply List.length_eq_zero_iff.1
  omega

theorem concat_of_tail (h : Items next l xs) {a : Obj} (ha : l.tail = some a) : ∃ ys, xs = ys ++ [a] := by
  rw [h.tail, List.getLast?_eq_some_iff] at ha
  exact ha

theorem segment_tail (h : Items next l xs) {a : Obj} (ha : l.tail = some a) :
    Segment next l.head xs (next a) := by
  obtain ⟨e, hs⟩ := h.segment
  obtain ⟨ys, rfl⟩ := h.concat_of_tail ha
  rw [h.head]
  obtain ⟨m, hm, hlast⟩ := Segment.append_iff.1 hs
  exact hm.append ⟨hlast.1, rfl⟩

variable [DecidableEq Obj]

theorem redirect (h : Items next l xs) (hn : xs.Nodup) {a : Obj} (ha : l.tail = some a) (r : Option Obj) :
    Items (Function.update next a r) l xs := by
  obtain ⟨e, hs⟩ := h.segment
  obtain ⟨ys, rfl⟩ := h.concat_of_tail ha
  have hay : a ∉ ys := by
    intro hay
    exact (List.disjoint_of_nodup_append hn) hay (List.mem_singleton_self a)
  exact ⟨h.head, h.tail, h.count, r, hs.redirect hay r⟩

theorem link_of_ne (h : Items next l xs) {x y : Obj} (hx : y ≠ x) (hy : y ∉ xs) : l.link next x y = next y := by
  unfold DoubleLinkedList.link
  cases ht : l.tail with
  | none => exact Function.update_of_ne hx _ _
  | some a =>
    obtain ⟨ys, rfl⟩ := h.concat_of_tail ht
    have hya : y ≠ a := by
      intro hya
      simp [hya] at hy
    simp [hya, hx]

theorem push (h : Items next l xs) (hn : xs.Nodup) {x : Obj} (hx : x ∉ xs) :
    Items (l.link next x) (l.push x) (xs ++ [x]) := by
  obtain ⟨e, hs⟩ := h.segment
  cases ht : l.tail with
  | none =>
    have hnil : xs = [] := by
      rw [h.tail] at ht
      exact List.getLast?_eq_none_iff.1 ht
    subst hnil
    refine ⟨?_, ?_, ?_, none, ?_⟩
    · simp [DoubleLinkedList.push, ht]
    · simp [DoubleLinkedList.push, ht]
    · simp [DoubleLinkedList.push, ht, h.count]
    · simp [DoubleLinkedList.link, ht, Segment]
  | some a =>
    obtain ⟨ys, rfl⟩ := h.concat_of_tail ht
    have hay : a ∉ ys := by
      intro hay
      exact (List.disjoint_of_nodup_append hn) hay (List.mem_singleton_self a)
    have hxa : x ≠ a := by
      intro hxa
      simp [hxa] at hx
    refine ⟨?_, ?_, ?_, none, ?_⟩
    · simp [DoubleLinkedList.push, ht, h.head]
    · simp [DoubleLinkedList.push, ht]
    · simp [DoubleLinkedList.push, ht, h.count, add_assoc]
    · have hold : Segment (Function.update next x none) (ys ++ [a]).head? (ys ++ [a]) e := by
        apply hs.congr
        intro y hy
        exact Function.update_of_ne (ne_of_mem_of_not_mem hy hx) _ _
      have hnew := (hold.redirect hay (some x)).append (show Segment _ (some x) [x] none from
        ⟨rfl, by simp [Segment, hxa]⟩)
      simpa [DoubleLinkedList.link, ht] using hnew

end Items

/-- The lists an object can be on. Batches are numbered from the outermost call of
`bulkReclaim` in the thread. -/
inductive Spot (Tid : Type*)
  | priv (t : Tid)
  | retiredList
  | rest (t : Tid) (d : Nat)
  | left (t : Tid) (d : Nat)
deriving DecidableEq

def Spot.thread? : Spot Tid → Option Tid
  | .priv t | .rest t _ | .left t _ => some t
  | .retiredList => none

def Batches (next : Obj → Option Obj) (own : Spot Tid → List Obj) (t : Tid) : List (Batch Obj) → Prop
  | [] => True
  | b :: rest => Segment next b.p (own (.rest t rest.length)) none ∧
      Items next b.leftList (own (.left t rest.length)) ∧ Batches next own t rest

structure Settled (next : Obj → Option Obj) (own : Spot Tid → List Obj) (t : Tid)
    (priv : DoubleLinkedList Obj) (stack : List (Batch Obj)) : Prop where
  priv : Items next priv (own (.priv t))
  batches : Batches next own t stack
  beyond : ∀ d, stack.length ≤ d → own (.rest t d) = [] ∧ own (.left t d) = []

def Act.plain : Act Obj Rec Cell Holder → Bool
  | .countRetired _ | .link .left | .append .left => false
  | _ => true

/-- A list that `append` has handed over no longer counts as the thread's. -/
def ThreadLists (next : Obj → Option Obj) (own : Spot Tid → List Obj) (t : Tid)
    (priv : DoubleLinkedList Obj) (th : Thread Obj Rec Cell Holder) : Prop :=
  match th.act with
  | .countRetired .priv => Settled next own t .clear th.stack
  | .countRetired .left =>
    Settled next own t priv th.stack.tail ∧ ∃ b rest, th.stack = b :: rest ∧ b.p = none
  | .link .left | .append .left =>
    Settled next own t priv th.stack ∧ ∃ b rest, th.stack = b :: rest ∧ b.p = none
  | _ => Settled next own t priv th.stack

def At (s : State Obj Rec Cell Holder Tid) (own : Spot Tid → List Obj) (x : Obj) : Option (Spot Tid) → Prop
  | some p => x ∈ own p
  | none => s.deletions x ≠ 0

structure Lists (s : State Obj Rec Cell Holder Tid) (own : Spot Tid → List Obj) : Prop where
  nodup : ∀ p, (own p).Nodup
  place : OnePlace s.retired (At s own)
  once : ∀ x, s.deletions x ≤ 1
  retiredList : Segment s.next s.retiredList (own .retiredList) none
  threads : ∀ t, ThreadLists s.next own t (s.privList t) (s.thread t)

variable {next next' : Obj → Option Obj} {own own' : Spot Tid → List Obj} {t : Tid}
  {priv : DoubleLinkedList Obj} {stack : List (Batch Obj)} {th : Thread Obj Rec Cell Holder}

theorem threadLists_iff (hp : th.act.plain = true) :
    ThreadLists next own t priv th ↔ Settled next own t priv th.stack := by
  obtain ⟨act, stack, exiting⟩ := th
  cases act with
  | countRetired source => cases hp
  | link source =>
    cases source with
    | priv => exact Iff.rfl
    | left => cases hp
  | append source =>
    cases source with
    | priv => exact Iff.rfl
    | left => cases hp
  | _ => exact Iff.rfl

theorem Batches.frame (h : Batches next own t stack)
    (ho : ∀ d, d < stack.length → own' (.rest t d) = own (.rest t d) ∧ own' (.left t d) = own (.left t d))
    (hn : ∀ d, d < stack.length → ∀ x, x ∈ own (.rest t d) ∨ x ∈ own (.left t d) → next' x = next x) :
    Batches next' own' t stack := by
  induction stack with
  | nil => trivial
  | cons b rest ih =>
    obtain ⟨hp, hl, hrest⟩ := h
    have hlt : rest.length < (b :: rest).length := by simp
    refine ⟨?_, ?_, ih hrest (fun d hd => ho d (by omega)) (fun d hd => hn d (by omega))⟩
    · rw [(ho _ hlt).1]
      exact hp.congr (fun x hx => hn _ hlt x (.inl hx))
    · rw [(ho _ hlt).2]
      exact hl.congr (fun x hx => hn _ hlt x (.inr hx))

theorem Settled.frame (h : Settled next own t priv stack)
    (ho : ∀ p, p.thread? = some t → own' p = own p)
    (hn : ∀ p, p.thread? = some t → ∀ x ∈ own p, next' x = next x) : Settled next' own' t priv stack := by
  constructor
  · rw [ho _ rfl]
    exact h.priv.congr (hn _ rfl)
  · apply h.batches.frame
    · intro d _
      exact ⟨ho _ rfl, ho _ rfl⟩
    · rintro d - x (hx | hx)
      · exact hn _ rfl x hx
      · exact hn _ rfl x hx
  · intro d hd
    rw [ho _ rfl, ho _ rfl]
    exact h.beyond d hd

theorem ThreadLists.frame (h : ThreadLists next own t priv th)
    (ho : ∀ p, p.thread? = some t → own' p = own p)
    (hn : ∀ p, p.thread? = some t → ∀ x ∈ own p, next' x = next x) :
    ThreadLists next' own' t priv th := by
  unfold ThreadLists at h ⊢
  split at h
  · exact h.frame ho hn
  · exact ⟨h.1.frame ho hn, h.2⟩
  · exact ⟨h.1.frame ho hn, h.2⟩
  · exact ⟨h.1.frame ho hn, h.2⟩
  · exact h.frame ho hn

variable {s s' : State Obj Rec Cell Holder Tid}

/-- Objects on different lists are different. -/
theorem Lists.spot_eq (h : Lists s own) {x : Obj} {p q : Spot Tid} (hp : x ∈ own p) (hq : x ∈ own q) :
    p = q :=
  Option.some.inj (h.place.unique x (some p) (some q) hp hq)

theorem Lists.quiet (h : Lists s own) (hn : s'.next = s.next) (hg : s'.retiredList = s.retiredList)
    (hr : s'.retired = s.retired) (hd : s'.deletions = s.deletions) (hp : s'.privList = s.privList)
    (ht : ∀ u, s'.thread u = s.thread u ∨ (s'.thread u).act.plain = true ∧
      Settled s.next own u (s.privList u) (s'.thread u).stack) : Lists s' own := by
  constructor
  · exact h.nodup
  · rw [hr]
    apply h.place.congr
    intro x p
    cases p <;> simp [At, hd]
  · rw [hd]
    exact h.once
  · rw [hn, hg]
    exact h.retiredList
  · intro u
    rw [hn, hp]
    rcases ht u with hu | ⟨hu', hsettled⟩
    · rw [hu]
      exact h.threads u
    · exact (threadLists_iff hu').2 hsettled

theorem Lists.settled (h : Lists s own) (hp : (s.thread t).act.plain = true) :
    Settled s.next own t (s.privList t) (s.thread t).stack :=
  (threadLists_iff hp).1 (h.threads t)

variable [DecidableEq Tid]

@[simp] theorem setAct_thread_self (a : Act Obj Rec Cell Holder) :
    (s.setAct t a).thread t = { s.thread t with act := a } := by
  simp [State.setAct, State.setThread]

theorem setAct_thread_of_ne {u : Tid} (hu : u ≠ t) (a : Act Obj Rec Cell Holder) :
    (s.setAct t a).thread u = s.thread u := by
  simp [State.setAct, State.setThread, hu]

theorem finish_eq (s : State Obj Rec Cell Holder Tid) (t : Tid) :
    ∃ a pool, a.plain = true ∧ a.holder? = none ∧ s.finish t = { s with pool := pool }.setAct t a := by
  unfold State.finish
  split
  · exact ⟨_, _, rfl, rfl, rfl⟩
  · exact ⟨.client, s.pool, rfl, rfl, rfl⟩

theorem Lists.setThread (h : Lists s own) {th : Thread Obj Rec Cell Holder} (hp : th.act.plain = true)
    (hs : Settled s.next own t (s.privList t) th.stack) : Lists (s.setThread t th) own := by
  refine h.quiet rfl rfl rfl rfl rfl ?_
  intro u
  by_cases hu : u = t
  · subst hu
    exact .inr ⟨by simpa [State.setThread] using hp, by simpa [State.setThread] using hs⟩
  · exact .inl (by simp [State.setThread, hu])

theorem Lists.setAct (h : Lists s own) {a : Act Obj Rec Cell Holder} (hp : (s.thread t).act.plain = true)
    (ha : a.plain = true) : Lists (s.setAct t a) own :=
  h.setThread ha (h.settled hp)

theorem Lists.finish (h : Lists s own) (hs : Settled s.next own t (s.privList t) stack) :
    Lists ((s.setThread t { s.thread t with stack := stack }).finish t) own := by
  obtain ⟨a, pool, ha, -, he⟩ := finish_eq (s.setThread t { s.thread t with stack := stack }) t
  rw [he]
  refine h.quiet rfl rfl rfl rfl rfl ?_
  intro u
  by_cases hu : u = t
  · subst hu
    refine .inr ⟨?_, ?_⟩ <;> simpa [State.setAct, State.setThread]
  · exact .inl (by simp [State.setAct, State.setThread, hu])

theorem Lists.step (h : Lists s own) (t : Tid) (hnodup : ∀ p, (own' p).Nodup)
    (hplace : OnePlace s'.retired (At s' own')) (honce : ∀ x, s'.deletions x ≤ 1)
    (hglobal : Segment s'.next s'.retiredList (own' .retiredList) none)
    (ho : ∀ p u, p.thread? = some u → u ≠ t → own' p = own p)
    (hn : ∀ p u, p.thread? = some u → u ≠ t → ∀ x ∈ own p, s'.next x = s.next x)
    (hp : ∀ u, u ≠ t → s'.privList u = s.privList u) (hth : ∀ u, u ≠ t → s'.thread u = s.thread u)
    (ht : ThreadLists s'.next own' t (s'.privList t) (s'.thread t)) : Lists s' own' := by
  constructor
  · exact hnodup
  · exact hplace
  · exact honce
  · exact hglobal
  · intro u
    by_cases hu : u = t
    · rw [hu]
      exact ht
    · rw [hp u hu, hth u hu]
      exact (h.threads u).frame (fun p hpu => ho p u hpu hu) (fun p hpu => hn p u hpu hu)

/-- All objects of one list go in front of another. -/
def pour (own : Spot Tid → List Obj) (p q : Spot Tid) : Spot Tid → List Obj :=
  Function.update (Function.update own q (own p ++ own q)) p []

theorem pour_of_ne {p q r : Spot Tid} (hp : r ≠ p) (hq : r ≠ q) : pour own p q r = own r := by
  simp [pour, hp, hq]

theorem pour_source (p q : Spot Tid) : pour own p q p = [] := by
  simp [pour]

theorem pour_target {p q : Spot Tid} (hpq : q ≠ p) : pour own p q q = own p ++ own q := by
  simp [pour, hpq]

theorem Lists.pour_nodup (h : Lists s own) {p q : Spot Tid} (hpq : q ≠ p) (r : Spot Tid) :
    (pour own p q r).Nodup := by
  by_cases hp : r = p
  · rw [hp, pour_source]
    exact List.nodup_nil
  · by_cases hq : r = q
    · rw [hq, pour_target hpq]
      apply List.Nodup.append (h.nodup p) (h.nodup q)
      intro x hx hx'
      exact hpq (h.spot_eq hx' hx)
    · rw [pour_of_ne hp hq]
      exact h.nodup r

theorem Lists.pour_place (h : Lists s own) {p q : Spot Tid} (hpq : q ≠ p) :
    OnePlace s.retired (At s (pour own p q)) := by
  apply h.place.map (fun _ r => if r = some p then some q else r)
  intro x r
  cases r with
  | none =>
    constructor
    · intro hx
      exact ⟨none, hx, rfl⟩
    · rintro ⟨r, hx, hr⟩
      by_cases hrp : r = some p
      · simp [hrp] at hr
      · rw [if_neg hrp] at hr
        rw [hr] at hx
        exact hx
  | some r =>
    constructor
    · intro hx
      have hx' : x ∈ pour own p q r := hx
      by_cases hp : r = p
      · rw [hp, pour_source] at hx'
        cases hx'
      · by_cases hq : r = q
        · rw [hq, pour_target hpq, List.mem_append] at hx'
          rcases hx' with hx' | hx'
          · exact ⟨some p, hx', by simp [hq]⟩
          · exact ⟨some q, hx', by simp [hq, hpq]⟩
        · rw [pour_of_ne hp hq] at hx'
          exact ⟨some r, hx', by simp [hp]⟩
    · rintro ⟨r', hx, hr⟩
      by_cases hrp : r' = some p
      · rw [if_pos hrp] at hr
        rw [hrp] at hx
        rw [← Option.some.inj hr]
        show x ∈ pour own p q q
        rw [pour_target hpq]
        exact List.mem_append_left _ hx
      · rw [if_neg hrp] at hr
        rw [hr] at hx hrp
        have hp : r ≠ p := fun he => hrp (congrArg some he)
        have hx' : x ∈ own r := hx
        show x ∈ pour own p q r
        by_cases hq : r = q
        · rw [hq, pour_target hpq]
          rw [hq] at hx'
          exact List.mem_append_right _ hx'
        · rw [pour_of_ne hp hq]
          exact hx'

theorem Lists.append (h : Lists s own) {p : Spot Tid} (hp : p.thread? = some t) {head : Option Obj}
    {a : Act Obj Rec Cell Holder} (hseg : Segment s.next head (own p) s.retiredList)
    (hthread : ThreadLists s.next (pour own p .retiredList) t (s.privList t) { s.thread t with act := a }) :
    Lists ({ s with retiredList := head }.setAct t a) (pour own p .retiredList) := by
  have hpg : .retiredList ≠ p := by
    intro he
    rw [← he] at hp
    cases hp
  refine h.step t (h.pour_nodup hpg) (h.pour_place hpg) h.once ?_ ?_ (fun _ _ _ _ _ _ => rfl)
    (fun _ _ => rfl) ?_ ?_
  · rw [pour_target hpg]
    exact hseg.append h.retiredList
  · intro q u hq hu
    apply pour_of_ne
    · intro he
      rw [he, hp] at hq
      exact hu (Option.some.inj hq).symm
    · intro he
      rw [he] at hq
      cases hq
  · intro u hu
    exact setAct_thread_of_ne hu a
  · simpa [State.setAct, State.setThread] using hthread

theorem Lists.appendPriv (h : Lists s own) {tail : Obj} (ha : (s.thread t).act = .append .priv)
    (ht : (s.privList t).tail = some tail) (he : s.retiredList = s.next tail) :
    Lists ({ s with retiredList := (s.privList t).head }.setAct t (.countRetired .priv))
      (pour own (.priv t) .retiredList) := by
  have hs := h.settled (by rw [ha]; rfl)
  refine h.append rfl ?_ ?_
  · rw [he]
    exact hs.priv.segment_tail ht
  · show Settled s.next _ t .clear (s.thread t).stack
    constructor
    · rw [pour_source]
      exact Items.clear _
    · apply hs.batches.frame
      · intro d _
        exact ⟨pour_of_ne (by simp) (by simp), pour_of_ne (by simp) (by simp)⟩
      · intro d _ x _
        rfl
    · intro d hd
      rw [pour_of_ne (by simp) (by simp), pour_of_ne (by simp) (by simp)]
      exact hs.beyond d hd

omit [DecidableEq Tid] in
theorem Lists.left_settled (h : Lists s own)
    (ha : (s.thread t).act = .link .left ∨ (s.thread t).act = .append .left) :
    Settled s.next own t (s.privList t) (s.thread t).stack ∧
      ∃ b rest, (s.thread t).stack = b :: rest ∧ b.p = none := by
  have ht := h.threads t
  rcases ha with ha | ha <;> simpa only [ThreadLists, ha] using ht

theorem Lists.appendLeft (h : Lists s own) {tail : Obj} {b : Batch Obj} {rest : List (Batch Obj)}
    (ha : (s.thread t).act = .append .left) (hstack : (s.thread t).stack = b :: rest)
    (ht : b.leftList.tail = some tail) (he : s.retiredList = s.next tail) :
    Lists ({ s with retiredList := b.leftList.head }.setAct t (.countRetired .left))
      (pour own (.left t rest.length) .retiredList) := by
  obtain ⟨hs, b', rest', hb, hp⟩ := h.left_settled (.inr ha)
  rw [hstack] at hs hb
  obtain ⟨rfl, rfl⟩ := List.cons.inj hb
  obtain ⟨hrest, hleft, hbelow⟩ := hs.batches
  have hnil : own (.rest t rest.length) = [] := by
    rw [hp] at hrest
    exact hrest.unique (show Segment s.next none [] none from rfl)
  refine h.append rfl ?_ ?_
  · rw [he]
    exact hleft.segment_tail ht
  · show Settled s.next _ t (s.privList t) (s.thread t).stack.tail ∧ _
    rw [hstack]
    refine ⟨⟨?_, ?_, ?_⟩, b, rest, rfl, hp⟩
    · rw [pour_of_ne (by simp) (by simp)]
      exact hs.priv
    · apply hbelow.frame
      · intro d hd
        refine ⟨pour_of_ne (by simp) (by simp), pour_of_ne ?_ (by simp)⟩
        intro hsp
        have hdl := (Spot.left.inj hsp).2
        omega
      · intro d _ x _
        rfl
    · intro d hd
      have hd' : rest.length ≤ d := hd
      rw [pour_of_ne (by simp) (by simp)]
      by_cases hdr : d = rest.length
      · rw [hdr, pour_source]
        exact ⟨hnil, rfl⟩
      · have hne : Spot.left t d ≠ .left t rest.length := by
          intro hsp
          exact hdr (Spot.left.inj hsp).2
        rw [pour_of_ne hne (by simp)]
        exact hs.beyond d (by simp; omega)

/-- `bulkReclaim` takes the list of the manager. -/
theorem Lists.exchange (h : Lists s own) (ha : (s.thread t).act = .exchange) :
    Lists (({ s with retiredList := none }.setBatch t ⟨s.retiredList, [], .clear⟩
        (s.thread t).stack).setAct t .loadRecords)
      (pour own .retiredList (.rest t (s.thread t).stack.length)) := by
  have hs := h.settled (by rw [ha]; rfl)
  have hne : Spot.rest t (s.thread t).stack.length ≠ .retiredList := by simp
  obtain ⟨hnil, hnil'⟩ := hs.beyond _ (le_refl _)
  refine h.step t (h.pour_nodup hne) (h.pour_place hne) h.once ?_ ?_ (fun _ _ _ _ _ _ => rfl)
    (fun _ _ => rfl) ?_ ?_
  · rw [pour_source]
    rfl
  · intro q u hq hu
    apply pour_of_ne
    · intro he
      rw [he] at hq
      cases hq
    · intro he
      rw [he] at hq
      exact hu (Option.some.inj hq).symm
  · intro u hu
    simp [State.setAct, State.setBatch, State.setThread, hu]
  · simp only [State.setAct, State.setBatch, State.setThread, Function.update_self]
    show Settled s.next _ t (s.privList t) (_ :: (s.thread t).stack)
    refine ⟨?_, ⟨?_, ?_, ?_⟩, ?_⟩
    · rw [pour_of_ne (by simp) (by simp)]
      exact hs.priv
    · rw [pour_target hne, hnil, List.append_nil]
      exact h.retiredList
    · rw [pour_of_ne (by simp) (by simp), hnil']
      exact Items.clear _
    · apply hs.batches.frame
      · intro d hd
        refine ⟨pour_of_ne (by simp) ?_, pour_of_ne (by simp) (by simp)⟩
        intro hsp
        have hdl := (Spot.rest.inj hsp).2
        omega
      · intro d _ x _
        rfl
    · intro d hd
      have hd' : (s.thread t).stack.length + 1 ≤ d := hd
      have hner : Spot.rest t d ≠ .rest t (s.thread t).stack.length := by
        intro hsp
        have hdl := (Spot.rest.inj hsp).2
        omega
      rw [pour_of_ne (by simp) hner, pour_of_ne (by simp) (by simp)]
      exact hs.beyond d (by omega)

variable [DecidableEq Obj]

omit [DecidableEq Tid] in
theorem Lists.next_update (h : Lists s own) {p q : Spot Tid} {x tail : Obj}
    {r : Option Obj} (htail : tail ∈ own p) (hq : q ≠ p) (hx : x ∈ own q) :
    Function.update s.next tail r x = s.next x := by
  apply Function.update_of_ne
  intro hxt
  rw [hxt] at hx
  exact hq (h.spot_eq hx htail)

/-- The thread that owns a list makes its last object point elsewhere. -/
theorem Lists.redirect (h : Lists s own) {p : Spot Tid} (hp : p.thread? = some t)
    {tail : Obj} (htail : tail ∈ own p) {r : Option Obj} {a : Act Obj Rec Cell Holder}
    (hthread : ThreadLists (Function.update s.next tail r) own t (s.privList t) { s.thread t with act := a }) :
    Lists ({ s with next := Function.update s.next tail r }.setAct t a) own := by
  refine h.step t h.nodup h.place h.once ?_ (fun _ _ _ _ => rfl) ?_ (fun _ _ => rfl) ?_ ?_
  · apply h.retiredList.congr
    intro x hx
    refine h.next_update htail ?_ hx
    intro he
    rw [← he] at hp
    cases hp
  · intro q u hq hu x hx
    refine h.next_update htail ?_ hx
    intro he
    rw [he, hp] at hq
    exact hu (Option.some.inj hq).symm
  · intro u hu
    exact setAct_thread_of_ne hu a
  · simpa [State.setAct, State.setThread] using hthread

omit [DecidableEq Tid] in
theorem Lists.redirectPriv (h : Lists s own) {priv : DoubleLinkedList Obj}
    {stack : List (Batch Obj)} (hs : Settled s.next own t priv stack) {tail : Obj}
    (ht : priv.tail = some tail) (r : Option Obj) :
    tail ∈ own (.priv t) ∧ Settled (Function.update s.next tail r) own t priv stack := by
  obtain ⟨ys, hys⟩ := hs.priv.concat_of_tail ht
  have htail : tail ∈ own (.priv t) := by simp [hys]
  refine ⟨htail, hs.priv.redirect (h.nodup _) ht r, ?_, hs.beyond⟩
  apply hs.batches.frame (fun _ _ => ⟨rfl, rfl⟩)
  rintro d - x (hx | hx)
  · exact h.next_update htail (by simp) hx
  · exact h.next_update htail (by simp) hx

omit [DecidableEq Tid] in
theorem Lists.redirectLeft (h : Lists s own) {priv : DoubleLinkedList Obj} {b : Batch Obj}
    {rest : List (Batch Obj)} (hs : Settled s.next own t priv (b :: rest)) {tail : Obj}
    (ht : b.leftList.tail = some tail) (r : Option Obj) :
    tail ∈ own (.left t rest.length) ∧ Settled (Function.update s.next tail r) own t priv (b :: rest) := by
  obtain ⟨hp, hl, hrest⟩ := hs.batches
  obtain ⟨ys, hys⟩ := hl.concat_of_tail ht
  have htail : tail ∈ own (.left t rest.length) := by simp [hys]
  refine ⟨htail, ?_, ⟨?_, hl.redirect (h.nodup _) ht r, ?_⟩, hs.beyond⟩
  · apply hs.priv.congr
    intro x hx
    exact h.next_update htail (by simp) hx
  · apply hp.congr
    intro x hx
    exact h.next_update htail (by simp) hx
  · apply hrest.frame (fun _ _ => ⟨rfl, rfl⟩)
    rintro d hd x (hx | hx)
    · exact h.next_update htail (by simp) hx
    · refine h.next_update htail ?_ hx
      intro he
      have hdl := (Spot.left.inj he).2
      omega

end Wizard.Hazptr
