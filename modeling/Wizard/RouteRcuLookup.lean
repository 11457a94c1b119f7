import Wizard.Paced
import Wizard.RouteRcuSafe

/-! What a lookup of `route_rcu.c` returns. From where it stands its way goes along entries that
were taken out since it began, and then along the rest of the list. -/

namespace Wizard.RouteRcu

open RouteTable

def routes (s : State) (l : List Nat) : List Route := l.map s.route

/-- `w` are the entries on the way of the lookup from `p` to the end of the list. -/
structure View (s : State) (l : List Nat) (seers : Nat → Nat → Prop) (t : Nat) (p : Ptr) (w : List Nat) : Prop where
  path : Segment (fun q => some (s.next q)) (some p) (entries w) (some .routeList)
  split : ∃ out rest, w = out ++ rest ∧ rest <:+ l ∧ ∀ x ∈ out, seers x t ∧ ∀ c, s.stage x ≠ .moved c

variable {s s' : State} {ls ls' : Ptr → List Nat} {seers seers' : Nat → Nat → Prop} {t : Nat} {p : Ptr} {w : List Nat}

theorem routes_congr (h : ∀ x ∈ w, s'.route x = s.route x) : routes s' w = routes s w := List.map_congr_left h

theorem Effect.table_eq (he : Effect s s' (ls .routeList) (ls' .routeList) seers seers') (hi : Inv s ls seers)
    (ht : s.table = routes s (ls .routeList)) : s'.table = routes s' (ls' .routeList) := by
  cases he with
  | quiet h =>
    rw [h.table, h.list, ht]
    refine (routes_congr fun x hx => h.route x ?_).symm
    simp [hi.lists.stage _ x hx, Ptr.stage]
  | publish a hl hta ha hn hr hm hs =>
    have hr' : routes s' (a :: ls .routeList) = routes s (a :: ls .routeList) := routes_congr fun x _ => congrFun hr x
    rw [hl, hr', hta, ht]
    rfl
  | delete front back a hl hl' hd hta hn hr =>
    have hr' : routes s' (front ++ back) = routes s (front ++ back) := routes_congr fun x _ => congrFun hr x
    rw [hl', hr', hta, ht, hl]
    simp only [routes, List.map_append, List.map_cons]
    refine del_append_of_ne ?_ rfl
    intro r hr
    obtain ⟨x, hx, rfl⟩ := List.mem_map.1 hr
    exact hd x hx
  | clear c a hc hl hta hr =>
    have hr' : routes s' (ls' .routeList) = routes s (ls' .routeList) := routes_congr fun x _ => congrFun hr x
    rw [hr', hta, ht, hl]
    rfl

theorem Inv.stage_of_out (hi : Inv s ls seers) {x : Nat} (hx : seers x t) : x ∉ ls .routeList := by
  intro hm
  have hw := (hi.seen x t hx).2
  have hst : s.stage x = .listed := hi.lists.stage _ x hm
  simp only [Waits, hst] at hw
  exact (hi.lists.lock _ hw x rfl).2 hm

theorem View.not_mem (hv : View s (ls .routeList) seers t p w) (hi : Inv s ls seers) {x : Nat} (hx : x ∈ w) :
    s.stage x ≠ .adding ∧ s.stage x ≠ .free ∧ ∀ c, s.stage x ≠ .moved c := by
  obtain ⟨out, rest, rfl, hrest, hout⟩ := hv.split
  rcases List.mem_append.1 hx with hx | hx
  · have ha := hi.alive (t := t) (.inr (hout x hx).1)
    exact ⟨ha.2.1, ha.1, (hout x hx).2⟩
  · have hst : s.stage x = .listed := hi.lists.stage _ x (hrest.subset hx)
    simp [hst]

theorem View.nodup (hv : View s (ls .routeList) seers t p w) : (entries w).Nodup := by
  refine hv.path.nodup_of_not_mem fun hm => ?_
  obtain ⟨a, -, ha⟩ := mem_entries.1 hm
  cases ha

/-- The link of an entry on the way skips the one after it. -/
theorem View.skip (hv : View s (ls .routeList) seers t p w) {front back : List Nat} {x a : Nat}
    (hw : w = front ++ [x] ++ a :: back) :
    Segment (Function.update (fun q => some (s.next q)) (.entry x) (some (s.next (.entry a)))) (some p)
      (entries (front ++ [x] ++ back)) (some .routeList) := by
  have hp := hv.path
  have hn := hv.nodup
  rw [hw, entries_append, entries_append] at hp hn
  obtain ⟨m, hfront, ⟨rfl, hback⟩⟩ := Segment.append_iff.1 hp
  rw [entries_append, entries_append]
  rw [List.nodup_append, List.nodup_append] at hn
  refine Segment.append (hfront.redirect ?_ _) (hback.congr fun q hq => ?_)
  · intro hx
    exact hn.1.2.2 _ hx _ List.mem_cons_self rfl
  · refine Function.update_of_ne ?_ _ _
    rintro rfl
    exact hn.2.2 (.entry x) (List.mem_append_right _ List.mem_cons_self) _ (List.mem_cons_of_mem _ hq) rfl

/-- Where the entry that is taken out lies on the way. -/
theorem suffix_cases {α : Type*} {front back rest : List α} {a : α} (h : rest <:+ front ++ a :: back) :
    rest <:+ a :: back ∨ ∃ pre x, pre ++ [x] <:+ front ∧ rest = pre ++ x :: a :: back := by
  obtain ⟨u, hu⟩ := h
  rcases List.append_eq_append_iff.1 hu with ⟨v, hv, hr⟩ | ⟨v, hv, hr⟩
  · rcases List.eq_nil_or_concat v with rfl | ⟨pre, x, rfl⟩
    · rw [hr]
      exact .inl List.suffix_rfl
    · refine .inr ⟨pre, x, ⟨u, ?_⟩, ?_⟩
      · rw [hv, List.concat_eq_append]
      · rw [hr, List.concat_eq_append, List.append_assoc]
        rfl
  · exact .inl ⟨v, hr.symm⟩

/-- What a step leaves of the way, and what a lookup finds on it then: what it would have found
before the step, or what the table says after it. -/
theorem View.step (hv : View s (ls .routeList) seers t p w) (hi : Inv s ls seers)
    (he : Effect s s' (ls .routeList) (ls' .routeList) seers seers') (ht : s.table = routes s (ls .routeList))
    (hno : ∀ c, s.frame c ≠ .moving) (hin : (s'.reader t).Inside) :
    ∃ w', View s' (ls' .routeList) seers' t p w' ∧ w'.length ≤ w.length ∧ ∀ addr,
      answer (routes s' w') addr = answer (routes s w) addr ∨ answer (routes s' w') addr = answer s'.table addr := by
  have hmem := fun x (hx : x ∈ w) => hv.not_mem hi hx
  obtain ⟨out, rest, hw, hrest, hout⟩ := hv.split
  cases he with
  | quiet h =>
    refine ⟨w, ⟨?_, out, rest, hw, ?_, ?_⟩, le_rfl, fun addr => .inl ?_⟩
    · refine hv.path.congr fun q hq => ?_
      obtain ⟨x, hx, rfl⟩ := mem_entries.1 hq
      rw [h.next x (hmem x hx).1 (hmem x hx).2.2]
    · rwa [h.list]
    · intro x hx
      exact ⟨h.seers x t (hout x hx).1 hin, fun c hc => (hout x hx).2 c (h.moved x c hc)⟩
    · rw [routes_congr fun x hx => h.route x (hmem x hx).2.1]
  | publish a hl hta ha hn hr hm hs =>
    refine ⟨w, ⟨?_, out, rest, hw, ?_, ?_⟩, le_rfl, fun addr => .inl ?_⟩
    · refine hv.path.congr fun q hq => ?_
      obtain ⟨x, hx, rfl⟩ := mem_entries.1 hq
      rw [hn x]
    · rw [hl]
      exact hrest.trans (List.suffix_cons a _)
    · intro x hx
      rw [hs]
      exact ⟨(hout x hx).1, fun c hc => (hout x hx).2 c (hm x c hc)⟩
    · rw [routes_congr fun x _ => congrFun hr x]
  | delete front back a hl hl' hd hta hn hr hst hs ha hre =>
    have hnd := hi.lists.nodup (h := .routeList) trivial
    have hr' : ∀ w, routes s' w = routes s w := fun w => routes_congr fun x _ => congrFun hr x
    have hout' : ∀ x ∈ out, seers' x t ∧ ∀ c, s'.stage x ≠ .moved c := by
      intro x hx
      rw [hst]
      exact ⟨hs x t (hout x hx).1, (hout x hx).2⟩
    rw [hl] at hrest hnd
    rcases suffix_cases hrest with hrest | ⟨pre, x, hpre, rfl⟩
    · -- the lookup is past the link that changes
      refine ⟨w, ⟨?_, ?_⟩, le_rfl, fun addr => .inl (by rw [hr'])⟩
      · refine hv.path.congr fun q hq => ?_
        obtain ⟨x, hx, rfl⟩ := mem_entries.1 hq
        rw [hn, Function.update_of_ne]
        intro hlast
        have hm : .entry x ∈ Ptr.routeList :: entries front := by
          rw [hlast]
          exact List.getLastD_mem_cons
        have hxf : x ∈ front := by simpa [entry_mem_entries] using hm
        rw [hw, List.mem_append] at hx
        rcases hx with hx | hx
        · refine hi.stage_of_out (hout x hx).1 ?_
          rw [hl]
          exact List.mem_append_left _ hxf
        · exact (List.nodup_append.1 hnd).2.2 x hxf x (hrest.subset hx) rfl
      · rw [hl']
        rcases List.suffix_cons_iff.1 hrest with rfl | hrest
        · refine ⟨out ++ [a], back, by simp [hw], List.suffix_append front back, ?_⟩
          intro x hx
          rcases List.mem_append.1 hx with hx | hx
          · exact hout' x hx
          · rw [List.mem_singleton.1 hx, hst]
            have hsa : s.stage a = .listed := hi.lists.stage .routeList a (by simp [hl])
            rw [hre] at hin
            exact ⟨ha t hin, by simp [hsa]⟩
        · exact ⟨out, rest, hw, hrest.trans (List.suffix_append front back), hout'⟩
    · -- the link that changes is still ahead
      have hlast : (entries front).getLastD .routeList = .entry x := by
        obtain ⟨u, rfl⟩ := hpre
        rw [← List.append_assoc, entries_append (u ++ pre)]
        exact List.getLastD_concat ..
      refine ⟨(out ++ pre ++ [x]) ++ back, ⟨?_, ?_⟩, ?_, fun addr => ?_⟩
      · rw [hn, hlast, Ring.some_update]
        exact hv.skip (by simp [hw])
      · refine ⟨out, pre ++ x :: back, by simp, ?_, hout'⟩
        rw [hl']
        obtain ⟨u, rfl⟩ := hpre
        exact ⟨u, by simp⟩
      · simp [hw]
      · rw [hr', hw]
        have hcase := answer_remove (routes s (out ++ pre ++ [x])) (routes s back) (s.route a) addr
        simp only [routes, ← List.map_append, ← List.map_cons] at hcase ⊢
        rcases hcase with h | ⟨hra, h⟩
        · left
          rw [h]
          simp
        · right
          rw [h, hta, ht, hl]
          have hne : ∀ r ∈ front.map s.route, r.addr ≠ addr := by
            intro r hr
            obtain ⟨y, hy, rfl⟩ := List.mem_map.1 hr
            rw [← hra]
            exact hd y hy
          rw [routes, List.map_append, List.map_cons, ← hra]
          rw [← hra] at hne
          rw [show s.addr a = (s.route a).addr from rfl, del_append_of_ne hne rfl, answer_append_of_ne hne]
  | clear c a hc => exact absurd hc (hno c)

/-- The turns of a thread in `route_lookup`. -/
inductive Turn (s : State) : Reader → Reader → Prop
  | readLock (addr) : Turn s .idle (.locked addr)
  | loadFirst (addr) : Turn s (.locked addr) (.at_ addr (s.next .routeList))
  | differ (addr a) (h : s.addr a ≠ addr) : Turn s (.at_ addr (.entry a)) (.pass addr a)
  | agree (addr a) (h : s.addr a = addr) : Turn s (.at_ addr (.entry a)) (.hit addr a)
  | loadNext (addr a) : Turn s (.pass addr a) (.at_ addr (s.next (.entry a)))
  | loadIface (addr a) : Turn s (.hit addr a) (.check addr a (s.iface a))
  | pass (addr a ret) : Turn s (.check addr a ret) (.unlock addr ret)
  | abort (addr a ret) (h : s.reFreed a = true) : Turn s (.check addr a ret) .aborted
  | noRoute (addr) : Turn s (.at_ addr .routeList) (.unlock addr ulongMax)
  | strayNext (addr c) : Turn s (.at_ addr (.junk c)) (.at_ addr (s.next (.junk c)))
  | strayHit (addr c ret) : Turn s (.at_ addr (.junk c)) (.unlock addr ret)
  | strayAbort (addr c) : Turn s (.at_ addr (.junk c)) .aborted
  | readUnlock (addr ret) : Turn s (.unlock addr ret) (.returned addr ret)
  | return_ (addr ret) : Turn s (.returned addr ret) .idle

theorem turn_setReader {u : Nat} {r : Reader} (h : Turn s (s.reader u) r) (t : Nat) :
    (s.setReader u r).reader t = s.reader t ∨ Turn s (s.reader t) ((s.setReader u r).reader t) := by
  change Function.update s.reader u r t = _ ∨ Turn s _ (Function.update s.reader u r t)
  by_cases ht : t = u
  · rw [ht, Function.update_self]
    exact .inr h
  · exact .inl (Function.update_of_ne ht _ _)

theorem Step.turn (hs : Step s s') (t : Nat) :
    s'.reader t = s.reader t ∨ Turn s (s.reader t) (s'.reader t) ∧ s'.next = s.next ∧ s'.route = s.route := by
  have key : ∀ u r, Turn s (s.reader u) r → (s.setReader u r).reader t = s.reader t ∨
      Turn s (s.reader t) ((s.setReader u r).reader t) ∧ (s.setReader u r).next = s.next ∧
        (s.setReader u r).route = s.route :=
    fun u r h => (turn_setReader h t).imp_right fun h => ⟨h, rfl, rfl⟩
  cases hs with
  | readLock u addr h => exact key u _ (h ▸ .readLock addr)
  | loadFirst u addr h => exact key u _ (h ▸ .loadFirst addr)
  | differ u addr a h hd => exact key u _ (h ▸ .differ addr a hd)
  | agree u addr a h hd => exact key u _ (h ▸ .agree addr a hd)
  | loadNext u addr a h => exact key u _ (h ▸ .loadNext addr a)
  | loadIface u addr a h => exact key u _ (h ▸ .loadIface addr a)
  | checkFreed u addr a ret h =>
    refine key u _ ?_
    rw [h]
    split
    · exact .abort addr a ret ‹_›
    · exact .pass addr a ret
  | noRoute u addr h => exact key u _ (h ▸ .noRoute addr)
  | strayNext u addr c h => exact key u _ (h ▸ .strayNext addr c)
  | strayHit u addr c ret h => exact key u _ (h ▸ .strayHit addr c ret)
  | strayAbort u addr c h => exact key u _ (h ▸ .strayAbort addr c)
  | readUnlock u addr ret h => exact key u _ (h ▸ .readUnlock addr ret)
  | return_ u addr ret h => exact key u _ (h ▸ .return_ addr ret)
  | _ => exact .inl rfl

/-- What is known of a lookup. `seen addr r` says that the table has answered `r` at some moment
since it began. -/
def Ahead (s : State) (l : List Nat) (seers : Nat → Nat → Prop) (t : Nat) (seen : BitVec 64 → BitVec 64 → Prop) :
    Reader → Prop
  | .idle | .locked _ => True
  | .at_ addr p => ∃ w, View s l seers t p w ∧ seen addr (answer (routes s w) addr)
  | .pass addr a => s.addr a ≠ addr ∧ ∃ w, View s l seers t (.entry a) w ∧ seen addr (answer (routes s w) addr)
  | .hit addr a => s.addr a = addr ∧ ∃ w, View s l seers t (.entry a) w ∧ seen addr (answer (routes s w) addr)
  | .check addr a ret => seen addr ret ∧ ∃ w, View s l seers t (.entry a) w
  | .unlock addr ret | .returned addr ret => seen addr ret
  | .aborted => False

/-- Where a lookup that has no result yet stands. -/
def Reader.place? : Reader → Option Ptr
  | .at_ _ p => some p
  | .pass _ a | .hit _ a | .check _ a _ => some (.entry a)
  | _ => none

/-- A lookup that is to come to the end of the list stands at no `junk`. -/
theorem View.ne_junk (hv : View s (ls .routeList) seers t p w) (c : Nat) : p ≠ .junk c := by
  rintro rfl
  have hp := hv.path
  cases w with
  | nil => cases hp
  | cons a w => cases hp.1

theorem View.exists_cons {a : Nat} (hv : View s (ls .routeList) seers t (.entry a) w) :
    ∃ w', w = a :: w' ∧ View s (ls .routeList) seers t (s.next (.entry a)) w' := by
  obtain ⟨hp, out, rest, hw, hrest, hout⟩ := hv
  cases w with
  | nil => cases hp
  | cons b w =>
    obtain ⟨hb, hp⟩ := hp
    cases hb
    refine ⟨w, rfl, hp, ?_⟩
    cases out with
    | nil =>
      refine ⟨[], w, rfl, ?_, by simp⟩
      rw [List.nil_append] at hw
      rw [← hw] at hrest
      exact (List.suffix_cons a w).trans hrest
    | cons x out =>
      cases hw
      exact ⟨out, rest, rfl, hrest, fun y hy => hout y (List.mem_cons_of_mem _ hy)⟩

theorem Ahead.step {seen seen' : BitVec 64 → BitVec 64 → Prop} (hi : Inv s ls seers) (hi' : Inv s' ls' seers')
    (he : Effect s s' (ls .routeList) (ls' .routeList) seers seers') (ht : s.table = routes s (ls .routeList))
    (hno : ∀ c, s.frame c ≠ .moving) (hsub : ∀ addr r, seen addr r → seen' addr r)
    (hnow : ∀ addr, seen' addr (answer s'.table addr)) (hs : Step s s')
    (h : Ahead s (ls .routeList) seers t seen (s.reader t)) :
    Ahead s' (ls' .routeList) seers' t seen' (s'.reader t) := by
  have hview : ∀ addr p, (s'.reader t).Inside →
      (∃ w, View s (ls .routeList) seers t p w ∧ seen addr (answer (routes s w) addr)) →
      ∃ w, View s' (ls' .routeList) seers' t p w ∧ seen' addr (answer (routes s' w) addr) := by
    rintro addr p hin ⟨w, hv, hsn⟩
    obtain ⟨w', hv', -, hans⟩ := hv.step hi he ht hno hin
    refine ⟨w', hv', ?_⟩
    rcases hans addr with h | h
    · rw [h]
      exact hsub _ _ hsn
    · rw [h]
      exact hnow addr
  have haddr : ∀ a w, View s (ls .routeList) seers t (.entry a) w → s'.addr a = s.addr a := by
    intro a w hv
    obtain ⟨w', rfl, -⟩ := hv.exists_cons
    have hst := hv.not_mem hi (x := a) List.mem_cons_self
    have hr : s'.route a = s.route a := by
      cases he with
      | quiet h => exact h.route a hst.2.1
      | publish b hl hta ha hn hr => exact congrFun hr a
      | delete front back b hl hl' hd hta hn hr => exact congrFun hr a
      | clear c b hc => exact absurd hc (hno c)
    exact congrArg Route.addr hr
  rcases hs.turn t with hr | ⟨hr, hn, hroute⟩
  · rw [hr] at hview ⊢
    cases hre : s.reader t with
    | at_ addr p =>
      rw [hre] at h hview
      exact hview addr p trivial h
    | pass addr a =>
      rw [hre] at h hview
      obtain ⟨hne, w, hv, hsn⟩ := h
      refine ⟨?_, hview addr _ trivial ⟨w, hv, hsn⟩⟩
      rwa [haddr a w hv]
    | hit addr a =>
      rw [hre] at h hview
      obtain ⟨heq, w, hv, hsn⟩ := h
      refine ⟨?_, hview addr _ trivial ⟨w, hv, hsn⟩⟩
      rwa [haddr a w hv]
    | check addr a ret =>
      rw [hre] at h
      obtain ⟨hsn, w, hv⟩ := h
      obtain ⟨w', hv', -⟩ := hv.step hi he ht hno (by rw [hr, hre]; trivial)
      exact ⟨hsub _ _ hsn, w', hv'⟩
    | unlock addr ret =>
      rw [hre] at h
      exact hsub _ _ h
    | returned addr ret =>
      rw [hre] at h
      exact hsub _ _ h
    | idle => exact trivial
    | locked addr => exact trivial
    | aborted =>
      rw [hre] at h
      exact h
  · have haddr' : ∀ a, s'.addr a = s.addr a := fun a => congrArg Route.addr (congrFun hroute a)
    have hsound : ∀ addr a ret, s.reader t = .check addr a ret → s.reFreed a = false := by
      intro addr a ret hre
      exact (hi.alive (hi.reader t a (by rw [hre]; rfl))).2.2
    generalize s.reader t = r at hr h hsound
    generalize s'.reader t = r' at hr hview
    cases hr with
    | readLock addr => exact trivial
    | loadFirst addr =>
      refine ⟨ls' .routeList, ⟨?_, [], _, rfl, List.suffix_rfl, by simp⟩, ?_⟩
      · rw [← hn]
        exact (hi'.lists.next .routeList trivial).tail
      · rw [← he.table_eq hi ht]
        exact hnow addr
    | differ addr a hd =>
      refine ⟨?_, hview addr _ trivial h⟩
      rwa [haddr']
    | agree addr a hd =>
      refine ⟨?_, hview addr _ trivial h⟩
      rwa [haddr']
    | loadNext addr a =>
      obtain ⟨hne, hw⟩ := h
      obtain ⟨w, hv, hsn⟩ := hview addr _ trivial hw
      obtain ⟨w', rfl, hv'⟩ := hv.exists_cons
      rw [hn] at hv'
      refine ⟨w', hv', ?_⟩
      rw [← haddr' a] at hne
      rwa [routes, List.map_cons, answer_cons_of_ne hne] at hsn
    | loadIface addr a =>
      obtain ⟨heq, hw⟩ := h
      obtain ⟨w₁, hv₁, -⟩ := hview addr _ trivial hw
      obtain ⟨w, hv, hsn⟩ := hw
      obtain ⟨w', rfl, -⟩ := hv.exists_cons
      rw [routes, List.map_cons, answer_cons_of_eq heq] at hsn
      exact ⟨hsub _ _ hsn, w₁, hv₁⟩
    | pass addr a ret => exact hsub _ _ h.1
    | abort addr a ret hf => exact absurd (hsound addr a ret rfl) (by simp [hf])
    | noRoute addr =>
      obtain ⟨w, hv, hsn⟩ := h
      have hp := hv.path
      cases w with
      | nil => exact hsub _ _ hsn
      | cons a w => cases hp.1
    | strayNext addr c | strayHit addr c ret | strayAbort addr c =>
      obtain ⟨w, hv, -⟩ := h
      exact absurd rfl (hv.ne_junk c)
    | readUnlock addr ret => exact hsub _ _ h
    | return_ addr ret => exact trivial

theorem inv_table_of_reachable (h : Reachable Init Step s) :
    ∃ ls seers, Inv s ls seers ∧ s.table = routes s (ls .routeList) := by
  apply h.invariant
  · exact fun s hs => ⟨_, _, .of_init hs, hs.table⟩
  · rintro s s' - ⟨ls, seers, hi, ht⟩ hs
    obtain ⟨ls', seers', hi', he⟩ := hi.step hs
    exact ⟨ls', seers', hi', he.table_eq hi ht⟩

/-- The list holds the routes of the table in order, in every reachable state. -/
theorem table_eq_routes (h : Reachable Init Step s) :
    ∃ l, Ring s.next .routeList (entries l) ∧ s.table = routes s l := by
  obtain ⟨ls, seers, hi, ht⟩ := inv_table_of_reachable h
  exact ⟨_, hi.lists.next .routeList trivial, ht⟩

theorem table_eq_routes_added : ∃ (s : State) (l : List Nat), s.table = [⟨5, 7⟩] ∧ Ring s.next .routeList (entries l) ∧
    s.table = routes s l := by
  have h₀ : Reachable Init Step unused := .of_init init_unused
  have h₁ := (h₀.tail (.malloc _ 0 5 7 rfl)).tail (.addLock _ 0 rfl rfl)
  have h₂ := (h₁.tail (.addNext _ 0 .update rfl)).tail (.addPrev _ 0 .update rfl)
  have h₃ := (h₂.tail (.addBack _ 0 .update rfl)).tail (.publish _ 0 rfl)
  obtain ⟨l, hl⟩ := table_eq_routes h₃
  exact ⟨_, l, rfl, hl⟩

theorem ahead_of_run {u : State} {visited : List State} (h : Reachable Init Step s) (hidle : s.reader t = .idle)
    (hr : Run Step s visited u) (hno : ∀ v ∈ visited, ∀ c, v.frame c ≠ .moving) :
    ∃ ls seers, Inv u ls seers ∧ u.table = routes u (ls .routeList) ∧
      Ahead u (ls .routeList) seers t (fun addr r => ∃ v ∈ visited, answer v.table addr = r) (u.reader t) := by
  induction hr with
  | start =>
    obtain ⟨ls, seers, hi, ht⟩ := inv_table_of_reachable h
    refine ⟨ls, seers, hi, ht, ?_⟩
    rw [hidle]
    exact trivial
  | tail hr hs ih =>
    obtain ⟨ls, seers, hi, ht, ha⟩ := ih fun v hv => hno v (List.mem_append_left _ hv)
    obtain ⟨ls', seers', hi', he⟩ := hi.step hs
    refine ⟨ls', seers', hi', he.table_eq hi ht, ?_⟩
    refine ha.step hi hi' he ht (hno _ (List.mem_append_left _ hr.end_mem)) ?_ ?_ hs
    · rintro addr r ⟨v, hv, hvr⟩
      exact ⟨v, List.mem_append_left _ hv, hvr⟩
    · exact fun addr => ⟨_, by simp, rfl⟩

theorem Ahead.path {r : Reader} {seen : BitVec 64 → BitVec 64 → Prop} (h : Ahead s (ls .routeList) seers t seen r)
    (hp : r.place? = some p) : ∃ w, Segment (fun q => some (s.next q)) (some p) (entries w) (some .routeList) := by
  cases r with
  | at_ addr q =>
    cases hp
    obtain ⟨w, hv, -⟩ := h
    exact ⟨w, hv.path⟩
  | pass addr a =>
    cases hp
    obtain ⟨-, w, hv, -⟩ := h
    exact ⟨w, hv.path⟩
  | hit addr a =>
    cases hp
    obtain ⟨-, w, hv, -⟩ := h
    exact ⟨w, hv.path⟩
  | check addr a ret =>
    cases hp
    obtain ⟨-, w, hv⟩ := h
    exact ⟨w, hv.path⟩
  | _ => cases hp

/-- While no `route_clear` is in its critical section, a lookup stays where the links lead back to
`route_list`, does not abort, and returns what the table says at some moment between its start
and its end. -/
theorem lookup_linearizable {u : State} {visited : List State} (h : Reachable Init Step s) (hidle : s.reader t = .idle)
    (hr : Run Step s visited u) (hno : ∀ v ∈ visited, ∀ c, v.frame c ≠ .moving) :
    (∀ p, (u.reader t).place? = some p →
      ∃ w, Segment (fun q => some (u.next q)) (some p) (entries w) (some .routeList)) ∧
      u.reader t ≠ .aborted ∧
      ∀ addr ret, u.reader t = .returned addr ret → ∃ v ∈ visited, answer v.table addr = ret := by
  obtain ⟨ls, seers, -, -, ha⟩ := ahead_of_run h hidle hr hno
  refine ⟨fun p hp => ha.path hp, fun hre => ?_, fun addr ret hre => ?_⟩
  · rw [hre] at ha
    exact ha
  · rw [hre] at ha
    exact ha

/-- The route is deleted while the lookup stands at its entry. -/
theorem lookup_linearizable_deleted : ∃ (u : State) (visited : List State), Run Step unused visited u ∧ u.table = [] ∧
    u.reader 1 = .returned 5 7 ∧ ∃ v ∈ visited, answer v.table 5 = 7 := by
  have r₀ : Run Step unused [unused] unused := .start
  have r₁ := (r₀.tail (.malloc _ 0 5 7 rfl)).tail (.addLock _ 0 rfl rfl)
  have r₂ := (r₁.tail (.addNext _ 0 .update rfl)).tail (.addPrev _ 0 .update rfl)
  have r₃ := (r₂.tail (.addBack _ 0 .update rfl)).tail (.publish _ 0 rfl)
  have r₄ := ((r₃.tail (.unlock _ rfl)).tail (.readLock _ 1 5 rfl)).tail (.loadFirst _ 1 5 rfl)
  have r₅ := (r₄.tail (.delLock _ 5 rfl)).tail (.scanFound _ 5 0 rfl rfl)
  have r₆ := (r₅.tail (.delBack _ 0 .update rfl)).tail (.delNext _ 0 rfl)
  have r₇ := (r₆.tail (.agree _ 1 5 0 rfl rfl)).tail (.loadIface _ 1 5 0 rfl)
  have r₈ := (r₇.tail (.checkFreed _ 1 5 0 7 rfl)).tail (.readUnlock _ 1 5 7 rfl)
  refine ⟨_, _, r₈, rfl, rfl, (lookup_linearizable (t := 1) (.of_init init_unused) rfl r₈ ?_).2.2 5 7 rfl⟩
  simp [State.setReader, State.setLock, State.setNext, State.setPrev, State.setStage, State.unlock, unused]

/-- A `route_clear` puts the entry at which a lookup stands on its `junk`, and what lies behind
`junk` looks like an entry that has been freed. -/
theorem exists_aborted : ∃ s : State, Reachable Init Step s ∧ s.reader 1 = .aborted := by
  have h₀ : Reachable Init Step unused := .of_init init_unused
  have h₁ := (h₀.tail (.malloc _ 0 5 7 rfl)).tail (.addLock _ 0 rfl rfl)
  have h₂ := (h₁.tail (.addNext _ 0 .update rfl)).tail (.addPrev _ 0 .update rfl)
  have h₃ := ((h₂.tail (.addBack _ 0 .update rfl)).tail (.publish _ 0 rfl)).tail (.unlock _ rfl)
  have h₄ := (h₃.tail (.readLock _ 1 6 rfl)).tail (.loadFirst _ 1 6 rfl)
  have h₅ := (h₄.tail (.initJunk _ 2 rfl)).tail (.clearLock _ 2 rfl rfl)
  have h₆ := (h₅.tail (.clearMove _ 2 0 .routeList rfl)).tail (.delBack _ 0 (.clear 2 .routeList) rfl)
  have h₇ := (h₆.tail (.delNextClear _ 0 2 .routeList rfl)).tail (.addNext _ 0 (.clear 2 .routeList) rfl)
  have h₈ := (h₇.tail (.differ _ 1 6 0 rfl (by decide))).tail (.loadNext _ 1 6 0 rfl)
  exact ⟨_, h₈.tail (.strayAbort _ 1 6 2 rfl), rfl⟩

/-- How many turns a lookup has left until it knows its result. -/
def Left (s : State) (l : List Nat) (seers : Nat → Nat → Prop) (t m : Nat) : Reader → Prop
  | .at_ _ p => ∃ w, View s l seers t p w ∧ 2 * w.length + 1 ≤ m
  | .pass _ a => ∃ w, View s l seers t (.entry a) w ∧ 2 * w.length ≤ m
  | .hit _ _ => 2 ≤ m
  | .check _ _ _ => 1 ≤ m
  | _ => True

def Reader.Searching : Reader → Prop
  | .at_ _ _ | .pass _ _ | .hit _ _ | .check _ _ _ => True
  | _ => False

theorem Left.keep {m : Nat} (hi : Inv s ls seers) (he : Effect s s' (ls .routeList) (ls' .routeList) seers seers')
    (ht : s.table = routes s (ls .routeList)) (hno : ∀ c, s.frame c ≠ .moving) {r : Reader} (hin : (s'.reader t).Inside)
    (h : Left s (ls .routeList) seers t m r) : Left s' (ls' .routeList) seers' t m r := by
  cases r with
  | at_ addr p =>
    obtain ⟨w, hv, hm⟩ := h
    obtain ⟨w', hv', hle, -⟩ := hv.step hi he ht hno hin
    exact ⟨w', hv', by omega⟩
  | pass addr a =>
    obtain ⟨w, hv, hm⟩ := h
    obtain ⟨w', hv', hle, -⟩ := hv.step hi he ht hno hin
    exact ⟨w', hv', by omega⟩
  | _ => exact h

theorem Left.turn {m : Nat} {r r' : Reader} (ht : Turn s r r') (hn : s'.next = s.next) (hs : r.Searching)
    (h : Left s' (ls .routeList) seers t m r) : ∃ k, k < m ∧ Left s' (ls .routeList) seers t k r' := by
  cases ht with
  | differ addr a hd =>
    obtain ⟨w, hv, hm⟩ := h
    exact ⟨2 * w.length, by omega, w, hv, le_rfl⟩
  | agree addr a hd =>
    obtain ⟨w, hv, hm⟩ := h
    obtain ⟨w', rfl, -⟩ := hv.exists_cons
    rw [List.length_cons] at hm
    exact ⟨2, by omega, le_rfl⟩
  | loadNext addr a =>
    obtain ⟨w, hv, hm⟩ := h
    obtain ⟨w', rfl, hv'⟩ := hv.exists_cons
    rw [List.length_cons] at hm
    rw [hn] at hv'
    exact ⟨2 * w'.length + 1, by omega, w', hv', le_rfl⟩
  | loadIface addr a => exact ⟨1, h, le_rfl⟩
  | pass addr a ret => exact ⟨0, h, trivial⟩
  | abort addr a ret hf => exact ⟨0, h, trivial⟩
  | noRoute addr =>
    obtain ⟨w, hv, hm⟩ := h
    exact ⟨0, by omega, trivial⟩
  | strayNext addr c | strayHit addr c ret | strayAbort addr c =>
    obtain ⟨w, hv, hm⟩ := h
    exact absurd rfl (hv.ne_junk c)
  | _ => exact hs.elim

theorem Reader.Searching.inside {r : Reader} (h : r.Searching) : r.Inside := by
  cases r with
  | at_ _ _ | pass _ _ | hit _ _ | check _ _ _ => exact trivial
  | _ => exact h.elim

theorem Left.pos {m : Nat} {r : Reader} (hr : r.Searching) (h : Left s (ls .routeList) seers t m r) : 0 < m := by
  cases r with
  | at_ addr p =>
    obtain ⟨w, -, hm⟩ := h
    omega
  | pass addr a =>
    obtain ⟨w, hv, hm⟩ := h
    obtain ⟨w', rfl, -⟩ := hv.exists_cons
    rw [List.length_cons] at hm
    omega
  | hit addr a => exact Nat.lt_of_lt_of_le (by omega) h
  | check addr a ret => exact h
  | _ => exact hr.elim

/-- The step is a turn of the thread. -/
def Turns (t : Nat) (s s' : State) : Prop := s'.reader t ≠ s.reader t

def Bound (t : Nat) (s : State) (m : Nat) : Prop :=
  ∃ ls seers, Inv s ls seers ∧ s.table = routes s (ls .routeList) ∧ Left s (ls .routeList) seers t m (s.reader t)

theorem Bound.own (hno : ∀ c, s.frame c ≠ .moving) (hr : (s.reader t).Searching) (hr' : (s'.reader t).Searching)
    {m : Nat}
    (hb : Bound t s m) (hs : Step s s') (ho : s'.reader t ≠ s.reader t) : ∃ k, k < m ∧ Bound t s' k := by
  obtain ⟨ls, seers, hi, ht, hl⟩ := hb
  obtain ⟨ls', seers', hi', he⟩ := hi.step hs
  rcases hs.turn t with hre | ⟨hturn, hn, -⟩
  · exact absurd hre ho
  · obtain ⟨k, hk, hl'⟩ := (hl.keep hi he ht hno hr'.inside).turn hturn hn hr
    exact ⟨k, hk, ls', seers', hi', he.table_eq hi ht, hl'⟩

theorem Bound.other (hno : ∀ c, s.frame c ≠ .moving) (hr' : (s'.reader t).Searching) {m : Nat} (hb : Bound t s m)
    (hs : Step s s') (ho : s'.reader t = s.reader t) : Bound t s' m := by
  obtain ⟨ls, seers, hi, ht, hl⟩ := hb
  obtain ⟨ls', seers', hi', he⟩ := hi.step hs
  refine ⟨ls', seers', hi', he.table_eq hi ht, ?_⟩
  rw [ho]
  exact hl.keep hi he ht hno hr'.inside

/-- While no `route_clear` is in its critical section, a lookup that has just loaded the head of
the list searches on for at most two turns for each route of the table, whatever the others do. -/
theorem lookup_wait_free {u : State} {visited : List State} {n : Nat} {addr : BitVec 64} (h : Reachable Init Step s)
    (hload : s.reader t = .at_ addr (s.next .routeList))
    (hr : PacedRun Step (Turns t) s visited n u)
    (hno : ∀ v ∈ visited, ∀ c, v.frame c ≠ .moving) (hs : ∀ v ∈ visited, (v.reader t).Searching) :
    n ≤ 2 * s.table.length := by
  obtain ⟨ls, seers, hi, ht⟩ := inv_table_of_reachable h
  have hfirst : Left s (ls .routeList) seers t (2 * s.table.length + 1) (s.reader t) := by
    rw [hload]
    refine ⟨ls .routeList, ⟨(hi.lists.next .routeList trivial).tail, [], _, rfl, List.suffix_rfl, by simp⟩, ?_⟩
    simp [ht, routes]
  have hok : ∀ v ∈ visited, (∀ c, v.frame c ≠ .moving) ∧ (v.reader t).Searching := fun v hv => ⟨hno v hv, hs v hv⟩
  obtain ⟨k, hk, ls', seers', -, -, hl⟩ := hr.le_of_bound (Bound t) hok ⟨ls, seers, hi, ht, hfirst⟩
    (fun v v' m hv hv' hb hst ho => hb.own hv.1 hv.2 hv'.2 hst ho)
    (fun v v' m hv hv' hb hst ho => hb.other hv.1 hv'.2 hst (not_not.1 ho))
  have hpos := hl.pos (hs u hr.end_mem)
  omega

theorem lookup_wait_free_one : ∃ (s u : State) (visited : List State) (n : Nat),
    PacedRun Step (Turns 1) s visited n u ∧ s.table = [⟨5, 7⟩] ∧ n ≤ 2 * s.table.length := by
  have h₀ : Reachable Init Step unused := .of_init init_unused
  have h₁ := (h₀.tail (.malloc _ 0 5 7 rfl)).tail (.addLock _ 0 rfl rfl)
  have h₂ := (h₁.tail (.addNext _ 0 .update rfl)).tail (.addPrev _ 0 .update rfl)
  have h₃ := (h₂.tail (.addBack _ 0 .update rfl)).tail (.publish _ 0 rfl)
  have h := (h₃.tail (.readLock _ 1 5 rfl)).tail (.loadFirst _ 1 5 rfl)
  have start : ∀ {s : State}, Reachable Init Step s → PacedRun Step (Turns 1) s [s] 0 s := fun _ => .start
  have r₁ := (start h).own (.agree _ 1 5 0 rfl rfl) (by simp [Turns, State.setReader])
  have r₂ := r₁.own (.loadIface _ 1 5 0 rfl) (by simp [Turns, State.setReader])
  refine ⟨_, _, _, _, r₂, rfl, lookup_wait_free h rfl r₂ ?_ ?_⟩
  · simp [State.setReader, State.setLock, State.setNext, State.setPrev, State.setStage, unused]
  · simp [State.setReader, Reader.Searching]

end Wizard.RouteRcu
