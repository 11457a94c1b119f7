import Wizard.RouteRcuStores

/-! No call of `route_rcu.c` uses an entry that has been freed. Whom an entry is visible to is
what a grace period is about: a lookup goes on along the links of entries that were taken out
while it was inside its critical section. -/

namespace Wizard.RouteRcu

/-- The memory that the section accesses in its next step. -/
def Section.Uses (s : State) (p : Ptr) : Section → Prop
  | .scan _ rep => p = rep
  | .delBack a _ => p = .entry a ∨ p = s.next (.entry a)
  | .delNext a _ => p = .entry a ∨ p = s.prev (.entry a)
  | .addNext a k => p = .entry a ∨ p = k.head
  | .addPrev a _ => p = .entry a
  | .addBack _ k => p = k.head ∨ p = s.next k.head
  | .publish _ .update => p = .routeList
  | .publish _ (.clear c rep) => p = .junk c ∨ p = rep
  | .clear _ rep _ => p = rep
  | .unlock _ => False

/-- The memory that a `route_clear` accesses in its next step outside `routelock`. -/
def Frame.Uses (p : Ptr) : Frame → Prop
  | .freeing rep _ => p = rep
  | .flagged a rep1 => p = .entry a ∨ p = rep1
  | _ => False

/-- Every lookup that begins now can come to the entry. -/
def Base (s : State) (ls : Ptr → List Nat) (a : Nat) : Prop :=
  a ∈ ls .routeList ∨ ∃ c, s.stage a = .moved c ∧ (s.frame c = .moving ∨ s.frame c = .unlocked)

/-- A grace period for an entry that is no longer on the list is yet to begin, or waits for
the thread. -/
def Waits (s : State) (a t : Nat) : Prop :=
  match s.stage a with
  | .listed => s.lock = some (.unlock (some a))
  | .deleted => True
  | .queued => s.awaits (.entry a) t
  | .moved c => s.frame c ≠ .moving ∧ s.frame c ≠ .unlocked ∧ s.awaits (.junk c) t
  | _ => False

/-- The `route_clear` has not returned, and will wait for the thread. -/
def State.Alive (s : State) (c t : Nat) : Prop :=
  s.frame c = .moving ∨ s.frame c = .unlocked ∨ s.frame c = .syncing ∧ s.awaits (.junk c) t

/-- `seers a` are the lookups that were inside when `a` was taken out, and are still. -/
structure Inv (s : State) (ls : Ptr → List Nat) (seers : Nat → Nat → Prop) : Prop where
  lists : Lists s ls
  moved : ∀ a c b, s.stage a = .moved c → (s.frame c = .moving ∨ s.frame c = .unlocked) →
    s.next (.entry a) = .entry b → b ∈ ls .routeList ∨ s.stage b = .moved c
  closed : ∀ a t b, seers a t → s.next (.entry a) = .entry b → Base s ls b ∨ seers b t
  seen : ∀ a t, seers a t → (s.reader t).Inside ∧ Waits s a t
  flag : ∀ a, s.reFreed a = true → s.stage a = .free ∨ s.stage a = .freeing ∨ ∃ c rep1, s.frame c = .flagged a rep1
  done : ∀ c, (∃ rep rep1, s.frame c = .freeing rep rep1) ∨ (∃ a rep1, s.frame c = .flagged a rep1) →
    ∀ t, ¬ s.awaits (.junk c) t
  reader : ∀ t a, (s.reader t).uses? = some a → Base s ls a ∨ seers a t
  link : ∀ a c, s.next (.entry a) = .junk c → s.stage a = .moved c ∨ s.stage a = .free ∨ s.stage a = .adding
  awaited : ∀ a c t, s.stage a = .moved c → s.frame c = .syncing → s.awaits (.junk c) t → seers a t
  astray : ∀ t c, (s.reader t).junk? = some c → s.Alive c t

variable {s s' : State} {ls ls' : Ptr → List Nat} {seers : Nat → Nat → Prop} {a b c t : Nat}

theorem Lists.base_next (hi : Lists s ls) (ha : a ∈ ls .routeList) (hb : s.next (.entry a) = .entry b) :
    b ∈ ls .routeList := by
  rcases (hi.next .routeList trivial).link_of_mem (entry_mem_entries.2 ha) with h | h
  · rw [hb] at h
    cases h
  · rw [hb] at h
    exact entry_mem_entries.1 h

theorem Lists.next_head (hi : Lists s ls) {h : Ptr} (hh : s.Has h) (hb : s.next h = .entry b) : b ∈ ls h := by
  have hf := (hi.next h hh).first
  rw [hb] at hf
  cases hl : ls h with
  | nil =>
    rw [hl] at hf
    exact absurd hf.symm hh.ne_entry
  | cons a l =>
    rw [hl] at hf
    cases hf
    exact List.mem_cons_self

/-- Only a list of a `route_clear` leads back to its `junk`. -/
theorem Lists.junk_eq (hi : Lists s ls) {h p : Ptr} (hh : s.Has h) (hp : p ∈ h :: entries (ls h))
    (hn : s.next p = .junk c) : h = .junk c := by
  have hring := hi.next h hh
  rcases List.mem_cons.1 hp with rfl | hp
  · rw [hring.first] at hn
    cases hl : ls p with
    | nil => simpa [hl] using hn
    | cons a l => simp [hl] at hn
  · rcases hring.link_of_mem hp with h' | h'
    · exact h'.symm.trans hn
    · obtain ⟨a, -, ha⟩ := mem_entries.1 h'
      cases ha.trans hn

theorem Waits.mono (hw : Waits s a t) (hst : s'.stage a = s.stage a)
    (hl : s.lock = some (.unlock (some a)) → s'.lock = some (.unlock (some a)))
    (ha : ∀ p, (p = .entry a ∨ ∃ c, p = .junk c) → s.awaits p t → s'.awaits p t)
    (hf : ∀ c, s.stage a = .moved c → s.frame c ≠ .moving ∧ s.frame c ≠ .unlocked →
      s'.frame c ≠ .moving ∧ s'.frame c ≠ .unlocked) : Waits s' a t := by
  simp only [Waits, hst] at hw ⊢
  cases h : s.stage a with
  | listed =>
    simp only [h] at hw
    exact hl hw
  | deleted => exact trivial
  | queued =>
    simp only [h] at hw
    exact ha _ (.inl rfl) hw
  | moved c =>
    simp only [h] at hw
    obtain ⟨h1, h2⟩ := hf c h ⟨hw.1, hw.2.1⟩
    exact ⟨h1, h2, ha _ (.inr ⟨c, rfl⟩) hw.2.2⟩
  | _ => simp only [h] at hw

/-- The entries on the list of a `route_clear` lead to one another. -/
theorem Lists.moved_next (hi : Lists s ls) (ha : s.stage a = .moved c)
    (hc : s.frame c = .moving ∨ s.frame c = .unlocked)
    (hno : ∀ sec, s.lock = some sec → ¬ sec.Carries c a) (hb : s.next (.entry a) = .entry b) :
    s.stage b = .moved c := by
  have hh : s.Has (.junk c) := by
    rcases hc with h | h <;> simp [State.Has, h]
  rcases hi.moved a c ha with hm | ⟨sec, hl, hcar⟩ | ⟨rep1, hf⟩
  · rcases (hi.next _ hh).link_of_mem (entry_mem_entries.2 hm) with h | h
    · rw [hb] at h
      cases h
    · rw [hb] at h
      exact hi.stage _ b (entry_mem_entries.1 h)
  · exact absurd hcar (hno sec hl)
  · rcases hc with h | h <;> cases h.symm.trans hf

theorem Lists.not_moved (hi : Lists s ls) (hc : s.frame c = .absent ∨ s.frame c = .ready) : s.stage a ≠ .moved c := by
  intro ha
  have hok := hi.frame c
  have hm : a ∈ ls (.junk c) := by
    refine hi.mem_junk ?_ ?_ ha
    · rcases hc with h | h <;> simp [h]
    · rcases hc with h | h <;> simp [h]
  have hls : ls (.junk c) = [] := by
    rcases hc with h | h
    · rw [h] at hok
      exact hok
    · rw [h] at hok
      exact hok
  simp [hls] at hm

/-- The memory of an entry that a lookup can come to is as `route_add` has made it. -/
theorem Inv.alive (hi : Inv s ls seers) (hv : Base s ls a ∨ seers a t) :
    s.stage a ≠ .free ∧ s.stage a ≠ .adding ∧ s.reFreed a = false := by
  have key : s.stage a ≠ .free ∧ s.stage a ≠ .adding ∧ s.stage a ≠ .freeing ∧
      ∀ c rep1, s.frame c ≠ .flagged a rep1 := by
    have hflag : ∀ c rep1, s.frame c = .flagged a rep1 → s.stage a = .moved c := by
      intro c rep1 hf
      have hok := hi.lists.frame c
      rw [hf] at hok
      exact hok.1
    rcases hv with (hm | ⟨c, hc, hf⟩) | hs
    · have hst : s.stage a = .listed := hi.lists.stage _ a hm
      refine ⟨by simp [hst], by simp [hst], by simp [hst], fun c rep1 hf => ?_⟩
      cases hst.symm.trans (hflag c rep1 hf)
    · refine ⟨by simp [hc], by simp [hc], by simp [hc], fun d rep1 hfl => ?_⟩
      cases hc.symm.trans (hflag d rep1 hfl)
      rcases hf with h | h <;> cases h.symm.trans hfl
    · have hw := (hi.seen a t hs).2
      refine ⟨?_, ?_, ?_, fun c rep1 hfl => ?_⟩
      · intro h
        simp [Waits, h] at hw
      · intro h
        simp [Waits, h] at hw
      · intro h
        simp [Waits, h] at hw
      · simp only [Waits, hflag c rep1 hfl] at hw
        exact hi.done c (.inr ⟨a, rep1, hfl⟩) t hw.2.2
  refine ⟨key.1, key.2.1, ?_⟩
  cases hr : s.reFreed a with
  | false => rfl
  | true =>
    rcases hi.flag a hr with h | h | ⟨c, rep1, h⟩
    · exact absurd h key.1
    · exact absurd h key.2.2.1
    · exact absurd h (key.2.2.2 c rep1)

/-- The route of an entry. -/
def State.route (s : State) (a : Nat) : RouteTable.Route := ⟨s.addr a, s.iface a⟩

/-- The step changes nothing that a lookup that can come to no `junk` depends on. -/
structure Quiet (s s' : State) (l l' : List Nat) (seers seers' : Nat → Nat → Prop) : Prop where
  list : l' = l
  table : s'.table = s.table
  head : s'.next .routeList = s.next .routeList
  next : ∀ x, s.stage x ≠ .adding → (∀ c, s.stage x ≠ .moved c) → s'.next (.entry x) = s.next (.entry x)
  route : ∀ x, s.stage x ≠ .free → s'.route x = s.route x
  moved : ∀ x c, s'.stage x = .moved c → s.stage x = .moved c
  seers : ∀ x u, seers x u → (s'.reader u).Inside → seers' x u

/-- What a step does to the list, `l` before it and `l'` after it. -/
inductive Effect (s s' : State) (l l' : List Nat) (seers seers' : Nat → Nat → Prop) : Prop
  | quiet (h : Quiet s s' l l' seers seers')
  | publish (a : Nat) (hl : l' = a :: l) (ht : s'.table = s.route a :: s.table) (ha : s.stage a = .adding)
      (hn : ∀ x, s'.next (.entry x) = s.next (.entry x)) (hr : s'.route = s.route)
      (hm : ∀ x c, s'.stage x = .moved c → s.stage x = .moved c) (hs : seers' = seers)
  | delete (front back : List Nat) (a : Nat) (hl : l = front ++ a :: back) (hl' : l' = front ++ back)
      (hd : ∀ x ∈ front, s.addr x ≠ s.addr a) (ht : s'.table = RouteTable.del s.table (s.addr a))
      (hn : s'.next = Function.update s.next ((entries front).getLastD .routeList) (s.next (.entry a)))
      (hr : s'.route = s.route) (hst : s'.stage = s.stage) (hs : ∀ x u, seers x u → seers' x u)
      (ha : ∀ u, (s.reader u).Inside → seers' a u) (hre : s'.reader = s.reader)
  | clear (c a : Nat) (hc : s.frame c = .moving) (hl : l = a :: l') (ht : s'.table = s.table.tail)
      (hr : s'.route = s.route)

theorem Effect.same {l l' : List Nat} {seers' : Nat → Nat → Prop} (hl : l' = l) (ht : s'.table = s.table)
    (hn : s'.next = s.next) (hr : s'.route = s.route) (hm : ∀ x c, s'.stage x = .moved c → s.stage x = .moved c)
    (hs : ∀ x u, seers x u → (s'.reader u).Inside → seers' x u) : Effect s s' l l' seers seers' :=
  .quiet ⟨hl, ht, congrFun hn _, fun _ _ _ => congrFun hn _, fun x _ => congrFun hr x, hm, hs⟩

section Steps

variable (hi : Inv s ls seers)
include hi

theorem Inv.setReader {r : Reader} (hin : (s.reader t).Inside → r.Inside)
    (hu : ∀ a, r.uses? = some a → Base s ls a ∨ seers a t) (hj : ∀ c, r.junk? = some c → s.Alive c t) :
    Inv (s.setReader t r) ls seers := by
  refine ⟨hi.lists.setReader t r, hi.moved, hi.closed, ?_, hi.flag, hi.done, ?_, hi.link, hi.awaited, ?_⟩
  · intro a u hs
    refine ⟨?_, (hi.seen a u hs).2⟩
    change (Function.update s.reader t r u).Inside
    by_cases hut : u = t
    · rw [hut, Function.update_self]
      rw [hut] at hs
      exact hin (hi.seen a t hs).1
    · rw [Function.update_of_ne hut]
      exact (hi.seen a u hs).1
  · intro u a hua
    change (Function.update s.reader t r u).uses? = some a at hua
    by_cases hut : u = t
    · rw [hut, Function.update_self] at hua
      rw [hut]
      exact hu a hua
    · rw [Function.update_of_ne hut] at hua
      exact hi.reader u a hua
  · intro u c huc
    change (Function.update s.reader t r u).junk? = some c at huc
    by_cases hut : u = t
    · rw [hut, Function.update_self] at huc
      rw [hut]
      exact hj c huc
    · rw [Function.update_of_ne hut] at huc
      exact hi.astray u c huc

theorem Inv.readUnlock {addr ret : BitVec 64} :
    Inv ({ s with awaits := fun p u => u ≠ t ∧ s.awaits p u }.setReader t (.returned addr ret)) ls
      (fun a u => u ≠ t ∧ seers a u) := by
  refine ⟨hi.lists.readUnlock t _, hi.moved, ?_, ?_, hi.flag, ?_, ?_, hi.link, ?_, ?_⟩
  · rintro a u b ⟨hu, hs⟩ hb
    rcases hi.closed a u b hs hb with h | h
    · exact .inl h
    · exact .inr ⟨hu, h⟩
  · rintro a u ⟨hu, hs⟩
    obtain ⟨hin, hw⟩ := hi.seen a u hs
    refine ⟨?_, ?_⟩
    · change (Function.update s.reader t _ u).Inside
      rwa [Function.update_of_ne hu]
    · exact hw.mono rfl (fun h => h) (fun p _ hp => ⟨hu, hp⟩) fun _ _ h => h
  · intro c hc u hu
    exact hi.done c hc u hu.2
  · intro u a hua
    change (Function.update s.reader t _ u).uses? = some a at hua
    by_cases hut : u = t
    · rw [hut, Function.update_self] at hua
      cases hua
    · rw [Function.update_of_ne hut] at hua
      rcases hi.reader u a hua with h | h
      · exact .inl h
      · exact .inr ⟨hut, h⟩
  · intro a c u ha hc hu
    exact ⟨hu.1, hi.awaited a c u ha hc hu.2⟩
  · intro u c huc
    change (Function.update s.reader t _ u).junk? = some c at huc
    by_cases hut : u = t
    · rw [hut, Function.update_self] at huc
      cases huc
    · rw [Function.update_of_ne hut] at huc
      exact (hi.astray u c huc).imp_right fun h => h.imp_right fun h => ⟨h.1, hut, h.2⟩

/-- The other calls: what a lookup could come to, it can come to still. -/
theorem Inv.keep (hl : Lists s' ls') (hr : s'.reader = s.reader)
    (hn : ∀ a t, seers a t → s'.next (.entry a) = s.next (.entry a)) (hbase : ∀ a, Base s ls a → Base s' ls' a)
    (hmoved : ∀ a c b, s'.stage a = .moved c → (s'.frame c = .moving ∨ s'.frame c = .unlocked) →
      s'.next (.entry a) = .entry b → b ∈ ls' .routeList ∨ s'.stage b = .moved c)
    (hw : ∀ a t, seers a t → Waits s a t → Waits s' a t)
    (hflag : ∀ a, s'.reFreed a = true → s'.stage a = .free ∨ s'.stage a = .freeing ∨
      ∃ c rep1, s'.frame c = .flagged a rep1)
    (hdone : ∀ c, (∃ rep rep1, s'.frame c = .freeing rep rep1) ∨ (∃ a rep1, s'.frame c = .flagged a rep1) →
      ∀ t, ¬ s'.awaits (.junk c) t)
    (hlink : ∀ a c, s'.next (.entry a) = .junk c → s'.stage a = .moved c ∨ s'.stage a = .free ∨ s'.stage a = .adding)
    (haw : ∀ a c t, s'.stage a = .moved c → s'.frame c = .syncing → s'.awaits (.junk c) t → seers a t)
    (halive : ∀ c t, s.Alive c t → s'.Alive c t) : Inv s' ls' seers := by
  refine ⟨hl, hmoved, ?_, ?_, hflag, hdone, ?_, hlink, haw, ?_⟩
  · intro a t b hs hb
    rw [hn a t hs] at hb
    rcases hi.closed a t b hs hb with h | h
    · exact .inl (hbase b h)
    · exact .inr h
  · intro a t hs
    rw [hr]
    obtain ⟨hin, hwt⟩ := hi.seen a t hs
    exact ⟨hin, hw a t hs hwt⟩
  · intro t a ha
    rw [hr] at ha
    rcases hi.reader t a ha with h | h
    · exact .inl (hbase a h)
    · exact .inr h
  · intro t c htc
    rw [hr] at htc
    exact halive c t (hi.astray t c htc)

theorem Inv.not_adding {u : Nat} (hs : seers a u) : s.stage a ≠ .adding := by
  intro h
  have hw := (hi.seen a u hs).2
  simp [Waits, h] at hw

/-- Under the lock no more than the links of heads and of an entry yet to be added change. -/
theorem Inv.lockStep (hl : Lists s' ls') (hr : s'.reader = s.reader) (hst : s'.stage = s.stage)
    (hf : s'.frame = s.frame)
    (hrf : s'.reFreed = s.reFreed) (ha : s'.awaits = s.awaits) (hrl : ls' .routeList = ls .routeList)
    (hno : ∀ a, s.lock ≠ some (.unlock (some a)))
    (hn : ∀ a, s.stage a ≠ .adding → s'.next (.entry a) = s.next (.entry a)) : Inv s' ls' seers := by
  refine hi.keep hl hr (fun a u hs => hn a (hi.not_adding hs)) ?_ ?_ ?_ ?_ ?_ ?_ ?_ ?_
  · intro a hb
    rw [Base, hrl, hst, hf]
    exact hb
  · intro a c b hac hfc hb
    rw [hst] at hac ⊢
    rw [hf] at hfc
    rw [hrl]
    rw [hn a (by simp [hac])] at hb
    exact hi.moved a c b hac hfc hb
  · intro a u hs hw
    exact hw.mono (congrFun hst a) (fun h => absurd h (hno a)) (fun p _ hp => by rwa [ha]) fun c _ h => by rwa [hf]
  · intro a haf
    rw [hst, hf]
    rw [hrf] at haf
    exact hi.flag a haf
  · intro c hc
    rw [ha]
    rw [hf] at hc
    exact hi.done c hc
  · intro a c hac
    rw [hst]
    by_cases hadd : s.stage a = .adding
    · exact .inr (.inr hadd)
    · rw [hn a hadd] at hac
      exact hi.link a c hac
  · intro a c u
    rw [hst, hf, ha]
    exact hi.awaited a c u
  · intro c u
    simp only [State.Alive, hf, ha]
    exact id

theorem Inv.addNext {k : Caller} (hl : s.lock = some (.addNext a k)) :
    Inv ((s.setNext (.entry a) (s.next k.head)).setLock (.addPrev a k)) ls seers := by
  have hls := hi.lists.addNext hl
  have hk : k.Adds s ls a := hi.lists.lock _ hl
  have hne : ∀ b, b ≠ a → Function.update s.next (.entry a) (s.next k.head) (.entry b) = s.next (.entry b) := by
    intro b hb
    exact Function.update_of_ne (by simpa using hb) _ _
  cases k with
  | update =>
    refine hi.lockStep hls rfl rfl rfl rfl rfl rfl (by simp [hl]) fun b hb => hne b ?_
    rintro rfl
    exact hb hk
  | clear c rep1 =>
    -- the entry has been taken out, and goes on to what the call has taken out before it
    have hno : ∀ u, ¬ seers a u := by
      intro u hs
      have hw := (hi.seen a u hs).2
      simp only [Waits, hk.2.1] at hw
      exact hw.1 hk.1
    refine hi.keep hls rfl (fun b u hs => hne b ?_) (fun _ h => h) ?_ ?_ hi.flag hi.done ?_ hi.awaited fun _ _ h => h
    · rintro rfl
      exact hno u hs
    · intro b d x hbd hfd hx
      by_cases hba : b = a
      · subst hba
        cases hbd.symm.trans hk.2.1
        have hself : Function.update s.next (.entry b) (s.next (.junk c)) (.entry b) = s.next (.junk c) :=
          Function.update_self ..
        exact .inr (hi.lists.stage _ x (hi.lists.next_head (h := .junk c) (.inr (.inl hk.1)) (hself.symm.trans hx)))
      · exact hi.moved b d x hbd hfd ((hne b hba).symm.trans hx)
    · exact fun b u _ hw => hw.mono rfl (by simp [hl]) (fun _ _ h => h) fun _ _ h => h
    · intro b d hbd
      by_cases hba : b = a
      · rw [hba] at hbd ⊢
        have hself : Function.update s.next (.entry a) (s.next (.junk c)) (.entry a) = s.next (.junk c) :=
          Function.update_self ..
        cases hi.lists.junk_eq (h := .junk c) (.inr (.inl hk.1)) List.mem_cons_self (hself.symm.trans hbd)
        exact .inl hk.2.1
      · exact hi.link b d ((hne b hba).symm.trans hbd)

theorem Inv.publish (hl : s.lock = some (.publish a .update)) :
    Inv ((({ s with table := ⟨s.addr a, s.iface a⟩ :: s.table }.setNext .routeList (.entry a)).setStage
      a .listed).setLock (.unlock none)) (Function.update ls .routeList (a :: ls .routeList)) seers := by
  have ha : s.stage a = .adding := (hi.lists.lock _ hl).1
  have hst : ∀ b st, s.stage b = st → st ≠ .adding → Function.update s.stage a .listed b = st := by
    rintro b st hb hne
    refine (Function.update_of_ne ?_ _ _).trans hb
    rintro rfl
    exact hne (hb.symm.trans ha)
  have hn : ∀ b, Function.update s.next .routeList (.entry a) (.entry b) = s.next (.entry b) :=
    fun b => Function.update_of_ne (by simp) _ _
  refine hi.keep (hi.lists.publish hl) rfl (fun b u hs => hn b) ?_ ?_ ?_ ?_ hi.done ?_ ?_ fun _ _ h => h
  · rintro b (hb | ⟨c, hc, hf⟩)
    · left
      rw [Function.update_self]
      exact List.mem_cons_of_mem _ hb
    · exact .inr ⟨c, hst b _ hc (by simp), hf⟩
  · intro b c x hbc hf hx
    rcases hi.moved b c x (of_update_eq hbc (by simp)).2 hf ((hn b).symm.trans hx) with h | h
    · left
      rw [Function.update_self]
      exact List.mem_cons_of_mem _ h
    · exact .inr (hst x _ h (by simp))
  · intro b u hs hw
    refine hw.mono (hst b _ rfl (hi.not_adding hs)) (by simp [hl]) (fun _ _ h => h) fun _ _ h => h
  · intro b hb
    rcases hi.flag b hb with h | h | h
    · exact .inl (hst b _ h (by simp))
    · exact .inr (.inl (hst b _ h (by simp)))
    · exact .inr (.inr h)
  · intro b c hbc
    have hbc' := (hn b).symm.trans hbc
    have hba : b ≠ a := by
      rintro rfl
      have hfirst : s.next (.entry b) = s.next .routeList := (hi.lists.lock _ hl).2
      cases hi.lists.junk_eq (h := .routeList) trivial List.mem_cons_self (hfirst.symm.trans hbc')
    have hsame : Function.update s.stage a .listed b = s.stage b := Function.update_of_ne hba _ _
    exact (hi.link b c hbc').imp hsame.trans fun h => h.imp hsame.trans hsame.trans
  · exact fun b c u hb => hi.awaited b c u (of_update_eq hb (by simp)).2

/-- Who is inside when `route_del` takes the entry out can still come to it. -/
theorem Inv.delNext {front back : List Nat} (hl : s.lock = some (.delNext a .update))
    (hls : ls .routeList = front ++ a :: back) (hp : s.prev (.entry a) = (entries front).getLastD .routeList) :
    Inv (({ s with table := RouteTable.del s.table (s.addr a) }.setNext (s.prev (.entry a)) (s.next (.entry a))).setLock
        (.unlock (some a))) (Function.update ls .routeList (front ++ back))
      (fun b u => seers b u ∨ b = a ∧ (s.reader u).Inside) := by
  have hlists := hi.lists.delNext hl hls hp
  have ha : s.stage a = .listed := hi.lists.stage .routeList a (by simp [hls])
  have hnd := hi.lists.nodup (h := .routeList) trivial
  rw [hls, List.nodup_middle, List.nodup_cons] at hnd
  have hmem : ∀ b, b ∈ ls .routeList ↔ b = a ∨ b ∈ front ++ back := by
    intro b
    simp only [hls, List.mem_append, List.mem_cons]
    tauto
  have hlisted : ∀ b u, seers b u → s.stage b ≠ .listed := by
    intro b u hs hb
    have hw := (hi.seen b u hs).2
    simp [Waits, hb, hl] at hw
  have hn : ∀ b, s.stage b ≠ .listed → Function.update s.next (s.prev (.entry a)) (s.next (.entry a)) (.entry b) =
      s.next (.entry b) := by
    intro b hb
    refine Function.update_of_ne ?_ _ _
    intro he
    have hm := prev_mem hls hp
    rw [← he, List.mem_cons] at hm
    rcases hm with hm | hm
    · cases hm
    · exact hb (hi.lists.stage .routeList b (entry_mem_entries.1 hm))
  have hna : Function.update s.next (s.prev (.entry a)) (s.next (.entry a)) (.entry a) = s.next (.entry a) := by
    by_cases he : Ptr.entry a = s.prev (.entry a)
    · rw [← he, Function.update_self]
    · exact Function.update_of_ne he _ _
  have hbase : ∀ b, Base s ls b → b = a ∨ Base (({ s with table := RouteTable.del s.table (s.addr a) }.setNext
      (s.prev (.entry a)) (s.next (.entry a))).setLock (.unlock (some a)))
      (Function.update ls .routeList (front ++ back)) b := by
    rintro b (hb | hb)
    · refine ((hmem b).1 hb).imp_right fun hb => .inl ?_
      rwa [Function.update_self]
    · exact .inr (.inr hb)
  refine ⟨hlists, ?_, ?_, ?_, hi.flag, hi.done, ?_, ?_, fun b c u hb hc hu => .inl (hi.awaited b c u hb hc hu),
    hi.astray⟩
  · intro b c x hbc hf hx
    refine .inr (hi.lists.moved_next hbc hf ?_ ((hn b ?_).symm.trans hx))
    · rw [hl]
      rintro _ ⟨⟩ h
      exact h
    · rw [show s.stage b = .moved c from hbc]
      simp
  · rintro b u x (hs | ⟨rfl, hin⟩) hx
    · rcases hi.closed b u x hs ((hn b (hlisted b u hs)).symm.trans hx) with h | h
      · rcases hbase x h with rfl | h
        · exact .inr (.inr ⟨rfl, (hi.seen b u hs).1⟩)
        · exact .inl h
      · exact .inr (.inl h)
    · have hxm := hi.lists.base_next ((hmem b).2 (.inl rfl)) (hna.symm.trans hx)
      rcases hbase x (.inl hxm) with rfl | h
      · exact .inr (.inr ⟨rfl, hin⟩)
      · exact .inl h
  · rintro b u (hs | ⟨rfl, hin⟩)
    · obtain ⟨hin, hw⟩ := hi.seen b u hs
      exact ⟨hin, hw.mono rfl (by simp [hl]) (fun _ _ h => h) fun _ _ h => h⟩
    · refine ⟨hin, ?_⟩
      simp [Waits, State.setLock, State.setNext, ha]
  · intro u b hub
    rcases hi.reader u b hub with h | h
    · rcases hbase b h with rfl | h
      · refine .inr (.inr ⟨rfl, ?_⟩)
        have hu : (s.reader u).uses? = some b := hub
        cases hr : s.reader u <;> simp [hr, Reader.uses?, Reader.Inside] at hu ⊢
      · exact .inl h
    · exact .inr (.inl h)
  · intro b d hbd
    have hmema : Ptr.entry a ∈ Ptr.routeList :: entries (ls .routeList) := by simp [hls]
    by_cases hb : Ptr.entry b = s.prev (.entry a)
    · have hself : Function.update s.next (s.prev (.entry a)) (s.next (.entry a)) (.entry b) = s.next (.entry a) := by
        rw [hb, Function.update_self]
      cases hi.lists.junk_eq (h := .routeList) trivial hmema (hself.symm.trans hbd)
    · exact hi.link b d ((Function.update_of_ne hb _ _).symm.trans hbd)

theorem Inv.delNextClear {rep1 : Ptr} {back : List Nat} (hl : s.lock = some (.delNext a (.clear c rep1)))
    (hls : ls .routeList = a :: back) (hp : s.prev (.entry a) = .routeList) (hc : s.frame c = .moving)
    (hr : rep1 = (entries back).headD .routeList) :
    Inv ((({ s with table := s.table.tail }.setNext (s.prev (.entry a)) (s.next (.entry a))).setStage
      a (.moved c)).setLock (.addNext a (.clear c rep1))) (Function.update ls .routeList back) seers := by
  have ha : s.stage a = .listed := hi.lists.stage .routeList a (by simp [hls])
  have hno : ∀ u, ¬ seers a u := by
    intro u hs
    have hw := (hi.seen a u hs).2
    simp [Waits, ha, hl] at hw
  have hn : ∀ b, Function.update s.next (s.prev (.entry a)) (s.next (.entry a)) (.entry b) = s.next (.entry b) := by
    intro b
    rw [hp]
    exact Function.update_of_ne (by simp) _ _
  have hst : ∀ b, b ≠ a → Function.update s.stage a (.moved c) b = s.stage b := fun b hb => Function.update_of_ne hb _ _
  have hsta : Function.update s.stage a (.moved c) a = .moved c := Function.update_self ..
  refine hi.keep (hi.lists.delNextClear hl hls hp hc hr) rfl (fun b u _ => hn b) ?_ ?_ ?_ ?_ hi.done ?_ ?_
    fun _ _ h => h
  · rintro b (hb | ⟨d, hd, hf⟩)
    · rw [hls, List.mem_cons] at hb
      rcases hb with rfl | hb
      · exact .inr ⟨c, hsta, .inl hc⟩
      · left
        rwa [Function.update_self]
    · refine .inr ⟨d, (hst b ?_).trans hd, hf⟩
      rintro rfl
      cases hd.symm.trans ha
  · intro b d x hbd hf hx
    have hx' := (hn b).symm.trans hx
    by_cases hba : b = a
    · rw [hba] at hbd hx'
      cases hsta.symm.trans hbd
      have hxm : x ∈ ls .routeList := hi.lists.base_next (by simp [hls]) hx'
      rw [hls, List.mem_cons] at hxm
      rcases hxm with rfl | hxm
      · exact .inr hsta
      · left
        rwa [Function.update_self]
    · have hxd : s.stage x = .moved d := by
        refine hi.lists.moved_next ((hst b hba).symm.trans hbd) hf ?_ hx'
        rw [hl]
        rintro _ ⟨⟩ h
        exact h
      refine .inr ((hst x ?_).trans hxd)
      rintro rfl
      cases hxd.symm.trans ha
  · intro b u hs hw
    refine hw.mono (hst b ?_) (by simp [hl]) (fun _ _ h => h) fun _ _ h => h
    rintro rfl
    exact hno u hs
  · intro b hb
    have hba : b ≠ a := by
      rintro rfl
      have hf := (hi.alive (a := b) (t := 0) (.inl (.inl (by simp [hls])))).2.2
      cases hf.symm.trans hb
    rcases hi.flag b hb with h | h | h
    · exact .inl ((hst b hba).trans h)
    · exact .inr (.inl ((hst b hba).trans h))
    · exact .inr (.inr h)
  · intro b d hbd
    have hbd' := (hn b).symm.trans hbd
    have hba : b ≠ a := by
      rintro rfl
      cases hi.lists.junk_eq (h := .routeList) trivial (by simp [hls]) hbd'
    exact (hi.link b d hbd').imp (hst b hba).trans fun h => h.imp (hst b hba).trans (hst b hba).trans
  · intro b d u hb hd
    by_cases hba : b = a
    · rw [hba] at hb
      cases hsta.symm.trans hb
      cases hc.symm.trans hd
    · exact hi.awaited b d u ((hst b hba).symm.trans hb) hd

theorem Inv.unlockDel (hl : s.lock = some (.unlock (some a))) : Inv (s.unlock.setStage a .deleted) ls seers := by
  obtain ⟨ha, hm⟩ := hi.lists.lock _ hl a rfl
  have hst : ∀ b st, s.stage b = st → st ≠ .listed → Function.update s.stage a .deleted b = st := by
    rintro b st hb hne
    refine (Function.update_of_ne ?_ _ _).trans hb
    rintro rfl
    exact hne (hb.symm.trans ha)
  refine hi.keep (hi.lists.unlockDel hl) rfl (fun _ _ _ => rfl) ?_ ?_ ?_ ?_ hi.done ?_ ?_ fun _ _ h => h
  · rintro b (hb | ⟨c, hc, hf⟩)
    · exact .inl hb
    · exact .inr ⟨c, hst b _ hc (by simp), hf⟩
  · intro b c x hbc hf hx
    exact (hi.moved b c x (of_update_eq hbc (by simp)).2 hf hx).imp_right fun h => hst x _ h (by simp)
  · intro b u hs hw
    by_cases hba : b = a
    · subst hba
      have hself : Function.update s.stage b Stage.deleted b = .deleted := Function.update_self ..
      simp [Waits, State.setStage]
    · refine hw.mono (Function.update_of_ne hba _ _) (fun h => ?_) (fun _ _ h => h) fun _ _ h => h
      rw [hl] at h
      cases h
      exact absurd rfl hba
  · intro b hb
    rcases hi.flag b hb with h | h | h
    · exact .inl (hst b _ h (by simp))
    · exact .inr (.inl (hst b _ h (by simp)))
    · exact .inr (.inr h)
  · intro b c hbc
    exact (hi.link b c hbc).imp (hst b _ · (by simp)) fun h => h.imp (hst b _ · (by simp)) (hst b _ · (by simp))
  · exact fun b c u hb => hi.awaited b c u (of_update_eq hb (by simp)).2

/-- An entry goes from one hand to another, neither of them a list. -/
theorem Inv.passOn {st st' : Stage} (hl : Lists s' ls) (hr : s'.reader = s.reader) (hn : s'.next = s.next)
    (hst : s'.stage = Function.update s.stage a st') (ha : s.stage a = st) (hf : s'.frame = s.frame)
    (hlock : s'.lock = s.lock) (hne : st ≠ .listed ∧ ∀ c, st ≠ .moved c) (hne' : ∀ c, st' ≠ .moved c)
    (hw : ∀ u, seers a u → Waits s a u → Waits s' a u) (haw : ∀ p, p ≠ .entry a → s'.awaits p = s.awaits p)
    (hflag : s'.reFreed a = true → st' = .free ∨ st' = .freeing) (hrf : ∀ b, b ≠ a → s'.reFreed b = s.reFreed b)
    (hout : st = .free → st' = .adding) (hadd : st ≠ .adding) : Inv s' ls seers := by
  have hsame : ∀ b, b ≠ a → s'.stage b = s.stage b := by
    intro b hb
    rw [hst, Function.update_of_ne hb]
  have hmoved : ∀ b c, s.stage b = .moved c → s'.stage b = .moved c := by
    intro b c hb
    rw [hsame b, hb]
    rintro rfl
    exact hne.2 c (ha.symm.trans hb)
  refine hi.keep hl hr (fun _ _ _ => congrFun hn _) ?_ ?_ ?_ ?_ ?_ ?_ ?_ ?_
  · rintro b (hb | ⟨c, hc, hfc⟩)
    · exact .inl hb
    · refine .inr ⟨c, hmoved b c hc, ?_⟩
      rwa [hf]
  · intro b c x hbc hfc hx
    rw [hst] at hbc
    rw [hf] at hfc
    rw [hn] at hx
    exact (hi.moved b c x (of_update_eq hbc (hne' c)).2 hfc hx).imp_right (hmoved x c)
  · intro b u hs hwb
    by_cases hba : b = a
    · subst hba
      exact hw u hs hwb
    · refine hwb.mono (hsame b hba) (fun h => hlock.trans h) ?_ fun c _ h => by rwa [hf]
      rintro p (rfl | ⟨c, rfl⟩) hp
      · rwa [haw _ (by simpa using hba)]
      · rwa [haw _ (by simp)]
  · intro b hb
    rw [hf]
    by_cases hba : b = a
    · subst hba
      rw [hst, Function.update_self]
      rcases hflag hb with h | h
      · exact .inl h
      · exact .inr (.inl h)
    · rw [hsame b hba]
      rw [hrf b hba] at hb
      exact hi.flag b hb
  · intro c hc u
    rw [haw _ (by simp)]
    rw [hf] at hc
    exact hi.done c hc u
  · intro b c hbc
    rw [hn] at hbc
    have hlink := hi.link b c hbc
    by_cases hba : b = a
    · subst hba
      rw [ha] at hlink
      rw [hst, Function.update_self]
      rcases hlink with h | h | h
      · exact absurd h (hne.2 c)
      · exact .inr (.inr (hout h))
      · exact absurd h hadd
    · rwa [hsame b hba]
  · intro b c u hb
    rw [hst] at hb
    rw [hf, haw _ (by simp)]
    exact hi.awaited b c u (of_update_eq hb (hne' c)).2
  · intro c u
    simp only [State.Alive, hf, haw (.junk c) (by simp)]
    exact id

theorem Inv.malloc {addr iface : BitVec 64} (h : s.stage a = .free) :
    Inv ({ s with
      addr := Function.update s.addr a addr
      iface := Function.update s.iface a iface
      reFreed := Function.update s.reFreed a false }.setStage a .adding) ls seers := by
  have hl : Lists ({ s with
      addr := Function.update s.addr a addr
      iface := Function.update s.iface a iface
      reFreed := Function.update s.reFreed a false }.setStage a .adding) ls :=
    hi.lists.passOn rfl h (.inl rfl) (.inl rfl) rfl rfl rfl rfl fun b hb => Function.update_of_ne hb _ _
  refine hi.passOn hl rfl rfl rfl h rfl rfl (by simp) (by simp) ?_ (fun _ _ => rfl) ?_ ?_ (fun _ => rfl) (by simp)
  · intro u _ hw
    simp [Waits, h] at hw
  · intro hf
    have hself : Function.update s.reFreed a false a = false := Function.update_self ..
    cases hself.symm.trans hf
  · exact fun b hb => Function.update_of_ne hb _ _

theorem Inv.callRcu (h : s.stage a = .deleted) : Inv ((s.await (.entry a)).setStage a .queued) ls seers := by
  have hl : Lists ((s.await (.entry a)).setStage a .queued) ls :=
    hi.lists.passOn rfl h (.inr (.inl rfl)) (.inr (.inl rfl)) rfl rfl rfl rfl fun _ _ => rfl
  refine hi.passOn hl rfl rfl rfl h rfl rfl (by simp) (by simp) ?_ (fun p hp => Function.update_of_ne hp _ _) ?_
    (fun _ _ => rfl) (by simp) (by simp)
  · intro u hs _
    have hin := (hi.seen a u hs).1
    simpa [Waits, State.setStage, State.await] using hin
  · intro hf
    rcases hi.flag a hf with h' | h' | ⟨c, rep1, h'⟩
    · cases h.symm.trans h'
    · cases h.symm.trans h'
    · cases h.symm.trans (hi.lists.flagged h').1

theorem Inv.routeCb (h : s.stage a = .queued) (hw : ∀ t, ¬ s.awaits (.entry a) t) :
    Inv ((s.flag a).setStage a .freeing) ls seers := by
  have hl : Lists ((s.flag a).setStage a .freeing) ls :=
    hi.lists.passOn rfl h (.inr (.inr (.inl rfl))) (.inr (.inr (.inl rfl))) rfl rfl rfl rfl fun _ _ => rfl
  refine hi.passOn hl rfl rfl rfl h rfl rfl (by simp) (by simp) ?_ (fun _ _ => rfl) (fun _ => .inr rfl)
    (fun b hb => Function.update_of_ne hb _ _) (by simp) (by simp)
  intro u _ hwu
  simp only [Waits, h] at hwu
  exact absurd hwu (hw u)

theorem Inv.free (h : s.stage a = .freeing) : Inv (s.setStage a .free) ls seers := by
  have hl : Lists (s.setStage a .free) ls :=
    hi.lists.passOn rfl h (.inr (.inr (.inr rfl))) (.inr (.inr (.inr rfl))) rfl rfl rfl rfl fun _ _ => rfl
  refine hi.passOn hl rfl rfl rfl h rfl rfl (by simp) (by simp) ?_ (fun _ _ => rfl) (fun _ => .inl rfl)
    (fun _ _ => rfl) (by simp) (by simp)
  intro u _ hw
  simp [Waits, h] at hw

/-- A call of `route_clear` goes on, and what it has taken out is as visible as before. -/
theorem Inv.frameStep {f : Frame} (hl : Lists s' ls') (hr : s'.reader = s.reader)
    (hn : ∀ a, s'.next (.entry a) = s.next (.entry a)) (hst : s'.stage = s.stage) (haw : s'.awaits = s.awaits)
    (hf : s'.frame = Function.update s.frame c f) (hrl : ls' .routeList = ls .routeList)
    (hlock : ∀ a, s.lock = some (.unlock (some a)) → s'.lock = some (.unlock (some a)))
    (hB : ∀ a, s.stage a = .moved c → ((f = .moving ∨ f = .unlocked) ↔ (s.frame c = .moving ∨ s.frame c = .unlocked)))
    (hdone : (∃ rep rep1, f = .freeing rep rep1) ∨ (∃ a rep1, f = .flagged a rep1) → ∀ t, ¬ s.awaits (.junk c) t)
    (hflag : ∀ a, s'.reFreed a = true →
      (s.reFreed a = true ∧ ∀ rep1, s.frame c ≠ .flagged a rep1) ∨ ∃ rep1, f = .flagged a rep1)
    (hsync : f ≠ .syncing) (hA : ∀ u, s.Alive c u → f = .moving ∨ f = .unlocked) : Inv s' ls' seers := by
  have hiff : ∀ a d, s.stage a = .moved d →
      ((s'.frame d = .moving ∨ s'.frame d = .unlocked) ↔ (s.frame d = .moving ∨ s.frame d = .unlocked)) := by
    intro a d ha
    rw [hf]
    by_cases hd : d = c
    · subst hd
      rw [Function.update_self]
      exact hB a ha
    · rw [Function.update_of_ne hd]
  refine hi.keep hl hr (fun a _ _ => hn a) ?_ ?_ ?_ ?_ ?_ ?_ ?_ ?_
  · rintro a (ha | ⟨d, hd, hfd⟩)
    · left
      rwa [hrl]
    · refine .inr ⟨d, ?_, (hiff a d hd).2 hfd⟩
      rwa [hst]
  · intro a d b had hfd hb
    rw [hst] at had ⊢
    rw [hn] at hb
    rw [hrl]
    exact hi.moved a d b had ((hiff a d had).1 hfd) hb
  · intro a u hs hw
    refine hw.mono (congrFun hst a) (hlock a) (fun p _ hp => by rwa [haw]) fun d hd hno => ?_
    have := (hiff a d hd).not
    tauto
  · intro a ha
    rw [hst, hf]
    rcases hflag a ha with ⟨h, hno⟩ | ⟨rep1, h⟩
    · refine (hi.flag a h).imp_right fun h => h.imp_right ?_
      rintro ⟨d, rep1, hd⟩
      refine ⟨d, rep1, (Function.update_of_ne ?_ _ _).trans hd⟩
      rintro rfl
      exact hno rep1 hd
    · right
      right
      exact ⟨c, rep1, (Function.update_self ..).trans h⟩
  · intro d hd
    rw [haw]
    rw [hf] at hd
    by_cases hdc : d = c
    · subst hdc
      rw [Function.update_self] at hd
      exact hdone hd
    · rw [Function.update_of_ne hdc] at hd
      exact hi.done d hd
  · intro a d had
    rw [hn] at had
    rw [hst]
    exact hi.link a d had
  · intro a d u had hd
    rw [hst] at had
    rw [hf] at hd
    rw [haw]
    by_cases hdc : d = c
    · rw [hdc, Function.update_self] at hd
      exact absurd hd hsync
    · rw [Function.update_of_ne hdc] at hd
      exact hi.awaited a d u had hd
  · intro d u hd
    by_cases hdc : d = c
    · subst hdc
      rw [State.Alive, hf, Function.update_self]
      exact (hA u hd).imp_right .inl
    · rw [State.Alive, hf, Function.update_of_ne hdc, haw]
      exact hd

theorem Inv.initJunk (h : s.frame c = .absent) :
    Inv (((s.setNext (.junk c) (.junk c)).setPrev (.junk c) (.junk c)).setFrame c .ready) ls seers := by
  have hn : ∀ a, Function.update s.next (.junk c) (.junk c) (.entry a) = s.next (.entry a) :=
    fun a => Function.update_of_ne (by simp) _ _
  exact hi.frameStep (c := c) (hi.lists.initJunk h) rfl hn rfl rfl rfl rfl (fun _ h => h)
    (fun a ha => absurd ha (hi.lists.not_moved (.inl h))) (by simp) (fun a ha => .inl ⟨ha, by simp [h]⟩) (by simp)
    (by simp [State.Alive, h])

theorem Inv.clearLock (h : s.frame c = .ready) (hl : s.lock = none) :
    Inv ((s.setFrame c .moving).setLock (.clear c (s.next .routeList) (s.next (s.next .routeList)))) ls seers :=
  hi.frameStep (c := c) (hi.lists.clearLock h hl) rfl (fun _ => rfl) rfl rfl rfl rfl (by simp [hl])
    (fun a ha => absurd ha (hi.lists.not_moved (.inr h))) (by simp) (fun a ha => .inl ⟨ha, by simp [h]⟩) (by simp)
    (by simp)

theorem Inv.clearUnlock {rep1 : Ptr} (hl : s.lock = some (.clear c .routeList rep1)) :
    Inv (s.unlock.setFrame c .unlocked) ls seers := by
  have h : s.frame c = .moving := (hi.lists.lock _ hl).1
  exact hi.frameStep (c := c) (hi.lists.clearUnlock hl) rfl (fun _ => rfl) rfl rfl rfl rfl (by simp [hl])
    (fun a _ => by simp [h]) (by simp) (fun a ha => .inl ⟨ha, by simp [h]⟩) (by simp) (by simp)

theorem Inv.synchronized (h : s.frame c = .syncing) (hw : ∀ t, ¬ s.awaits (.junk c) t) :
    Inv (s.setFrame c (.freeing (s.next (.junk c)) (s.next (s.next (.junk c))))) ls seers :=
  hi.frameStep (c := c) (hi.lists.synchronized h) rfl (fun _ => rfl) rfl rfl rfl rfl (fun _ h => h)
    (fun a _ => by simp [h]) (fun _ => hw) (fun a ha => .inl ⟨ha, by simp [h]⟩) (by simp)
    (by simpa [State.Alive, h] using hw)

theorem Inv.clearFlag {rep1 : Ptr} (h : s.frame c = .freeing (.entry a) rep1) :
    ∃ ls', ls' .routeList = ls .routeList ∧ Inv ((s.flag a).setFrame c (.flagged a rep1)) ls' seers := by
  obtain ⟨l, hl, hnd, hseg⟩ := hi.lists.freeing h
  refine ⟨Function.update ls (.junk c) l, Function.update_of_ne (by simp) _ _,
    hi.frameStep (c := c) (hi.lists.clearFlag h hl hnd hseg) rfl (fun _ => rfl) rfl rfl rfl
    (Function.update_of_ne (by simp) _ _) (fun _ h => h) (fun b _ => by simp [h])
    (fun _ => hi.done c (.inl ⟨_, _, h⟩)) (fun b hb => ?_) (by simp) (by simp [State.Alive, h])⟩
  by_cases hba : b = a
  · rw [hba]
    exact .inr ⟨rep1, rfl⟩
  · exact .inl ⟨(Function.update_of_ne hba ..).symm.trans hb, by simp [h]⟩

theorem Inv.clearDone {rep1 : Ptr} (h : s.frame c = .freeing (.junk c) rep1) : Inv (s.setFrame c .absent) ls seers :=
  hi.frameStep (c := c) (hi.lists.clearDone h) rfl (fun _ => rfl) rfl rfl rfl rfl (fun _ h => h)
    (fun a _ => by simp [h]) (by simp) (fun a ha => .inl ⟨ha, by simp [h]⟩) (by simp) (by simp [State.Alive, h])

theorem Inv.clearFree {rep1 : Ptr} (h : s.frame c = .flagged a rep1) :
    Inv ((s.setStage a .free).setFrame c (.freeing rep1 (s.next rep1))) ls seers := by
  have ha := (hi.lists.flagged h).1
  have hst : ∀ b, b ≠ a → Function.update s.stage a .free b = s.stage b := fun b hb => Function.update_of_ne hb _ _
  have hfr : ∀ d, d ≠ c → Function.update s.frame c (.freeing rep1 (s.next rep1)) d = s.frame d :=
    fun d hd => Function.update_of_ne hd _ _
  have hcs : Function.update s.frame c (.freeing rep1 (s.next rep1)) c = .freeing rep1 (s.next rep1) :=
    Function.update_self ..
  have hdone := hi.done c (.inr ⟨a, rep1, h⟩)
  have hne : ∀ d, (s.frame d = .moving ∨ s.frame d = .unlocked) → d ≠ c := by
    rintro d (hd | hd) rfl <;> cases h.symm.trans hd
  have hback : ∀ d, (Function.update s.frame c (.freeing rep1 (s.next rep1)) d = .moving ∨
      Function.update s.frame c (.freeing rep1 (s.next rep1)) d = .unlocked) → d ≠ c ∧
      (s.frame d = .moving ∨ s.frame d = .unlocked) := by
    intro d hd
    have hdc : d ≠ c := by
      rintro rfl
      rcases hd with hd | hd <;> cases hcs.symm.trans hd
    rw [hfr d hdc] at hd
    exact ⟨hdc, hd⟩
  refine hi.keep (hi.lists.clearFree h) rfl (fun _ _ _ => rfl) ?_ ?_ ?_ ?_ ?_ ?_ ?_ ?_
  · rintro b (hb | ⟨d, hd, hf⟩)
    · exact .inl hb
    · refine .inr ⟨d, (hst b ?_).trans hd, ?_⟩
      · rintro rfl
        cases hd.symm.trans ha
        exact hne _ hf rfl
      · rcases hf with hf | hf
        · exact .inl ((hfr d (hne d (.inl hf))).trans hf)
        · exact .inr ((hfr d (hne d (.inr hf))).trans hf)
  · intro b d x hbd hf hx
    obtain ⟨hdc, hf⟩ := hback d hf
    refine (hi.moved b d x (of_update_eq hbd (by simp)).2 hf hx).imp_right fun hxd => (hst x ?_).trans hxd
    rintro rfl
    cases hxd.symm.trans ha
    exact hdc rfl
  · intro b u hs hw
    have hba : b ≠ a := by
      rintro rfl
      simp only [Waits, ha] at hw
      exact hdone u hw.2.2
    refine hw.mono (hst b hba) (fun h => h) (fun _ _ h => h) fun d hd hno => ?_
    have hno' := fun hd => hno.1 ((hback d hd).2.resolve_right hno.2)
    exact ⟨fun h => hno' (.inl h), fun h => hno' (.inr h)⟩
  · intro b hb
    by_cases hba : b = a
    · left
      rw [hba]
      exact Function.update_self ..
    · refine (hi.flag b hb).imp ((hst b hba).trans ·) fun h' => h'.imp ((hst b hba).trans ·) ?_
      rintro ⟨d, r, hd⟩
      refine ⟨d, r, (hfr d ?_).trans hd⟩
      rintro rfl
      rw [h] at hd
      cases hd
      exact hba rfl
  · intro d hd
    by_cases hdc : d = c
    · rw [hdc]
      exact hdone
    · have hfd : ((s.setStage a .free).setFrame c (.freeing rep1 (s.next rep1))).frame d = s.frame d := hfr d hdc
      rw [hfd] at hd
      exact hi.done d hd
  · intro b d hbd
    by_cases hba : b = a
    · right
      left
      rw [hba]
      exact Function.update_self ..
    · exact (hi.link b d hbd).imp (hst b hba).trans fun h => h.imp (hst b hba).trans (hst b hba).trans
  · intro b d u hb hd
    have hdc : d ≠ c := by
      rintro rfl
      cases hcs.symm.trans hd
    exact hi.awaited b d u (of_update_eq hb (by simp)).2 ((hfr d hdc).symm.trans hd)
  · intro d u hd
    have hdc : d ≠ c := by
      rintro rfl
      simp [State.Alive, h] at hd
    have hfd : ((s.setStage a .free).setFrame c (.freeing rep1 (s.next rep1))).frame d = s.frame d := hfr d hdc
    rw [State.Alive, hfd]
    exact hd

/-- Who is inside when `synchronize_rcu` begins can still come to what the call has taken out. -/
theorem Inv.synchronize (h : s.frame c = .unlocked) :
    Inv ((s.await (.junk c)).setFrame c .syncing) ls
      (fun b u => seers b u ∨ s.stage b = .moved c ∧ (s.reader u).Inside) := by
  have hfr : ∀ d, d ≠ c → Function.update s.frame c .syncing d = s.frame d := fun d hd => Function.update_of_ne hd _ _
  have hcs : Function.update s.frame c .syncing c = .syncing := Function.update_self ..
  have hback : ∀ d,
      (Function.update s.frame c .syncing d = .moving ∨ Function.update s.frame c .syncing d = .unlocked) →
      s.frame d = .moving ∨ s.frame d = .unlocked := by
    intro d hd
    have hdc : d ≠ c := by
      rintro rfl
      rcases hd with hd | hd <;> cases hcs.symm.trans hd
    rwa [hfr d hdc] at hd
  have hbase : ∀ b, Base s ls b → s.stage b = .moved c ∨ Base ((s.await (.junk c)).setFrame c .syncing) ls b := by
    rintro b (hb | ⟨d, hd, hf⟩)
    · exact .inr (.inl hb)
    · by_cases hdc : d = c
      · rw [hdc] at hd
        exact .inl hd
      · rw [← hfr d hdc] at hf
        exact .inr (.inr ⟨d, hd, hf⟩)
  have haw : Function.update s.awaits (.junk c) (fun u => (s.reader u).Inside) (.junk c) =
      fun u => (s.reader u).Inside :=
    Function.update_self ..
  have hawne : ∀ d, d ≠ c → Function.update s.awaits (.junk c) (fun u => (s.reader u).Inside) (.junk d) =
      s.awaits (.junk d) :=
    fun d hd => Function.update_of_ne (by simpa using hd) _ _
  refine ⟨hi.lists.synchronize h, ?_, ?_, ?_, ?_, ?_, ?_, hi.link, ?_, ?_⟩
  · exact fun b d x hbd hf hx => hi.moved b d x hbd (hback d hf) hx
  · rintro b u x (hs | ⟨hb, hin⟩) hx
    · rcases hi.closed b u x hs hx with hx' | hx'
      · rcases hbase x hx' with hxc | hx'
        · exact .inr (.inr ⟨hxc, (hi.seen b u hs).1⟩)
        · exact .inl hx'
      · exact .inr (.inl hx')
    · rcases hi.moved b c x hb (.inr h) hx with hx' | hx'
      · exact .inl (.inl hx')
      · exact .inr (.inr ⟨hx', hin⟩)
  · rintro b u (hs | ⟨hb, hin⟩)
    · obtain ⟨hin, hw⟩ := hi.seen b u hs
      refine ⟨hin, hw.mono rfl (fun h => h) ?_ fun d hd hno => ?_⟩
      · rintro p - hp
        by_cases hpc : p = .junk c
        · rw [hpc]
          exact (congrFun haw u).mpr hin
        · exact (congrFun (Function.update_of_ne hpc ..) u).mpr hp
      · have hno' := fun hd => hno.1 ((hback d hd).resolve_right hno.2)
        exact ⟨fun h => hno' (.inl h), fun h => hno' (.inr h)⟩
    · refine ⟨hin, ?_⟩
      simpa [Waits, State.setFrame, State.await, hb] using hin
  · intro b hb
    refine (hi.flag b hb).imp_right fun h' => h'.imp_right ?_
    rintro ⟨d, r, hd⟩
    refine ⟨d, r, (hfr d ?_).trans hd⟩
    rintro rfl
    cases h.symm.trans hd
  · intro d hd u hu
    have hdc : d ≠ c := by
      rintro rfl
      rcases hd with ⟨_, _, hd⟩ | ⟨_, _, hd⟩ <;> cases hcs.symm.trans hd
    have hfd : ((s.await (.junk c)).setFrame c .syncing).frame d = s.frame d := hfr d hdc
    rw [hfd] at hd
    exact hi.done d hd u ((congrFun (hawne d hdc) u).mp hu)
  · intro u b hub
    have hin : (s.reader u).Inside := by
      have hu : (s.reader u).uses? = some b := hub
      cases hr : s.reader u <;> simp [hr, Reader.uses?, Reader.Inside] at hu ⊢
    rcases hi.reader u b hub with hb | hb
    · rcases hbase b hb with hb | hb
      · exact .inr (.inr ⟨hb, hin⟩)
      · exact .inl hb
    · exact .inr (.inl hb)
  · intro b d u hb hd hu
    by_cases hdc : d = c
    · rw [hdc] at hb hu
      exact .inr ⟨hb, (congrFun haw u).mp hu⟩
    · exact .inl (hi.awaited b d u hb ((hfr d hdc).symm.trans hd) ((congrFun (hawne d hdc) u).mp hu))
  · intro u d hud
    by_cases hdc : d = c
    · rw [hdc]
      refine .inr (.inr ⟨hcs, (congrFun haw u).mpr ?_⟩)
      have hu : (s.reader u).junk? = some d := hud
      cases hr : s.reader u <;> simp [hr, Reader.junk?, Reader.Inside] at hu ⊢
    · have hfd : ((s.await (.junk c)).setFrame c .syncing).frame d = s.frame d := hfr d hdc
      rw [State.Alive, hfd, show ((s.await (.junk c)).setFrame c .syncing).awaits (.junk d) = s.awaits (.junk d)
        from hawne d hdc]
      exact hi.astray u d hud

theorem Inv.reads {r : Reader} (hin : (s.reader t).Inside → r.Inside)
    (hu : ∀ a, r.uses? = some a → Base s ls a ∨ seers a t) (hj : ∀ c, r.junk? = some c → s.Alive c t) :
    ∃ ls' seers', Inv (s.setReader t r) ls' seers' ∧
      Effect s (s.setReader t r) (ls .routeList) (ls' .routeList) seers seers' :=
  ⟨ls, seers, hi.setReader hin hu hj, .same rfl rfl rfl rfl (fun _ _ h => h) fun _ _ h _ => h⟩

theorem Inv.holds {sec : Section} (hl : Lists (s.setLock sec) ls) (hno : ∀ a, s.lock ≠ some (.unlock (some a))) :
    ∃ ls' seers', Inv (s.setLock sec) ls' seers' ∧
      Effect s (s.setLock sec) (ls .routeList) (ls' .routeList) seers seers' :=
  ⟨ls, seers, hi.lockStep hl rfl rfl rfl rfl rfl rfl hno fun _ _ => rfl,
    .same rfl rfl rfl rfl (fun _ _ h => h) fun _ _ h _ => h⟩

/-- A lookup goes on along a link. -/
theorem Inv.loads {addr : BitVec 64} {p : Ptr} (hp : ∀ a, p = .entry a → Base s ls a ∨ seers a t)
    (hj : ∀ c, p = .junk c → s.Alive c t) :
    ∃ ls' seers', Inv (s.setReader t (.at_ addr p)) ls' seers' ∧
      Effect s (s.setReader t (.at_ addr p)) (ls .routeList) (ls' .routeList) seers seers' := by
  refine hi.reads (fun _ => trivial) (fun a ha => hp a ?_) fun c hc => hj c ?_
  · cases p with
    | entry b =>
      cases ha
      rfl
    | _ => cases ha
  · cases p with
    | junk d =>
      cases hc
      rfl
    | _ => cases hc

theorem Inv.visible_next (hv : Base s ls a ∨ seers a t) (hb : s.next (.entry a) = .entry b) :
    Base s ls b ∨ seers b t := by
  rcases hv with (ha | ⟨c, hc, hf⟩) | ha
  · exact .inl (.inl (hi.lists.base_next ha hb))
  · rcases hi.moved a c b hc hf hb with hb | hb
    · exact .inl (.inl hb)
    · exact .inl (.inr ⟨c, hb, hf⟩)
  · exact hi.closed a t b ha hb

/-- Whom an entry leads to the `junk` of a `route_clear`, the call waits for. -/
theorem Inv.visible_junk (hv : Base s ls a ∨ seers a t) (hc : s.next (.entry a) = .junk c) : s.Alive c t := by
  have ha := hi.alive hv
  have hst : s.stage a = .moved c := (hi.link a c hc).resolve_right (not_or.2 ⟨ha.1, ha.2.1⟩)
  rcases hv with (hm | ⟨d, hd, hf⟩) | hs
  · cases hst.symm.trans (hi.lists.stage .routeList a hm)
  · cases hst.symm.trans hd
    exact hf.imp_right .inl
  · have hw := (hi.seen a t hs).2
    simp only [Waits, hst] at hw
    have hno : ∀ h : s.frame c = .absent ∨ s.frame c = .ready, False := fun h => hi.lists.not_moved h hst
    have hdone := hi.done c
    cases hf : s.frame c with
    | absent => exact (hno (.inl hf)).elim
    | ready => exact (hno (.inr hf)).elim
    | moving => exact absurd hf hw.1
    | unlocked => exact absurd hf hw.2.1
    | syncing => exact .inr (.inr ⟨hf, hw.2.2⟩)
    | freeing rep rep1 => exact absurd hw.2.2 (hdone (.inl ⟨_, _, hf⟩) t)
    | flagged b rep1 => exact absurd hw.2.2 (hdone (.inr ⟨_, _, hf⟩) t)

omit hi in
theorem State.Alive.has (h : s.Alive c t) : s.Has (.junk c) := by
  rcases h with h | h | ⟨h, -⟩ <;> simp [State.Has, h]

theorem Inv.junk_next (hc : s.Alive c t) (hb : s.next (.junk c) = .entry b) : Base s ls b ∨ seers b t := by
  have hst : s.stage b = .moved c := hi.lists.stage _ b (hi.lists.next_head hc.has hb)
  rcases hc with h | h | ⟨h, hw⟩
  · exact .inl (.inr ⟨c, hst, .inl h⟩)
  · exact .inl (.inr ⟨c, hst, .inr h⟩)
  · exact .inr (hi.awaited b c t hst h hw)

theorem Inv.step (hs : Step s s') : ∃ ls' seers', Inv s' ls' seers' ∧
    Effect s s' (ls .routeList) (ls' .routeList) seers seers' := by
  cases hs with
  | readLock t addr h => exact hi.reads (fun _ => trivial) (by simp [Reader.uses?]) (by simp [Reader.junk?])
  | loadFirst t addr h =>
    refine hi.loads (fun a ha => .inl (.inl (hi.lists.next_head (h := .routeList) trivial ha))) fun c hc => ?_
    cases hi.lists.junk_eq (h := .routeList) trivial List.mem_cons_self hc
  | differ t addr a h hd =>
    exact hi.reads (fun _ => trivial) (fun b hb => hi.reader t b (h ▸ hb)) (by simp [Reader.junk?])
  | agree t addr a h hd =>
    exact hi.reads (fun _ => trivial) (fun b hb => hi.reader t b (h ▸ hb)) (by simp [Reader.junk?])
  | loadNext t addr a h =>
    have hv := hi.reader t a (by rw [h]; rfl)
    exact hi.loads (fun b hb => hi.visible_next hv hb) fun c hc => hi.visible_junk hv hc
  | loadIface t addr a h =>
    exact hi.reads (fun _ => trivial) (fun b hb => hi.reader t b (h ▸ hb)) (by simp [Reader.junk?])
  | checkFreed t addr a ret h =>
    have hv := (hi.alive (hi.reader t a (by rw [h]; rfl))).2.2
    simp only [hv, Bool.false_eq_true, if_false]
    exact hi.reads (fun _ => trivial) (by simp [Reader.uses?]) (by simp [Reader.junk?])
  | noRoute t addr h => exact hi.reads (fun _ => trivial) (by simp [Reader.uses?]) (by simp [Reader.junk?])
  | strayNext t addr c h =>
    have hc := hi.astray t c (by rw [h]; rfl)
    refine hi.loads (fun b hb => hi.junk_next hc hb) fun d hd => ?_
    cases hi.lists.junk_eq hc.has List.mem_cons_self hd
    exact hc
  | strayHit t addr c ret h => exact hi.reads (fun _ => trivial) (by simp [Reader.uses?]) (by simp [Reader.junk?])
  | strayAbort t addr c h => exact hi.reads (fun _ => trivial) (by simp [Reader.uses?]) (by simp [Reader.junk?])
  | readUnlock t addr ret h =>
    refine ⟨ls, fun a u => u ≠ t ∧ seers a u, hi.readUnlock,
      .same rfl rfl rfl rfl (fun _ _ h => h) fun x u hs hin => ⟨?_, hs⟩⟩
    rintro rfl
    simp [State.setReader, Reader.Inside] at hin
  | return_ t addr ret h =>
    exact hi.reads (by simp [h, Reader.Inside]) (by simp [Reader.uses?]) (by simp [Reader.junk?])
  | malloc a addr iface h =>
    refine ⟨ls, seers, hi.malloc h, .quiet ⟨rfl, rfl, rfl, fun _ _ _ => rfl, fun x hx => ?_, fun x c hx => ?_,
      fun _ _ h _ => h⟩⟩
    · have hxa : x ≠ a := by
        rintro rfl
        exact hx h
      simp [State.route, State.setStage, Function.update_of_ne hxa]
    · exact (of_update_eq hx (by simp)).2
  | addLock a h hl => exact hi.holds (hi.lists.addLock h hl) (by simp [hl])
  | addNext a k hl =>
    have hk : k.Adds s ls a := hi.lists.lock _ hl
    have hh : Function.update s.next (.entry a) (s.next k.head) .routeList = s.next .routeList :=
      Function.update_of_ne (by simp) _ _
    refine ⟨ls, seers, hi.addNext hl, .quiet ⟨rfl, rfl, hh, fun x hx hx' => ?_, fun _ _ => rfl, fun _ _ h => h,
      fun _ _ h _ => h⟩⟩
    refine Function.update_of_ne ?_ (s.next k.head) s.next
    rintro ⟨⟩
    cases k with
    | update => exact hx hk
    | clear c rep1 => exact hx' c hk.2.1
  | addPrev a k hl =>
    exact ⟨ls, seers, hi.lockStep (hi.lists.addPrev hl) rfl rfl rfl rfl rfl rfl (by simp [hl]) fun _ _ => rfl,
      .same rfl rfl rfl rfl (fun _ _ h => h) fun _ _ h _ => h⟩
  | addBack a k hl =>
    exact ⟨ls, seers, hi.lockStep (hi.lists.addBack hl) rfl rfl rfl rfl rfl rfl (by simp [hl]) fun _ _ => rfl,
      .same rfl rfl rfl rfl (fun _ _ h => h) fun _ _ h _ => h⟩
  | publish a hl =>
    refine ⟨_, seers, hi.publish hl, .publish a (Function.update_self ..) rfl (hi.lists.lock _ hl).1 (fun x => ?_) rfl
      (fun x c hx => (of_update_eq hx (by simp)).2) rfl⟩
    have hne : Ptr.entry x ≠ .routeList := by simp
    exact Function.update_of_ne hne (.entry a) s.next
  | publishJunk a c rep hl =>
    have hn : ∀ x, Function.update s.next (.junk c) (.entry a) (.entry x) = s.next (.entry x) :=
      fun x => Function.update_of_ne (by simp) _ _
    have hh : Function.update s.next (.junk c) (.entry a) .routeList = s.next .routeList :=
      Function.update_of_ne (by simp) _ _
    have hrl : Function.update ls (.junk c) (a :: ls (.junk c)) .routeList = ls .routeList :=
      Function.update_of_ne (by simp) _ _
    exact ⟨_, seers, hi.lockStep (hi.lists.publishJunk hl) rfl rfl rfl rfl rfl hrl (by simp [hl])
      fun x _ => hn x, .quiet ⟨hrl, rfl, hh, fun x _ _ => hn x, fun _ _ => rfl, fun _ _ h => h, fun _ _ h _ => h⟩⟩
  | delLock addr hl => exact hi.holds (hi.lists.delLock hl addr) (by simp [hl])
  | scanNext addr a hl hd => exact hi.holds (hi.lists.scanNext hl hd) (by simp [hl])
  | scanFound addr a hl hd => exact hi.holds (hi.lists.scanFound hl hd) (by simp [hl])
  | scanEnd addr hl => exact hi.holds (hi.lists.scanEnd hl) (by simp [hl])
  | delBack a k hl =>
    exact ⟨ls, seers, hi.lockStep (hi.lists.delBack hl) rfl rfl rfl rfl rfl rfl (by simp [hl]) fun _ _ => rfl,
      .same rfl rfl rfl rfl (fun _ _ h => h) fun _ _ h _ => h⟩
  | delNext a hl =>
    obtain ⟨front, back, hls, hd, hp⟩ := hi.lists.lock _ hl
    refine ⟨_, _, hi.delNext hl hls hp, .delete front back a hls (Function.update_self ..) hd rfl ?_ rfl rfl
      (fun _ _ h => .inl h) (fun _ h => .inr ⟨rfl, h⟩) rfl⟩
    rw [← hp]
    rfl
  | delNextClear a c rep1 hl =>
    obtain ⟨front, back, hls, ⟨hc, rfl, hr⟩, hp⟩ := hi.lists.lock _ hl
    refine ⟨_, seers, hi.delNextClear hl hls hp hc hr, .clear c a hc ?_ rfl rfl⟩
    rw [hls, Function.update_self]
    rfl
  | unlock hl =>
    exact ⟨ls, seers, hi.lockStep (hi.lists.unlock hl) rfl rfl rfl rfl rfl rfl (by simp [hl]) fun _ _ => rfl,
      .same rfl rfl rfl rfl (fun _ _ h => h) fun _ _ h _ => h⟩
  | unlockDel a hl =>
    exact ⟨ls, seers, hi.unlockDel hl,
      .same rfl rfl rfl rfl (fun _ _ h => (of_update_eq h (by simp)).2) fun _ _ h _ => h⟩
  | callRcu a h =>
    exact ⟨ls, seers, hi.callRcu h, .same rfl rfl rfl rfl (fun _ _ h => (of_update_eq h (by simp)).2) fun _ _ h _ => h⟩
  | routeCb a h hw =>
    exact ⟨ls, seers, hi.routeCb h hw,
      .same rfl rfl rfl rfl (fun _ _ h => (of_update_eq h (by simp)).2) fun _ _ h _ => h⟩
  | free a h =>
    exact ⟨ls, seers, hi.free h, .same rfl rfl rfl rfl (fun _ _ h => (of_update_eq h (by simp)).2) fun _ _ h _ => h⟩
  | initJunk c h =>
    have hn : ∀ x, Function.update s.next (.junk c) (.junk c) (.entry x) = s.next (.entry x) :=
      fun x => Function.update_of_ne (by simp) _ _
    have hh : Function.update s.next (.junk c) (.junk c) .routeList = s.next .routeList :=
      Function.update_of_ne (by simp) _ _
    exact ⟨ls, seers, hi.initJunk h, .quiet ⟨rfl, rfl, hh, fun x _ _ => hn x, fun _ _ => rfl, fun _ _ h => h,
      fun _ _ h _ => h⟩⟩
  | clearLock c h hl => exact ⟨ls, seers, hi.clearLock h hl, .same rfl rfl rfl rfl (fun _ _ h => h) fun _ _ h _ => h⟩
  | clearMove c a rep1 hl => exact hi.holds (hi.lists.clearMove hl) (by simp [hl])
  | clearUnlock c rep1 hl =>
    exact ⟨ls, seers, hi.clearUnlock hl, .same rfl rfl rfl rfl (fun _ _ h => h) fun _ _ h _ => h⟩
  | synchronize c h =>
    exact ⟨ls, _, hi.synchronize h, .same rfl rfl rfl rfl (fun _ _ h => h) fun _ _ h _ => .inl h⟩
  | synchronized c h hw =>
    exact ⟨ls, seers, hi.synchronized h hw, .same rfl rfl rfl rfl (fun _ _ h => h) fun _ _ h _ => h⟩
  | clearFlag c a rep1 h =>
    obtain ⟨ls', hrl, h'⟩ := hi.clearFlag h
    exact ⟨ls', seers, h', .same hrl rfl rfl rfl (fun _ _ h => h) fun _ _ h _ => h⟩
  | clearFree c a rep1 h =>
    exact ⟨ls, seers, hi.clearFree h,
      .same rfl rfl rfl rfl (fun _ _ h => (of_update_eq h (by simp)).2) fun _ _ h _ => h⟩
  | clearDone c rep1 h =>
    exact ⟨ls, seers, hi.clearDone h, .same rfl rfl rfl rfl (fun _ _ h => h) fun _ _ h _ => h⟩

omit hi in
theorem Inv.of_init (h : Init s) : Inv s (fun _ => []) fun _ _ => False := by
  refine ⟨⟨?_, ?_, by simp, fun _ => rfl, by simp [h.lock], ?_, by simp [h.stage], by simp [h.stage]⟩,
    by simp [h.stage], by simp,
    by simp, fun a _ => .inl (h.stage a), by simp [h.frame], ?_, fun a c _ => .inr (.inl (h.stage a)),
    by simp [h.stage], by simp [h.reader, Reader.junk?]⟩
  · intro p hp
    cases p with
    | routeList => exact Ring.empty h.next
    | junk c => simp [State.Has, h.frame] at hp
    | entry a => exact hp.elim
  · intro p hp
    simp only [State.after, h.lock]
    cases p with
    | routeList => exact Ring.empty h.prev
    | junk c => simp [State.Has, h.frame] at hp
    | entry a => exact hp.elim
  · intro c
    rw [h.frame]
    rfl
  · intro t a ha
    rw [h.reader] at ha
    cases ha

end Steps

theorem inv_of_reachable (h : Reachable Init Step s) : ∃ ls seers, Inv s ls seers := by
  apply h.invariant
  · exact fun s hs => ⟨_, _, .of_init hs⟩
  · rintro s s' - ⟨ls, seers, hi⟩ hs
    obtain ⟨ls', seers', hi', -⟩ := hi.step hs
    exact ⟨ls', seers', hi'⟩

theorem Lists.uses (hi : Lists s ls) {sec : Section} (hl : s.lock = some sec) (hu : sec.Uses s (.entry a)) :
    Base s ls a ∨ s.stage a = .adding := by
  have hok := hi.lock sec hl
  have hhead : ∀ l, .entry a = (entries l).headD .routeList → a ∈ l := by
    intro l hl
    cases l with
    | nil => cases hl
    | cons b l =>
      cases hl
      exact List.mem_cons_self
  have hadds : ∀ k : Caller, k.Adds s ls a → Base s ls a ∨ s.stage a = .adding := by
    intro k hk
    cases k with
    | update => exact .inr hk
    | clear c rep1 => exact .inl (.inr ⟨c, hk.2.1, .inl hk.1⟩)
  have hnot : ∀ (k : Caller), Ptr.entry a ≠ k.head := by
    intro k
    cases k <;> simp [Caller.head]
  cases sec with
  | scan addr rep =>
    obtain ⟨front, back, hls, hr, -⟩ := hok
    refine .inl (.inl ?_)
    rw [hls]
    exact List.mem_append_right _ (hhead back (hu.trans hr))
  | delBack b k =>
    obtain ⟨front, back, hls, -⟩ := hok
    have hb : b ∈ ls .routeList := by simp [hls]
    rcases hu with hu | hu
    · cases hu
      exact .inl (.inl hb)
    · exact .inl (.inl (hi.base_next hb hu.symm))
  | delNext b k =>
    obtain ⟨front, back, hls, -, hp⟩ := hok
    rcases hu with hu | hu
    · cases hu
      exact .inl (.inl (by simp [hls]))
    · have hm := prev_mem hls hp
      rw [← hu, List.mem_cons] at hm
      exact .inl (.inl (entry_mem_entries.1 (hm.resolve_left (by simp))))
  | addNext b k =>
    rcases hu with hu | hu
    · cases hu
      exact hadds k hok
    · exact absurd hu (hnot k)
  | addPrev b k =>
    cases hu
    exact hadds k hok.1
  | addBack b k =>
    obtain ⟨hk, -, -⟩ := hok
    rcases hu with hu | hu
    · exact absurd hu (hnot k)
    · have hm := hi.next_head hk.has hu.symm
      cases k with
      | update => exact .inl (.inl hm)
      | clear c rep1 => exact .inl (.inr ⟨c, hi.stage _ a hm, .inl hk.1⟩)
  | publish b k =>
    obtain ⟨hk, -⟩ := hok
    cases k with
    | update => cases hu
    | clear c rep1 =>
      rcases hu with hu | hu
      · cases hu
      · exact .inl (.inl (hhead _ (hu.trans hk.2.2.2)))
  | clear c rep rep1 => exact .inl (.inl (hhead _ (Eq.trans hu hok.2.1)))
  | unlock b => exact hu.elim

theorem Lists.frame_uses (hi : Lists s ls) (hu : (s.frame c).Uses (.entry a)) : s.stage a = .moved c := by
  cases hf : s.frame c with
  | freeing rep rep1 =>
    rw [hf] at hu
    obtain rfl : .entry a = rep := hu
    obtain ⟨l, hl, -⟩ := hi.freeing hf
    exact hi.stage (.junk c) a (by simp [hl])
  | flagged b rep1 =>
    rw [hf] at hu
    obtain ⟨hb, -, hseg⟩ := hi.flagged hf
    rcases hu with hu | rfl
    · cases hu
      exact hb
    · cases hl : ls (.junk c) with
      | nil =>
        rw [hl] at hseg
        cases hseg
      | cons x l =>
        rw [hl] at hseg
        cases hseg.1
        exact hi.stage (.junk c) a (by simp [hl])
  | _ =>
    rw [hf] at hu
    exact hu.elim

theorem abort_of_junk (hi : Inv s ls seers) (hs : Step s s') (ht : s.reader t ≠ .aborted)
    (ht' : s'.reader t = .aborted) : ∃ c, (s.reader t).junk? = some c := by
  have hset : ∀ u r, r ≠ .aborted → (s.setReader u r).reader t ≠ .aborted := by
    intro u r hr
    by_cases htu : t = u
    · simpa [State.setReader, htu] using hr
    · simpa [State.setReader, htu] using ht
  cases hs with
  | strayAbort u addr c h =>
    by_cases htu : t = u
    · rw [htu, h]
      exact ⟨c, rfl⟩
    · simp [State.setReader, htu, ht] at ht'
  | checkFreed u addr a ret h =>
    have hv := (hi.alive (hi.reader u a (by rw [h]; rfl))).2.2
    exact absurd ht' (hset u _ (by simp [hv]))
  | readLock u | loadFirst u | differ u | agree u | loadNext u | loadIface u | noRoute u | strayNext u | strayHit u
  | readUnlock u | return_ u => exact absurd ht' (hset u _ (by simp))
  | _ => exact absurd ht' ht

/-- In no run does a lookup, a section or a `route_clear` use the memory of an entry that has
been freed, and only a `route_clear` finds it marked, by itself. A lookup that takes a `junk` for
an entry does so before the `route_clear` returns, and no other lookup aborts. -/
theorem freed_never_used (h : Reachable Init Step s) :
    (∀ t a, (s.reader t).uses? = some a → s.stage a ≠ .free ∧ s.reFreed a = false) ∧
      (∀ t c, (s.reader t).junk? = some c → s.frame c = .moving ∨ s.frame c = .unlocked ∨ s.frame c = .syncing) ∧
      (∀ t s', Step s s' → s.reader t ≠ .aborted → s'.reader t = .aborted → ∃ c, (s.reader t).junk? = some c) ∧
      (∀ sec a, s.lock = some sec → sec.Uses s (.entry a) → s.stage a ≠ .free ∧ s.reFreed a = false) ∧
      ∀ c a, (s.frame c).Uses (.entry a) →
        s.stage a ≠ .free ∧ (s.reFreed a = true → ∃ rep1, s.frame c = .flagged a rep1) := by
  obtain ⟨ls, seers, hi⟩ := inv_of_reachable h
  refine ⟨fun t a ha => ?_, fun t c hc => ?_, fun t s' => abort_of_junk hi, fun sec a hl hu => ?_, fun c a hu => ?_⟩
  · obtain ⟨hf, -, hr⟩ := hi.alive (hi.reader t a ha)
    exact ⟨hf, hr⟩
  · exact (hi.astray t c hc).imp_right fun h => h.imp_right And.left
  · rcases hi.lists.uses hl hu with hb | ha
    · obtain ⟨hf, -, hr⟩ := hi.alive (t := 0) (.inl hb)
      exact ⟨hf, hr⟩
    · refine ⟨by simp [ha], ?_⟩
      cases hr : s.reFreed a with
      | false => rfl
      | true =>
        rcases hi.flag a hr with h' | h' | ⟨c, rep1, h'⟩
        · cases ha.symm.trans h'
        · cases ha.symm.trans h'
        · cases ha.symm.trans (hi.lists.flagged h').1
  · have hst := hi.lists.frame_uses hu
    refine ⟨by simp [hst], fun hr => ?_⟩
    rcases hi.flag a hr with h' | h' | ⟨d, rep1, h'⟩
    · cases hst.symm.trans h'
    · cases hst.symm.trans h'
    · cases hst.symm.trans (hi.lists.flagged h').1
      exact ⟨rep1, h'⟩

def unused : State where
  next p := p
  prev p := p
  addr _ := 0
  iface _ := 0
  reFreed _ := false
  stage _ := .free
  frame _ := .absent
  awaits _ _ := False
  lock := none
  reader _ := .idle
  table := []

theorem init_unused : Init unused := ⟨rfl, rfl, fun _ => rfl, fun _ => rfl, rfl, fun _ => rfl, rfl⟩

/-- A route is added, a lookup loads its entry, and it is deleted and given to `call_rcu`. -/
theorem freed_never_used_queued : ∃ s : State, s.stage 0 = .queued ∧ (s.reader 1).uses? = some 0 ∧
    s.reFreed 0 = false := by
  have h₀ : Reachable Init Step unused := .of_init init_unused
  have h₁ := h₀.tail (.malloc _ 0 5 7 rfl)
  have h₂ := h₁.tail (.addLock _ 0 rfl rfl)
  have h₃ := h₂.tail (.addNext _ 0 .update rfl)
  have h₄ := h₃.tail (.addPrev _ 0 .update rfl)
  have h₅ := h₄.tail (.addBack _ 0 .update rfl)
  have h₆ := (h₅.tail (.publish _ 0 rfl)).tail (.unlock _ rfl)
  have h₇ := (h₆.tail (.readLock _ 1 5 rfl)).tail (.loadFirst _ 1 5 rfl)
  have h₈ := (h₇.tail (.delLock _ 5 rfl)).tail (.scanFound _ 5 0 rfl rfl)
  have h₉ := (h₈.tail (.delBack _ 0 .update rfl)).tail (.delNext _ 0 rfl)
  have h := (h₉.tail (.unlockDel _ 0 rfl)).tail (.callRcu _ 0 rfl)
  exact ⟨_, rfl, rfl, ((freed_never_used h).1 1 0 rfl).2⟩

end Wizard.RouteRcu
