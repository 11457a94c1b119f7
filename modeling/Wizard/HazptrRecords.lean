import Wizard.Hazptr
import Wizard.Segment

/-! The records. A record is used by one holder, by one call that is acquiring or
releasing it, or by the cache of one thread; what is used stays on `_hazptr_list`, and
nobody else writes its `realptr`. -/

namespace Wizard.Hazptr

variable {Obj Rec Cell Holder Tid : Type*}

inductive User (Holder Tid : Type*)
  | holder (h : Holder)
  | thread (t : Tid)
  | pool (t : Tid)

def Act.recs : Act Obj Rec Cell Holder → List Rec
  | .pushRecord _ rec | .countRecord _ rec | .releaseRecord rec => [rec]
  | .dropCached rest => rest
  | _ => []

def Uses (s : State Obj Rec Cell Holder Tid) (rec : Rec) : User Holder Tid → Prop
  | .holder h => s.holder h = some rec
  | .thread t => rec ∈ (s.thread t).act.recs
  | .pool t => rec ∈ s.pool t

/-- What a thread may rely on at its next access. -/
def ActOk (s : State Obj Rec Cell Holder Tid) (list : List Rec) : Act Obj Rec Cell Holder → Prop
  | .loadActive h rec | .casActive h rec | .countRecord h rec => rec ∈ list ∧ s.holder h = none
  | .newRecord h => s.holder h = none
  | .pushRecord h rec => rec ∉ list ∧ s.holder h = none
  | .publish h _ _ | .retract h _ _ _ => ∃ rec, s.holder h = some rec
  | .validate h p _ _ => ∃ rec, s.holder h = some rec ∧ s.realptr rec = p
  | .releaseRecord rec | .scan rec => rec ∈ list
  | .dropCached rest => ∀ rec ∈ rest, rec ∈ list
  | _ => True

structure Records (s : State Obj Rec Cell Holder Tid) (list : List Rec) : Prop where
  linked : Segment s.recNext s.hazptrList list none
  allocated : ∀ r ∈ list, s.allocated r
  unique : ∀ r u v, Uses s r u → Uses s r v → u = v
  used : ∀ r u, Uses s r u → s.allocated r ∧ s.active r = true
  recsNodup : ∀ t, (s.thread t).act.recs.Nodup
  poolNodup : ∀ t, (s.pool t).Nodup
  holder : ∀ h r, s.holder h = some r → r ∈ list
  pool : ∀ t, ∀ r ∈ s.pool t, r ∈ list
  busy : ∀ t u h, (s.thread t).act.holder? = some h → (s.thread u).act.holder? = some h → t = u
  act : ∀ t, ActOk s list (s.thread t).act

variable {s s' : State Obj Rec Cell Holder Tid} {list list' : List Rec} {t : Tid}

theorem ActOk.frame {a : Act Obj Rec Cell Holder} (h : ActOk s list a) (hl : ∀ r ∈ list, r ∈ list')
    (hfresh : ∀ x r, a = .pushRecord x r → r ∉ list')
    (hh : ∀ x, a.holder? = some x → s'.holder x = s.holder x)
    (hreal : ∀ x r, a.holder? = some x → s.holder x = some r → s'.realptr r = s.realptr r) :
    ActOk s' list' a := by
  cases a with
  | loadActive x r => exact ⟨hl r h.1, (hh x rfl).trans h.2⟩
  | casActive x r => exact ⟨hl r h.1, (hh x rfl).trans h.2⟩
  | countRecord x r => exact ⟨hl r h.1, (hh x rfl).trans h.2⟩
  | newRecord x => exact (hh x rfl).trans h
  | pushRecord x r => exact ⟨hfresh x r rfl, (hh x rfl).trans h.2⟩
  | publish x p src =>
    obtain ⟨r, hr⟩ := h
    exact ⟨r, (hh x rfl).trans hr⟩
  | retract x p src again =>
    obtain ⟨r, hr⟩ := h
    exact ⟨r, (hh x rfl).trans hr⟩
  | validate x p src again =>
    obtain ⟨r, hr, hp⟩ := h
    exact ⟨r, (hh x rfl).trans hr, (hreal x r rfl hr).trans hp⟩
  | releaseRecord r => exact hl r h
  | scan r => exact hl r h
  | dropCached rest => exact fun r hr => hl r (h r hr)
  | _ => trivial

theorem Records.step (h : Records s list) (t : Tid)
    (hlinked : Segment s'.recNext s'.hazptrList list' none) (hl : ∀ r ∈ list, r ∈ list')
    (halloc : ∀ r ∈ list', s'.allocated r) (hunique : ∀ r u v, Uses s' r u → Uses s' r v → u = v)
    (hused : ∀ r u, Uses s' r u → s'.allocated r ∧ s'.active r = true)
    (hholder : ∀ x r, s'.holder x = some r → r ∈ list')
    (hpool : ∀ u, (s'.pool u).Nodup ∧ ∀ r ∈ s'.pool u, r ∈ list')
    (hother : ∀ u, u ≠ t → (s'.thread u).act = (s.thread u).act)
    (hfresh : ∀ u x r, u ≠ t → (s.thread u).act = .pushRecord x r → r ∉ list')
    (hh : ∀ u x, u ≠ t → (s.thread u).act.holder? = some x → s'.holder x = s.holder x)
    (hreal : ∀ u x r, u ≠ t → (s.thread u).act.holder? = some x → s.holder x = some r →
      s'.realptr r = s.realptr r)
    (hbusy : ∀ x, (s'.thread t).act.holder? = some x → (s.thread t).act.holder? = some x ∨ s.Free x)
    (hrecs : (s'.thread t).act.recs.Nodup) (hok : ActOk s' list' (s'.thread t).act) : Records s' list' := by
  have hbusy' : ∀ u x, u ≠ t → (s'.thread u).act.holder? = some x → (s'.thread t).act.holder? ≠ some x := by
    intro u x hu hx ht
    rw [hother u hu] at hx
    rcases hbusy x ht with ht | hf
    · exact hu (h.busy u t x hx ht)
    · exact hf u hx
  constructor
  · exact hlinked
  · exact halloc
  · exact hunique
  · exact hused
  · intro u
    by_cases hu : u = t
    · rw [hu]
      exact hrecs
    · rw [hother u hu]
      exact h.recsNodup u
  · intro u
    exact (hpool u).1
  · exact hholder
  · intro u
    exact (hpool u).2
  · intro u v x hu hv
    by_cases hut : u = t
    · by_cases hvt : v = t
      · rw [hut, hvt]
      · rw [hut] at hu
        exact absurd hu (hbusy' v x hvt hv)
    · by_cases hvt : v = t
      · rw [hvt] at hv
        exact absurd hv (hbusy' u x hut hu)
      · rw [hother u hut] at hu
        rw [hother v hvt] at hv
        exact h.busy u v x hu hv
  · intro u
    by_cases hu : u = t
    · rw [hu]
      exact hok
    · rw [hother u hu]
      exact (h.act u).frame hl (fun x r => hfresh u x r hu) (fun x => hh u x hu) (fun x r => hreal u x r hu)

theorem Records.fresh (h : Records s list) {u : Tid} {x : Holder} {r : Rec}
    (ha : (s.thread u).act = .pushRecord x r) : r ∉ list := by
  have hok := h.act u
  rw [ha] at hok
  exact hok.1

theorem Records.quiet (h : Records s list) (t : Tid) (h1 : s'.recNext = s.recNext)
    (h2 : s'.hazptrList = s.hazptrList) (h3 : s'.allocated = s.allocated) (h4 : s'.active = s.active)
    (h5 : s'.holder = s.holder) (h6 : s'.pool = s.pool)
    (hother : ∀ u, u ≠ t → (s'.thread u).act = (s.thread u).act)
    (hreal : ∀ u x r, u ≠ t → (s.thread u).act.holder? = some x → s.holder x = some r →
      s'.realptr r = s.realptr r)
    (hbusy : ∀ x, (s'.thread t).act.holder? = some x → (s.thread t).act.holder? = some x ∨ s.Free x)
    (hrecs : (s'.thread t).act.recs = [] ∨ (s'.thread t).act.recs = (s.thread t).act.recs)
    (hok : ActOk s' list (s'.thread t).act) : Records s' list := by
  have huses : ∀ r u, Uses s' r u → Uses s r u := by
    intro r u hu
    cases u with
    | holder x =>
      simp only [Uses, h5] at hu
      exact hu
    | pool v =>
      simp only [Uses, h6] at hu
      exact hu
    | thread v =>
      simp only [Uses] at hu ⊢
      by_cases hv : v = t
      · rw [hv] at hu ⊢
        rcases hrecs with hnil | hsame
        · rw [hnil] at hu
          cases hu
        · rw [← hsame]
          exact hu
      · rw [← hother v hv]
        exact hu
  refine h.step t ?_ (fun r hr => hr) ?_ ?_ ?_ ?_ ?_ hother (fun u x r _ => h.fresh) ?_ hreal hbusy ?_ hok
  · rw [h1, h2]
    exact h.linked
  · rw [h3]
    exact h.allocated
  · intro r u v hu hv
    exact h.unique r u v (huses r u hu) (huses r v hv)
  · intro r u hu
    rw [h3, h4]
    exact h.used r u (huses r u hu)
  · rw [h5]
    exact h.holder
  · intro u
    rw [h6]
    exact ⟨h.poolNodup u, h.pool u⟩
  · intro u x _ _
    rw [h5]
  · rcases hrecs with hnil | hsame
    · rw [hnil]
      exact List.nodup_nil
    · rw [hsame]
      exact h.recsNodup t

section Uses

variable {r₀ : Rec} {p₀ : User Holder Tid} (u₀ : User Holder Tid)

theorem Records.unique_of_move (h : Records s list) (h₀ : Uses s r₀ p₀)
    (hm : ∀ r u, Uses s' r u → r = r₀ ∧ u = u₀ ∨ Uses s r u ∧ (u = p₀ → r ≠ r₀)) :
    ∀ r u v, Uses s' r u → Uses s' r v → u = v := by
  have hold : ∀ u, ¬ (Uses s r₀ u ∧ (u = p₀ → r₀ ≠ r₀)) := by
    rintro u ⟨hu, hne⟩
    exact hne (h.unique r₀ u p₀ hu h₀) rfl
  intro r u v hu hv
  rcases hm r u hu with ⟨rfl, rfl⟩ | hu'
  · rcases hm r v hv with ⟨-, rfl⟩ | hv'
    · rfl
    · exact absurd hv' (hold v)
  · rcases hm r v hv with ⟨rfl, rfl⟩ | hv'
    · exact absurd hu' (hold u)
    · exact h.unique r u v hu'.1 hv'.1

theorem Records.unique_of_new (h : Records s list) (h₀ : ∀ u, ¬ Uses s r₀ u)
    (hm : ∀ r u, Uses s' r u → r = r₀ ∧ u = u₀ ∨ Uses s r u) :
    ∀ r u v, Uses s' r u → Uses s' r v → u = v := by
  intro r u v hu hv
  rcases hm r u hu with ⟨rfl, rfl⟩ | hu'
  · rcases hm r v hv with ⟨-, rfl⟩ | hv'
    · rfl
    · exact absurd hv' (h₀ v)
  · rcases hm r v hv with ⟨rfl, rfl⟩ | hv'
    · exact absurd hu' (h₀ u)
    · exact h.unique r u v hu' hv'

end Uses

theorem Records.other_ne (h : Records s list) {u : Tid} {x y : Holder}
    (hy : s.Free y ∨ (s.thread t).act.holder? = some y) (hu : u ≠ t)
    (hx : (s.thread u).act.holder? = some x) : x ≠ y := by
  intro hxy
  rw [hxy] at hx
  rcases hy with hf | ht
  · exact hf u hx
  · exact hu (h.busy u t y hx ht)

variable [DecidableEq Tid]

omit [DecidableEq Tid] in
theorem Records.holder_pool (h : Records s list) {x : Holder} {r : Rec} (hx : s.holder x = some r) (u : Tid) :
    r ∉ s.pool u := by
  intro hu
  cases h.unique r (.holder x) (.pool u) hx hu

omit [DecidableEq Tid] in
theorem Records.holder_inj (h : Records s list) {x y : Holder} {r : Rec} (hx : s.holder x = some r)
    (hy : s.holder y = some r) : x = y :=
  User.holder.inj (h.unique r (.holder x) (.holder y) hx hy)

theorem Records.dropPool (h : Records s list) {th : Thread Obj Rec Cell Holder}
    (ha : th.act = .dropCached (s.pool t).reverse) :
    Records ({ s with pool := Function.update s.pool t [] }.setThread t th) list := by
  have hth : ∀ u, u ≠ t →
      (({ s with pool := Function.update s.pool t [] }.setThread t th).thread u) = s.thread u := by
    intro u hu
    simp [State.setThread, hu]
  have hself : (({ s with pool := Function.update s.pool t [] }.setThread t th).thread t).act =
      .dropCached (s.pool t).reverse := by
    simp [State.setThread, ha]
  have huses : ∀ r u, Uses ({ s with pool := Function.update s.pool t [] }.setThread t th) r u →
      u = .thread t ∧ Uses s r (.pool t) ∨ Uses s r u ∧ u ≠ .pool t ∧ u ≠ .thread t := by
    intro r u hu
    cases u with
    | holder x => exact .inr ⟨hu, by simp, by simp⟩
    | pool v =>
      by_cases hv : v = t
      · simp [Uses, State.setThread, hv] at hu
      · refine .inr ⟨?_, by simpa using hv, by simp⟩
        simpa [Uses, State.setThread, hv] using hu
    | thread v =>
      by_cases hv : v = t
      · refine .inl ⟨by rw [hv], ?_⟩
        rw [hv] at hu
        simp only [Uses, hself, Act.recs, List.mem_reverse] at hu
        exact hu
      · refine .inr ⟨?_, by simp, by simpa using hv⟩
        simp only [Uses, hth v hv] at hu
        exact hu
  refine h.step t h.linked (fun r hr => hr) h.allocated ?_ ?_ h.holder ?_ ?_ (fun u x r _ => h.fresh)
    (fun _ _ _ _ => rfl) (fun _ _ _ _ _ _ => rfl) ?_ ?_ ?_
  · intro r u v hu hv
    rcases huses r u hu with ⟨rfl, hu'⟩ | ⟨hu', hne, -⟩
    · rcases huses r v hv with ⟨rfl, -⟩ | ⟨hv', hne, -⟩
      · rfl
      · exact absurd (h.unique r v _ hv' hu') hne
    · rcases huses r v hv with ⟨rfl, hv'⟩ | ⟨hv', -, -⟩
      · exact absurd (h.unique r u _ hu' hv') hne
      · exact h.unique r u v hu' hv'
  · intro r u hu
    rcases huses r u hu with ⟨-, hu'⟩ | ⟨hu', -, -⟩
    · exact h.used r _ hu'
    · exact h.used r _ hu'
  · intro u
    by_cases hu : u = t
    · simp [State.setThread, hu]
    · simpa [State.setThread, hu] using ⟨h.poolNodup u, h.pool u⟩
  · intro u hu
    rw [hth u hu]
  · intro x hx
    rw [hself] at hx
    cases hx
  · rw [hself]
    exact List.nodup_reverse.2 (h.poolNodup t)
  · rw [hself]
    intro r hr
    exact h.pool t r (List.mem_reverse.1 hr)

theorem Records.finish (h : Records s list) : Records (s.finish t) list := by
  unfold State.finish
  split
  · exact h.dropPool rfl
  · refine h.quiet t rfl rfl rfl rfl rfl rfl ?_ (fun _ _ _ _ _ _ => rfl) ?_ (.inl ?_) ?_
    · intro u hu
      simp [State.setAct, State.setThread, hu]
    · intro x hx
      simp [State.setAct, State.setThread, Act.holder?] at hx
    · simp [State.setAct, State.setThread, Act.recs]
    · simp [State.setAct, State.setThread, ActOk]

variable [DecidableEq Holder]

theorem Records.acquireCached (h : Records s list) {x : Holder} {r : Rec} {rest : List Rec}
    (hf : s.Free x) (hp : s.pool t = r :: rest) :
    Records ({ s with pool := Function.update s.pool t rest }.setHolder x (some r)) list := by
  have h₀ : Uses s r (.pool t) := by simp [Uses, hp]
  have hnd := h.poolNodup t
  rw [hp, List.nodup_cons] at hnd
  have hm : ∀ r' u, Uses ({ s with pool := Function.update s.pool t rest }.setHolder x (some r)) r' u →
      r' = r ∧ u = .holder x ∨ Uses s r' u ∧ (u = .pool t → r' ≠ r) := by
    intro r' u hu
    cases u with
    | holder y =>
      by_cases hy : y = x
      · refine .inl ⟨?_, by rw [hy]⟩
        have hr : r = r' := by simpa [Uses, State.setHolder, hy] using hu
        exact hr.symm
      · refine .inr ⟨?_, by simp⟩
        simpa [Uses, State.setHolder, hy] using hu
    | pool v =>
      by_cases hv : v = t
      · have hr : r' ∈ rest := by simpa [Uses, State.setHolder, hv] using hu
        exact .inr ⟨by simp [Uses, hv, hp, hr], fun _ => ne_of_mem_of_not_mem hr hnd.1⟩
      · refine .inr ⟨?_, fun he => absurd (User.pool.inj he) hv⟩
        simpa [Uses, State.setHolder, hv] using hu
    | thread v => exact .inr ⟨hu, by simp⟩
  refine h.step t h.linked (fun r hr => hr) h.allocated (h.unique_of_move (.holder x) h₀ hm) ?_ ?_ ?_ (fun _ _ => rfl)
    (fun u x r _ => h.fresh) ?_ (fun _ _ _ _ _ _ => rfl) (fun _ hx => .inl hx) (h.recsNodup t) ?_
  · intro r' u hu
    rcases hm r' u hu with ⟨rfl, -⟩ | ⟨hu', -⟩
    · exact h.used r' _ h₀
    · exact h.used r' _ hu'
  · intro y r' hy
    by_cases hyx : y = x
    · have hr : r = r' := by simpa [State.setHolder, hyx] using hy
      rw [← hr]
      exact h.pool t r (by simp [hp])
    · exact h.holder y r' (by simpa [State.setHolder, hyx] using hy)
  · intro u
    by_cases hu : u = t
    · simp only [State.setHolder, hu, Function.update_self]
      exact ⟨hnd.2, fun r' hr => h.pool t r' (by simp [hp, hr])⟩
    · simp only [State.setHolder, Function.update_of_ne hu]
      exact ⟨h.poolNodup u, h.pool u⟩
  · intro u y hu hy
    simp [State.setHolder, h.other_ne (.inl hf) hu hy]
  · apply (h.act t).frame (fun r hr => hr) (fun y r' ha => h.fresh ha)
    · intro y hy
      have hne : y ≠ x := by
        intro hyx
        rw [hyx] at hy
        exact hf t hy
      simp [State.setHolder, hne]
    · intro y r' _ _
      rfl

theorem Records.give (h : Records s list) {x : Holder} {r : Rec} {active : Rec → Bool} {count : Int}
    (hb : (s.thread t).act.holder? = some x) (hr : r ∈ list)
    (hu : (s.thread t).act.recs = [r] ∨ (∀ u, ¬ Uses s r u) ∧ (s.thread t).act.recs = [])
    (hact : active r = true) (hmono : ∀ q, s.active q = true → active q = true) :
    Records (({ s with active := active, hazptrCount := count }.setHolder x (some r)).setAct t .client)
      list := by
  have hth : ∀ u, u ≠ t → (({ s with active := active, hazptrCount := count }.setHolder x (some r)).setAct t
      .client).thread u = s.thread u := by
    intro u hu
    simp [State.setAct, State.setThread, State.setHolder, hu]
  have hself : ((({ s with active := active, hazptrCount := count }.setHolder x (some r)).setAct t
      .client).thread t).act = .client := by
    simp [State.setAct, State.setThread]
  have hm : ∀ r' u, Uses (({ s with active := active, hazptrCount := count }.setHolder x (some r)).setAct t
      .client) r' u → r' = r ∧ u = .holder x ∨ Uses s r' u ∧ u ≠ .thread t := by
    intro r' u hu
    cases u with
    | holder y =>
      by_cases hy : y = x
      · have hrr : r = r' := by simpa [Uses, State.setAct, State.setThread, State.setHolder, hy] using hu
        exact .inl ⟨hrr.symm, by rw [hy]⟩
      · refine .inr ⟨?_, by simp⟩
        simpa [Uses, State.setAct, State.setThread, State.setHolder, hy] using hu
    | pool v => exact .inr ⟨hu, by simp⟩
    | thread v =>
      by_cases hv : v = t
      · rw [hv] at hu
        simp only [Uses, hself, Act.recs] at hu
        cases hu
      · refine .inr ⟨?_, fun he => hv (User.thread.inj he)⟩
        simp only [Uses, hth v hv] at hu
        exact hu
  refine h.step t h.linked (fun q hq => hq) h.allocated ?_ ?_ ?_ (fun u => ⟨h.poolNodup u, h.pool u⟩) ?_
    (fun u x r _ => h.fresh) ?_ (fun _ _ _ _ _ _ => rfl) ?_ ?_ ?_
  · rcases hu with hrecs | ⟨hnone, -⟩
    · have h₀ : Uses s r (.thread t) := by simp [Uses, hrecs]
      refine h.unique_of_move (.holder x) h₀ ?_
      intro r' u hru
      rcases hm r' u hru with hnew | ⟨hold, hne⟩
      · exact .inl hnew
      · exact .inr ⟨hold, fun he => absurd he hne⟩
    · refine h.unique_of_new (.holder x) hnone ?_
      intro r' u hru
      rcases hm r' u hru with hnew | ⟨hold, -⟩
      · exact .inl hnew
      · exact .inr hold
  · intro r' u hru
    rcases hm r' u hru with ⟨rfl, -⟩ | ⟨hold, -⟩
    · exact ⟨h.allocated r' hr, hact⟩
    · obtain ⟨h1, h2⟩ := h.used r' u hold
      exact ⟨h1, hmono r' h2⟩
  · intro y r' hy
    by_cases hyx : y = x
    · have hrr : r = r' := by simpa [State.setAct, State.setThread, State.setHolder, hyx] using hy
      rw [← hrr]
      exact hr
    · exact h.holder y r' (by simpa [State.setAct, State.setThread, State.setHolder, hyx] using hy)
  · intro u hu
    rw [hth u hu]
  · intro u y hu hy
    simp [State.setAct, State.setThread, State.setHolder, h.other_ne (.inr hb) hu hy]
  · intro y hy
    rw [hself] at hy
    cases hy
  · rw [hself]
    exact List.nodup_nil
  · rw [hself]
    trivial

omit [DecidableEq Tid] in
theorem Records.swap (h : Records s list) (t : Tid) {x y : Holder} {r q : Rec} (hx : s.holder x = some r)
    (hy : s.holder y = some q) (hfx : s.Free x) (hfy : s.Free y) :
    Records ((s.setHolder x (some q)).setHolder y (some r)) list := by
  have hholder : ∀ z, ((s.setHolder x (some q)).setHolder y (some r)).holder z =
      s.holder (Equiv.swap x y z) := by
    intro z
    simp only [State.setHolder, Function.update_apply, Equiv.swap_apply_def]
    by_cases hzy : z = y
    · subst hzy
      by_cases hzx : z = x
      · subst hzx
        simp [hx]
      · simp [hzx, hx]
    · by_cases hzx : z = x
      · subst hzx
        simp [hzy, hy]
      · simp [hzx, hzy]
  have hf : ∀ u z, (s.thread u).act.holder? = some z → s.holder (Equiv.swap x y z) = s.holder z := by
    intro u z hz
    rw [Equiv.swap_apply_of_ne_of_ne]
    · intro hzx
      rw [hzx] at hz
      exact hfx u hz
    · intro hzy
      rw [hzy] at hz
      exact hfy u hz
  have hm : ∀ p u, Uses ((s.setHolder x (some q)).setHolder y (some r)) p u →
      Uses s p (match u with | .holder z => .holder (Equiv.swap x y z) | v => v) := by
    intro p u hu
    cases u with
    | holder z =>
      simp only [Uses, hholder] at hu
      exact hu
    | _ => exact hu
  refine h.step t h.linked (fun _ hr => hr) h.allocated ?_ ?_ ?_ (fun u => ⟨h.poolNodup u, h.pool u⟩)
    (fun _ _ => rfl) (fun u x r _ => h.fresh) ?_ (fun _ _ _ _ _ _ => rfl) (fun _ hz => .inl hz)
    (h.recsNodup t) ?_
  · intro p u v hu hv
    have huv := h.unique p _ _ (hm p u hu) (hm p v hv)
    cases u <;> cases v <;> simp_all
  · intro p u hu
    exact h.used p _ (hm p u hu)
  · intro z p hz
    rw [hholder] at hz
    exact h.holder _ p hz
  · intro u z _ hz
    rw [hholder, hf u z hz]
  · apply (h.act t).frame (fun _ hr => hr) (fun z p ha => h.fresh ha)
    · intro z hz
      rw [hholder, hf t z hz]
    · intro z p _ _
      rfl

variable [DecidableEq Rec]

omit [DecidableEq Holder] in
theorem Records.storeReal (h : Records s list) {x : Holder} {r : Rec} {p : Option Obj}
    {a : Act Obj Rec Cell Holder} (hx : s.holder x = some r)
    (hb : s.Free x ∨ (s.thread t).act.holder? = some x)
    (ha : ∀ y, a.holder? = some y → (s.thread t).act.holder? = some y ∨ s.Free y) (hrecs : a.recs = [])
    (hok : ActOk (s.storeReal r p) list a) : Records ((s.storeReal r p).setAct t a) list := by
  refine h.quiet t rfl rfl rfl rfl rfl rfl ?_ ?_ ?_ (.inl ?_) ?_
  · intro u hu
    simp [State.setAct, State.setThread, State.storeReal, hu]
  · intro u y q hu hy hq
    have hqr : q ≠ r := by
      intro hqr
      rw [hqr] at hq
      exact h.other_ne hb hu hy (h.holder_inj hq hx)
    simp [State.setAct, State.setThread, State.storeReal, hqr]
  · intro y hy
    exact ha y (by simpa [State.setAct, State.setThread] using hy)
  · simpa [State.setAct, State.setThread] using hrecs
  · have hact : (((s.storeReal r p).setAct t a).thread t).act = a := by simp [State.setAct, State.setThread]
    rw [hact]
    cases a <;> exact hok

theorem Records.destroy (h : Records s list) {x : Holder} {r : Rec} (hx : s.holder x = some r) (hf : s.Free x) :
    Records (((s.storeReal r none).setHolder x none).setAct t (.releaseRecord r)) list := by
  have h₀ : Uses s r (.holder x) := hx
  have hth : ∀ u, u ≠ t → (((s.storeReal r none).setHolder x none).setAct t (.releaseRecord r)).thread u =
      s.thread u := by
    intro u hu
    simp [State.setAct, State.setThread, State.setHolder, State.storeReal, hu]
  have hself : ((((s.storeReal r none).setHolder x none).setAct t (.releaseRecord r)).thread t).act =
      .releaseRecord r := by
    simp [State.setAct, State.setThread]
  have hm : ∀ q u, Uses (((s.storeReal r none).setHolder x none).setAct t (.releaseRecord r)) q u →
      q = r ∧ u = .thread t ∨ Uses s q u ∧ (u = .holder x → q ≠ r) := by
    intro q u hu
    cases u with
    | holder y =>
      by_cases hy : y = x
      · simp [Uses, State.setAct, State.setThread, State.setHolder, hy] at hu
      · refine .inr ⟨?_, fun he => absurd (User.holder.inj he) hy⟩
        simpa [Uses, State.setAct, State.setThread, State.setHolder, State.storeReal, hy] using hu
    | pool v => exact .inr ⟨hu, by simp⟩
    | thread v =>
      by_cases hv : v = t
      · rw [hv] at hu
        simp only [Uses, hself, Act.recs, List.mem_singleton] at hu
        exact .inl ⟨hu, by rw [hv]⟩
      · refine .inr ⟨?_, by simp⟩
        simp only [Uses, hth v hv] at hu
        exact hu
  refine h.step t h.linked (fun _ hq => hq) h.allocated (h.unique_of_move (.thread t) h₀ hm) ?_ ?_
    (fun u => ⟨h.poolNodup u, h.pool u⟩) ?_ (fun u x r _ => h.fresh) ?_ ?_ ?_ ?_ ?_
  · intro q u hu
    rcases hm q u hu with ⟨rfl, -⟩ | ⟨hu', -⟩
    · exact h.used q _ h₀
    · exact h.used q u hu'
  · intro y q hy
    by_cases hyx : y = x
    · simp [State.setAct, State.setThread, State.setHolder, hyx] at hy
    · exact h.holder y q (by
        simpa [State.setAct, State.setThread, State.setHolder, State.storeReal, hyx] using hy)
  · intro u hu
    rw [hth u hu]
  · intro u y hu hy
    simp [State.setAct, State.setThread, State.setHolder, State.storeReal, h.other_ne (.inl hf) hu hy]
  · intro u y q hu hy hq
    have hqr : q ≠ r := by
      intro hqr
      rw [hqr] at hq
      exact h.other_ne (.inl hf) hu hy (h.holder_inj hq hx)
    simp [State.setAct, State.setThread, State.setHolder, State.storeReal, hqr]
  · intro y hy
    rw [hself] at hy
    cases hy
  · rw [hself]
    exact List.nodup_singleton r
  · rw [hself]
    exact h.holder x r hx

/-- The same when the record goes to the cache of the thread, or is leaked. -/
theorem Records.destroyCached (h : Records s list) {x : Holder} {r : Rec} (ha : (s.thread t).act = .client)
    (hx : s.holder x = some r) (hf : s.Free x) :
    Records (((s.storeReal r none).setHolder x none).freeCachedRec t r) list := by
  have h₀ : Uses s r (.holder x) := hx
  have hfree : ∃ pool : Tid → List Rec, ((s.storeReal r none).setHolder x none).freeCachedRec t r =
      { (s.storeReal r none).setHolder x none with pool := pool } ∧
      (pool = s.pool ∨ pool = Function.update s.pool t (r :: s.pool t)) := by
    unfold State.freeCachedRec
    split
    · exact ⟨_, rfl, .inr rfl⟩
    · exact ⟨s.pool, rfl, .inl rfl⟩
  obtain ⟨pool, he, hpool⟩ := hfree
  rw [he]
  have hpm : ∀ v q, q ∈ pool v → q = r ∧ v = t ∨ q ∈ s.pool v := by
    intro v q hq
    rcases hpool with rfl | rfl
    · exact .inr hq
    · by_cases hv : v = t
      · rw [hv, Function.update_self, List.mem_cons] at hq
        rcases hq with rfl | hq
        · exact .inl ⟨rfl, hv⟩
        · exact .inr (by rw [hv]; exact hq)
      · rw [Function.update_of_ne hv] at hq
        exact .inr hq
  have hm : ∀ q u, Uses { (s.storeReal r none).setHolder x none with pool := pool } q u →
      q = r ∧ u = .pool t ∨ Uses s q u ∧ (u = .holder x → q ≠ r) := by
    intro q u hu
    cases u with
    | holder y =>
      by_cases hy : y = x
      · simp [Uses, State.setHolder, hy] at hu
      · refine .inr ⟨?_, fun he => absurd (User.holder.inj he) hy⟩
        simpa [Uses, State.setHolder, State.storeReal, hy] using hu
    | pool v =>
      rcases hpm v q hu with ⟨hq, hv⟩ | hq
      · exact .inl ⟨hq, by rw [hv]⟩
      · exact .inr ⟨hq, by simp⟩
    | thread v => exact .inr ⟨hu, by simp⟩
  refine h.step t h.linked (fun _ hq => hq) h.allocated (h.unique_of_move (.pool t) h₀ hm) ?_ ?_ ?_
    (fun _ _ => rfl) (fun u x r _ => h.fresh) ?_ ?_ (fun _ hy => .inl hy) (h.recsNodup t) ?_
  · intro q u hu
    rcases hm q u hu with ⟨rfl, -⟩ | ⟨hu', -⟩
    · exact h.used q _ h₀
    · exact h.used q u hu'
  · intro y q hy
    by_cases hyx : y = x
    · simp [State.setHolder, hyx] at hy
    · exact h.holder y q (by simpa [State.setHolder, State.storeReal, hyx] using hy)
  · intro u
    constructor
    · rcases hpool with rfl | rfl
      · exact h.poolNodup u
      · by_cases hu : u = t
        · simpa [hu] using ⟨h.holder_pool hx t, h.poolNodup t⟩
        · simpa [hu] using h.poolNodup u
    · intro q hq
      rcases hpm u q hq with ⟨rfl, -⟩ | hq
      · exact h.holder x q hx
      · exact h.pool u q hq
  · intro u y hu hy
    simp [State.setHolder, State.storeReal, h.other_ne (.inl hf) hu hy]
  · intro u y q hu hy hq
    have hqr : q ≠ r := by
      intro hqr
      rw [hqr] at hq
      exact h.other_ne (.inl hf) hu hy (h.holder_inj hq hx)
    simp [State.setHolder, State.storeReal, hqr]
  · show ActOk _ list (s.thread t).act
    rw [ha]
    trivial

omit [DecidableEq Holder] in
theorem Records.newRecord (h : Records s list) {x : Holder} {r : Rec} (ha : (s.thread t).act = .newRecord x)
    (hr : ¬ s.allocated r) :
    Records ({ s with
      allocated := fun q => q = r ∨ s.allocated q
      active := Function.update s.active r true
      realptr := Function.update s.realptr r none
      recNext := Function.update s.recNext r s.hazptrList }.setAct t (.pushRecord x r)) list := by
  have hfresh : r ∉ list := fun hl => hr (h.allocated r hl)
  have hunused : ∀ u, ¬ Uses s r u := fun u hu => hr (h.used r u hu).1
  have hx : s.holder x = none := by
    have hok := h.act t
    rw [ha] at hok
    exact hok
  have hm : ∀ q u, Uses ({ s with
      allocated := fun q => q = r ∨ s.allocated q
      active := Function.update s.active r true
      realptr := Function.update s.realptr r none
      recNext := Function.update s.recNext r s.hazptrList }.setAct t (.pushRecord x r)) q u →
      q = r ∧ u = .thread t ∨ Uses s q u := by
    intro q u hu
    cases u with
    | holder y => exact .inr hu
    | pool v => exact .inr hu
    | thread v =>
      by_cases hv : v = t
      · have hq : q = r := by simpa [Uses, State.setAct, State.setThread, Act.recs, hv] using hu
        exact .inl ⟨hq, by rw [hv]⟩
      · refine .inr ?_
        simpa [Uses, State.setAct, State.setThread, hv] using hu
  refine h.step t ?_ (fun _ hq => hq) (fun q hq => .inr (h.allocated q hq))
    (h.unique_of_new (.thread t) hunused hm) ?_ h.holder (fun u => ⟨h.poolNodup u, h.pool u⟩) ?_
    (fun u x r _ => h.fresh) (fun _ _ _ _ => rfl) ?_ ?_ ?_ ?_
  · apply h.linked.congr
    intro q hq
    exact Function.update_of_ne (ne_of_mem_of_not_mem hq hfresh) _ _
  · intro q u hu
    by_cases hq : q = r
    · exact ⟨.inl hq, by simp [State.setAct, State.setThread, hq]⟩
    · obtain ⟨h1, h2⟩ := h.used q u ((hm q u hu).resolve_left (fun hh => hq hh.1))
      exact ⟨.inr h1, by simpa [State.setAct, State.setThread, hq] using h2⟩
  · intro u hu
    simp [State.setAct, State.setThread, hu]
  · intro u y q hu hy hq
    have hqr : q ≠ r := by
      intro hqr
      rw [hqr] at hq
      exact hunused (.holder y) hq
    simp [State.setAct, State.setThread, hqr]
  · intro y hy
    have hxy : x = y := by simpa [State.setAct, State.setThread, Act.holder?] using hy
    rw [ha, hxy]
    exact .inl rfl
  · simp [State.setAct, State.setThread, Act.recs]
  · simpa [State.setAct, State.setThread, ActOk] using ⟨hfresh, hx⟩

omit [DecidableEq Holder] [DecidableEq Rec] in
theorem Records.pushRecordOk (h : Records s list) {x : Holder} {r : Rec}
    (ha : (s.thread t).act = .pushRecord x r) (he : s.hazptrList = s.recNext r) :
    Records ({ s with hazptrList := some r }.setAct t (.countRecord x r)) (r :: list) := by
  have hok := h.act t
  rw [ha] at hok
  have huses : Uses s r (.thread t) := by simp [Uses, ha, Act.recs]
  have hm : ∀ q u, Uses ({ s with hazptrList := some r }.setAct t (.countRecord x r)) q u → Uses s q u := by
    intro q u hu
    cases u with
    | thread v =>
      by_cases hv : v = t
      · have hq : q = r := by simpa [Uses, State.setAct, State.setThread, Act.recs, hv] using hu
        rw [hq, hv]
        exact huses
      · simpa [Uses, State.setAct, State.setThread, hv] using hu
    | _ => exact hu
  refine h.step t ⟨rfl, ?_⟩ (fun _ hq => List.mem_cons_of_mem _ hq) ?_ ?_ ?_ ?_ ?_ ?_ ?_
    (fun _ _ _ _ => rfl) (fun _ _ _ _ _ _ => rfl) ?_ ?_ ?_
  · show Segment s.recNext (s.recNext r) list none
    rw [← he]
    exact h.linked
  · intro q hq
    rcases List.mem_cons.1 hq with rfl | hq
    · exact (h.used q _ huses).1
    · exact h.allocated q hq
  · intro q u v hu hv
    exact h.unique q u v (hm q u hu) (hm q v hv)
  · intro q u hu
    exact h.used q u (hm q u hu)
  · intro y q hy
    exact List.mem_cons_of_mem _ (h.holder y q hy)
  · intro u
    exact ⟨h.poolNodup u, fun q hq => List.mem_cons_of_mem _ (h.pool u q hq)⟩
  · intro u hu
    simp [State.setAct, State.setThread, hu]
  · intro u y q hu hq hmem
    rcases List.mem_cons.1 hmem with rfl | hmem
    · have huses' : Uses s q (.thread u) := by simp [Uses, hq, Act.recs]
      exact hu (User.thread.inj (h.unique q _ _ huses' huses))
    · exact h.fresh hq hmem
  · intro y hy
    have hxy : x = y := by simpa [State.setAct, State.setThread, Act.holder?] using hy
    rw [ha, hxy]
    exact .inl rfl
  · simp [State.setAct, State.setThread, Act.recs]
  · simpa [State.setAct, State.setThread, ActOk] using hok.2

omit [DecidableEq Holder] [DecidableEq Tid] in
theorem Records.pushRecordFail (h : Records s list) {x : Holder} {r : Rec}
    (ha : (s.thread t).act = .pushRecord x r) :
    Records { s with recNext := Function.update s.recNext r s.hazptrList } list := by
  refine h.step t ?_ (fun _ hq => hq) h.allocated h.unique h.used h.holder
    (fun u => ⟨h.poolNodup u, h.pool u⟩) (fun _ _ => rfl) (fun u x r _ => h.fresh) (fun _ _ _ _ => rfl)
    (fun _ _ _ _ _ _ => rfl) (fun _ hy => .inl hy) (h.recsNodup t) ?_
  · apply h.linked.congr
    intro q hq
    exact Function.update_of_ne (ne_of_mem_of_not_mem hq (h.fresh ha)) _ _
  · exact (h.act t).frame (fun _ hq => hq) (fun _ _ => h.fresh) (fun _ _ => rfl) (fun _ _ _ _ => rfl)

omit [DecidableEq Holder] in
theorem Records.release (h : Records s list) {r : Rec} {rest : List Rec} {a : Act Obj Rec Cell Holder}
    (ha : (s.thread t).act.recs = r :: rest) (hrecs : a.recs = rest) (hb : a.holder? = none)
    (hok : ActOk s list a) : Records ({ s with active := Function.update s.active r false }.setAct t a) list := by
  have hnd := h.recsNodup t
  rw [ha, List.nodup_cons] at hnd
  have h₀ : Uses s r (.thread t) := by simp [Uses, ha]
  have hm : ∀ q u, Uses ({ s with active := Function.update s.active r false }.setAct t a) q u →
      Uses s q u ∧ q ≠ r := by
    intro q u hu
    have hother : u ≠ .thread t → Uses s q u → Uses s q u ∧ q ≠ r := by
      intro hne hq
      refine ⟨hq, fun hqr => ?_⟩
      rw [hqr] at hq
      exact hne (h.unique r u _ hq h₀)
    cases u with
    | holder y => exact hother (by simp) hu
    | pool v => exact hother (by simp) hu
    | thread v =>
      by_cases hv : v = t
      · have hq : q ∈ rest := by simpa [Uses, State.setAct, State.setThread, hv, hrecs] using hu
        exact ⟨by simp [Uses, hv, ha, hq], ne_of_mem_of_not_mem hq hnd.1⟩
      · exact hother (fun he => hv (User.thread.inj he)) (by
          simpa [Uses, State.setAct, State.setThread, hv] using hu)
  have hself : (({ s with active := Function.update s.active r false }.setAct t a).thread t).act = a := by
    simp [State.setAct, State.setThread]
  refine h.step t h.linked (fun _ hq => hq) h.allocated ?_ ?_ h.holder (fun u => ⟨h.poolNodup u, h.pool u⟩) ?_
    (fun u x r _ => h.fresh) (fun _ _ _ _ => rfl) (fun _ _ _ _ _ _ => rfl) ?_ ?_ ?_
  · intro q u v hu hv
    exact h.unique q u v (hm q u hu).1 (hm q v hv).1
  · intro q u hu
    obtain ⟨hq, hne⟩ := hm q u hu
    obtain ⟨h1, h2⟩ := h.used q u hq
    exact ⟨h1, by simpa [State.setAct, State.setThread, hne] using h2⟩
  · intro u hu
    simp [State.setAct, State.setThread, hu]
  · intro y hy
    rw [hself, hb] at hy
    cases hy
  · rw [hself, hrecs]
    exact hnd.2
  · rw [hself]
    cases a <;> exact hok

omit [DecidableEq Tid] [DecidableEq Holder] [DecidableEq Rec] in
theorem Records.outside (h : Records s list) {a : Act Obj Rec Cell Holder} (h1 : s'.recNext = s.recNext)
    (h2 : s'.hazptrList = s.hazptrList) (h3 : s'.allocated = s.allocated) (h4 : s'.active = s.active)
    (h5 : s'.holder = s.holder) (h6 : s'.pool = s.pool) (h7 : s'.realptr = s.realptr)
    (hother : ∀ u, u ≠ t → (s'.thread u).act = (s.thread u).act) (hself : (s'.thread t).act = a)
    (hb : ∀ x, a.holder? = some x → (s.thread t).act.holder? = some x ∨ s.Free x) (hrecs : a.recs = [])
    (hok : ActOk s list a) : Records s' list := by
  refine h.quiet t h1 h2 h3 h4 h5 h6 hother ?_ ?_ (.inl ?_) ?_
  · intro u x r _ _ _
    rw [h7]
  · rw [hself]
    exact hb
  · rw [hself, hrecs]
  · rw [hself]
    apply hok.frame (fun _ hr => hr)
    · intro x r ha
      rw [ha] at hrecs
      cases hrecs
    · intro x _
      rw [h5]
    · intro x r _ _
      rw [h7]

omit [DecidableEq Holder] [DecidableEq Rec] in
theorem Records.setAct (h : Records s list) {a : Act Obj Rec Cell Holder}
    (hb : ∀ x, a.holder? = some x → (s.thread t).act.holder? = some x ∨ s.Free x) (hrecs : a.recs = [])
    (hok : ActOk s list a) : Records (s.setAct t a) list := by
  refine h.outside (t := t) (a := a) rfl rfl rfl rfl rfl rfl rfl ?_ ?_ hb hrecs hok
  · intro u hu
    simp [State.setAct, State.setThread, hu]
  · simp [State.setAct, State.setThread]

omit [DecidableEq Tid] [DecidableEq Holder] [DecidableEq Rec] in
/-- From a record on the list the links lead to the end. -/
theorem Records.suffix (h : Records s list) {r : Rec} (hr : r ∈ list) :
    ∃ rest, Segment s.recNext (s.recNext r) rest none ∧ ∀ q ∈ rest, q ∈ list := by
  obtain ⟨pre, post, rfl⟩ := List.append_of_mem hr
  obtain ⟨m, -, hm⟩ := Segment.append_iff.1 h.linked
  obtain ⟨-, hpost⟩ := hm
  exact ⟨post, hpost, fun q hq => by simp [hq]⟩

omit [DecidableEq Tid] [DecidableEq Holder] [DecidableEq Rec] in
theorem Records.mem_of_next (h : Records s list) {r q : Rec} (hr : r ∈ list) (hq : s.recNext r = some q) :
    q ∈ list := by
  obtain ⟨rest, hrest, hsub⟩ := h.suffix hr
  rw [hq] at hrest
  cases rest with
  | nil => cases hrest
  | cons p rest =>
    obtain ⟨hp, -⟩ := hrest
    exact hsub q (by rw [Option.some.inj hp]; exact List.mem_cons_self)

omit [DecidableEq Tid] [DecidableEq Holder] [DecidableEq Rec] in
theorem Records.mem_of_head (h : Records s list) {q : Rec} (hq : s.hazptrList = some q) : q ∈ list := by
  have hl := h.linked
  rw [hq] at hl
  cases list with
  | nil => cases hl
  | cons p rest =>
    obtain ⟨hp, -⟩ := hl
    rw [Option.some.inj hp]
    exact List.mem_cons_self

omit [DecidableEq Holder] [DecidableEq Rec] in
theorem Records.searchAt (h : Records s list) {x : Holder} {rec : Option Rec}
    (hb : (s.thread t).act.holder? = some x ∨ s.Free x) (hx : s.holder x = none)
    (hrec : ∀ r, rec = some r → r ∈ list) : Records (s.searchAt t x rec) list := by
  have hb' : ∀ y, some x = some y → (s.thread t).act.holder? = some y ∨ s.Free y := by
    intro y hy
    rw [← Option.some.inj hy]
    exact hb
  unfold State.searchAt
  split
  · exact h.setAct hb' rfl ⟨hrec _ rfl, hx⟩
  · exact h.setAct hb' rfl hx

variable [DecidableEq Obj] [DecidableEq Cell]

theorem records_step {useCache : Bool} (hstep : Step useCache t s s') (h : Records s list) :
    ∃ list', Records s' list' ∧ ∀ r ∈ list, r ∈ list' := by
  have hok := h.act t
  have hidle : ∀ (a : Act Obj Rec Cell Holder), a.holder? = none → ∀ x, a.holder? = some x →
      (s.thread t).act.holder? = some x ∨ s.Free x := by
    intro a ha x hx
    rw [ha] at hx
    cases hx
  have hkeep : ∀ (x : Holder) (a : Act Obj Rec Cell Holder), a.holder? = some x →
      (s.thread t).act.holder? = some x ∨ s.Free x →
      ∀ y, a.holder? = some y → (s.thread t).act.holder? = some y ∨ s.Free y := by
    intro x a ha hx y hy
    rw [ha] at hy
    rw [← Option.some.inj hy]
    exact hx
  have hsub : ∀ r ∈ list, r ∈ list := fun r hr => hr
  cases hstep with
  | store c v ha hv =>
    exact ⟨list, h.outside (t := t) rfl rfl rfl rfl rfl rfl rfl (fun _ _ => rfl) ha (hidle _ rfl) rfl trivial, hsub⟩
  | retire x ha hx hcell =>
    refine ⟨list, ?_, hsub⟩
    unfold State.retire
    split
    · refine h.outside (t := t) (a := .link .priv) rfl rfl rfl rfl rfl rfl rfl ?_ ?_ (hidle _ rfl) rfl trivial
      · intro u hu
        simp [State.setAct, State.setThread, hu]
      · simp [State.setAct, State.setThread]
    · exact h.outside (t := t) rfl rfl rfl rfl rfl rfl rfl (fun _ _ => rfl) ha (hidle _ rfl) rfl trivial
  | acquire x ha hu hh hf => exact ⟨list, h.searchAt (.inr hf) hh (fun _ => h.mem_of_head), hsub⟩
  | acquireCached x rec rest ha hu hh hf hp => exact ⟨list, h.acquireCached hf hp, hsub⟩
  | acquireFresh x ha hu hh hf hp => exact ⟨list, h.setAct (hkeep x _ rfl (.inr hf)) rfl hh, hsub⟩
  | loadActive x rec ha =>
    rw [ha] at hok
    refine ⟨list, ?_, hsub⟩
    split
    · exact h.searchAt (.inl (by rw [ha]; rfl)) hok.2 (fun _ => h.mem_of_next hok.1)
    · exact h.setAct (hkeep x _ rfl (.inl (by rw [ha]; rfl))) rfl hok
  | casActiveOk x rec ha hr =>
    rw [ha] at hok
    refine ⟨list, ?_, hsub⟩
    apply h.give (by rw [ha]; rfl) hok.1
    · refine .inr ⟨?_, by rw [ha]; rfl⟩
      intro u hu
      rw [(h.used rec u hu).2] at hr
      cases hr
    · simp
    · intro q hq
      by_cases hqr : q = rec
      · simp [hqr]
      · simpa [hqr] using hq
  | casActiveFail x rec ha hr =>
    rw [ha] at hok
    exact ⟨list, h.searchAt (.inl (by rw [ha]; rfl)) hok.2 (fun _ => h.mem_of_next hok.1), hsub⟩
  | newRecord x rec ha hr => exact ⟨list, h.newRecord ha hr, hsub⟩
  | pushRecordOk x rec ha he =>
    exact ⟨rec :: list, h.pushRecordOk ha he, fun r hr => List.mem_cons_of_mem _ hr⟩
  | pushRecordFail x rec ha => exact ⟨list, h.pushRecordFail ha, hsub⟩
  | countRecord x rec ha =>
    rw [ha] at hok
    refine ⟨list, ?_, hsub⟩
    have hrecs : (s.thread t).act.recs = [rec] := by rw [ha]; rfl
    have hact := (h.used rec (.thread t) (by simp [Uses, hrecs])).2
    exact h.give (by rw [ha]; rfl) hok.1 (.inl hrecs) hact (fun _ hq => hq)
  | tryProtect x rec p src ha hh hf =>
    refine ⟨list, h.storeReal hh (.inl hf) (hkeep x _ rfl (.inr hf)) rfl ⟨rec, hh, ?_⟩, hsub⟩
    simp [State.storeReal]
  | getProtected x rec src ha hh hf =>
    exact ⟨list, h.setAct (hkeep x _ rfl (.inr hf)) rfl ⟨rec, hh⟩, hsub⟩
  | publish x rec p src ha hh =>
    have hb : (s.thread t).act.holder? = some x := by rw [ha]; rfl
    refine ⟨list, h.storeReal hh (.inr hb) (hkeep x _ rfl (.inl hb)) rfl ⟨rec, hh, ?_⟩, hsub⟩
    simp [State.storeReal]
  | validateOk x p src again ha he => exact ⟨list, h.setAct (hidle _ rfl) rfl trivial, hsub⟩
  | validateFail x p src again ha he =>
    rw [ha] at hok
    obtain ⟨r, hr, -⟩ := hok
    exact ⟨list, h.setAct (hkeep x _ rfl (.inl (by rw [ha]; rfl))) rfl ⟨r, hr⟩, hsub⟩
  | retract x rec latest src again ha hh =>
    have hb : (s.thread t).act.holder? = some x := by rw [ha]; rfl
    refine ⟨list, ?_, hsub⟩
    cases again with
    | true => exact h.storeReal hh (.inr hb) (hkeep x _ rfl (.inl hb)) rfl ⟨rec, hh⟩
    | false => exact h.storeReal hh (.inr hb) (hidle _ rfl) rfl trivial
  | reset x rec p ha hh hf =>
    have hset := h.storeReal (p := p) (a := .client) hh (.inl hf) (hidle _ rfl) rfl trivial (t := t)
    have hsame : (s.storeReal rec p).setAct t .client = s.storeReal rec p := by
      simp [State.setAct, State.setThread, State.storeReal, ← ha]
    rw [hsame] at hset
    exact ⟨list, hset, hsub⟩
  | swap x x' rec rec' ha hh hh' hf hf' => exact ⟨list, h.swap t hh hh' hf hf', hsub⟩
  | destroy x rec ha hu hh hf => exact ⟨list, h.destroy hh hf, hsub⟩
  | destroyCached x rec ha hu hh hf => exact ⟨list, h.destroyCached ha hh hf, hsub⟩
  | releaseRecord rec ha => exact ⟨list, h.release (by rw [ha]; rfl) rfl rfl trivial, hsub⟩
  | link source tail ha hl =>
    refine ⟨list, h.outside (t := t) (a := .append source) rfl rfl rfl rfl rfl rfl rfl ?_ ?_ (hidle _ rfl) rfl
      trivial, hsub⟩
    · intro u hu
      simp [State.setAct, State.setThread, hu]
    · simp [State.setAct, State.setThread]
  | appendOk source tail ha hl he =>
    refine ⟨list, h.outside (t := t) (a := .countRetired source) rfl rfl rfl rfl rfl rfl rfl ?_ ?_ (hidle _ rfl)
      rfl trivial, hsub⟩
    · intro u hu
      simp [State.setAct, State.setThread, hu]
    · simp [State.setAct, State.setThread]
  | appendFail source tail ha hl =>
    exact ⟨list, h.outside (t := t) rfl rfl rfl rfl rfl rfl rfl (fun _ _ => rfl) ha (hidle _ rfl) rfl trivial, hsub⟩
  | countPriv ha =>
    refine ⟨list, h.outside (t := t) (a := .loadCount) rfl rfl rfl rfl rfl rfl rfl ?_ ?_ (hidle _ rfl) rfl trivial,
      hsub⟩
    · intro u hu
      simp [State.setAct, State.setThread, hu]
    · simp [State.setAct, State.setThread]
  | countLeft b rest ha hs =>
    refine ⟨list, Records.finish ?_, hsub⟩
    refine h.outside (t := t) (a := .countRetired .left) rfl rfl rfl rfl rfl rfl rfl ?_ ?_ (hidle _ rfl) rfl trivial
    · intro u hu
      simp [State.setThread, hu]
    · simp [State.setThread, ha]
  | loadCount ha => exact ⟨list, h.setAct (hidle _ rfl) rfl trivial, hsub⟩
  | loadHazptrCount cnt ha =>
    refine ⟨list, ?_, hsub⟩
    split
    · exact h.finish
    · exact h.setAct (hidle _ rfl) rfl trivial
  | casCountOk cnt ha he =>
    refine ⟨list, h.outside (t := t) (a := .exchange) rfl rfl rfl rfl rfl rfl rfl ?_ ?_ (hidle _ rfl) rfl trivial,
      hsub⟩
    · intro u hu
      simp [State.setAct, State.setThread, hu]
    · simp [State.setAct, State.setThread]
  | casCountFail cnt ha => exact ⟨list, h.setAct (hidle _ rfl) rfl trivial, hsub⟩
  | exchange ha =>
    refine ⟨list, h.outside (t := t) (a := .loadRecords) rfl rfl rfl rfl rfl rfl rfl ?_ ?_ (hidle _ rfl) rfl trivial,
      hsub⟩
    · intro u hu
      simp [State.setAct, State.setBatch, State.setThread, hu]
    · simp [State.setAct, State.setThread]
  | loadRecords ha =>
    refine ⟨list, ?_, hsub⟩
    unfold State.scanAt
    split
    · rename_i rec he
      exact h.setAct (hidle _ rfl) rfl (h.mem_of_head he)
    · exact h.setAct (hidle _ rfl) rfl trivial
  | scan rec b rest ha hs =>
    rw [ha] at hok
    have hother : ∀ a u, u ≠ t → (((s.setBatch t { b with set := s.realptr rec :: b.set } rest).setAct t
        a).thread u).act = (s.thread u).act := by
      intro a u hu
      simp [State.setAct, State.setBatch, State.setThread, hu]
    refine ⟨list, ?_, hsub⟩
    unfold State.scanAt
    split
    · rename_i q he
      refine h.outside (t := t) (a := .scan q) rfl rfl rfl rfl rfl rfl rfl (hother _) ?_ (hidle _ rfl) rfl
        (h.mem_of_next hok he)
      simp [State.setAct, State.setThread]
    · refine h.outside (t := t) (a := .reclaim) rfl rfl rfl rfl rfl rfl rfl (hother _) ?_ (hidle _ rfl) rfl trivial
      simp [State.setAct, State.setThread]
  | keep x b rest ha hs hp hset =>
    refine ⟨list, h.outside (t := t) (a := .reclaim) rfl rfl rfl rfl rfl rfl rfl ?_ ?_ (hidle _ rfl) rfl trivial,
      hsub⟩
    · intro u hu
      simp [State.setBatch, State.setThread, hu]
    · simp [State.setBatch, State.setThread, ha]
  | delete x b rest ha hs hp hset =>
    refine ⟨list, h.outside (t := t) (a := .client) rfl rfl rfl rfl rfl rfl rfl ?_ ?_ (hidle _ rfl) rfl trivial,
      hsub⟩
    · intro u hu
      simp [State.setAct, State.setBatch, State.setThread, hu]
    · simp [State.setAct, State.setThread]
  | destructed b rest ha hs => exact ⟨list, h.setAct (hidle _ rfl) rfl trivial, hsub⟩
  | appendLeft b rest ha hs hp hl => exact ⟨list, h.setAct (hidle _ rfl) rfl trivial, hsub⟩
  | reclaimed b rest ha hs hp hl =>
    refine ⟨list, Records.finish ?_, hsub⟩
    refine h.outside (t := t) (a := .reclaim) rfl rfl rfl rfl rfl rfl rfl ?_ ?_ (hidle _ rfl) rfl trivial
    · intro u hu
      simp [State.setThread, hu]
    · simp [State.setThread, ha]
  | exit ha hs he =>
    refine ⟨list, ?_, hsub⟩
    unfold State.exit
    split
    · refine h.outside (t := t) (a := .link .priv) rfl rfl rfl rfl rfl rfl rfl ?_ ?_ (hidle _ rfl) rfl trivial
      · intro u hu
        simp [State.setThread, hu]
      · simp [State.setThread]
    · exact h.dropPool rfl
  | dropCached rec rest ha =>
    rw [ha] at hok
    exact ⟨list, h.release (by rw [ha]; rfl) rfl rfl (fun r hr => hok r (List.mem_cons_of_mem _ hr)), hsub⟩
  | exited ha => exact ⟨list, h.setAct (hidle _ rfl) rfl trivial, hsub⟩

omit [DecidableEq Obj] [DecidableEq Cell] [DecidableEq Tid] [DecidableEq Holder] [DecidableEq Rec] in
theorem records_init (hs : Init s) : Records s [] := by
  have huses : ∀ r u, ¬ Uses s r u := by
    intro r u hu
    cases u <;> simp [Uses, hs.holder, hs.thread, hs.pool, Act.recs] at hu
  constructor
  · exact hs.hazptrList
  · intro r hr
    cases hr
  · intro r u v hu
    exact absurd hu (huses r u)
  · intro r u hu
    exact absurd hu (huses r u)
  · intro u
    rw [hs.thread]
    exact List.nodup_nil
  · intro u
    rw [hs.pool]
    exact List.nodup_nil
  · intro x r hx
    rw [hs.holder] at hx
    cases hx
  · intro u r hr
    rw [hs.pool] at hr
    cases hr
  · intro u v x hx
    rw [hs.thread] at hx
    cases hx
  · intro u
    rw [hs.thread]
    trivial

theorem reachable_records {useCache : Bool} (hs : Reachable Init (Next useCache) s) :
    ∃ list, Records s list := by
  apply hs.invariant
  · intro s₀ h₀
    exact ⟨[], records_init h₀⟩
  · rintro s₁ s₂ - ⟨list, h₁⟩ ⟨t, hstep⟩
    obtain ⟨list', h₂, -⟩ := records_step hstep h₁
    exact ⟨list', h₂⟩

end Wizard.Hazptr
