import Wizard.Places
import Wizard.PoolLinks

/-! Where the nodes are. Each node is on one of the two lists, in one cache, owned
by one `PooledObject`, or in the hands of one call of `release`; every step moves at
most one node, except that a swap exchanges what two objects own. -/

namespace Wizard.Pool

inductive Place (Tid Cache Handle : Type*)
  | list (w : Which)
  | cache (c : Cache)
  | held (h : Handle)
  | flight (t : Tid)

variable {Tid Cache Handle : Type*}

def At (s : State Tid Cache Handle) (list : Which → List Nat) (i : Nat) : Place Tid Cache Handle → Prop
  | .list w => i ∈ list w
  | .cache c => i ∈ s.cache c
  | .held h => s.handle h = .node i ∧ s.Free h
  | .flight t => (s.pc t).node? = some i

def Pc.target? : Pc Handle → Option Which
  | .pushLoad w _ _ | .pushWrite w _ _ _ _ | .pushCas w _ _ _ _ => some w
  | _ => none

@[simp] theorem handle?_idle : (Pc.idle : Pc Handle).handle? = none := rfl

@[simp] theorem node?_idle : (Pc.idle : Pc Handle).node? = none := rfl

/-- What a call has reserved: its `PooledObject`, and there the node it pushes. -/
structure Working (collectiveNum : Nat) (pc : Tid → Pc Handle) (handle : Handle → Owned) : Prop where
  busy : ∀ t u h, (pc t).handle? = some h → (pc u).handle? = some h → t = u
  pushing : ∀ t h i, (pc t).handle? = some h → (pc t).node? = some i → handle h = .node i
  popping : ∀ t h, (pc t).handle? = some h → (pc t).node? = none → handle h = .nothing
  target : ∀ t w i, (pc t).target? = some w → (pc t).node? = some i → (w = .collective ↔ i < collectiveNum)

/-- Collective nodes stay off the market and out of the caches. -/
def Fits (collectiveNum i : Nat) : Place Tid Cache Handle → Prop
  | .list w => w = .collective ↔ i < collectiveNum
  | .cache _ => collectiveNum ≤ i
  | .held _ => True
  | .flight _ => True

structure Placed (num collectiveNum : Nat) (s : State Tid Cache Handle) (list : Which → List Nat) :
    Prop where
  nodup : ∀ w, (list w).Nodup
  cacheNodup : ∀ c, (s.cache c).Nodup
  place : OnePlace (· < num) (At s list)
  fits : ∀ i p, At s list i p → Fits collectiveNum i p
  working : Working collectiveNum s.pc s.handle
  kind : ∀ i, i < num → (s.nodes i).isCollective = decide (i < collectiveNum)

variable {num collectiveNum : Nat} {s s' : State Tid Cache Handle} {list : Which → List Nat}

theorem Placed.same (h : Placed num collectiveNum s list) (hat : ∀ i p, At s' list i p ↔ At s list i p)
    (hc : s'.cache = s.cache) (hw : Working collectiveNum s'.pc s'.handle)
    (hk : ∀ i, (s'.nodes i).isCollective = (s.nodes i).isCollective) :
    Placed num collectiveNum s' list := by
  constructor
  · exact h.nodup
  · rw [hc]
    exact h.cacheNodup
  · exact h.place.congr hat
  · intro i p hp
    exact h.fits i p ((hat i p).1 hp)
  · exact hw
  · intro i hi
    rw [hk]
    exact h.kind i hi

theorem Placed.ne_of_flight (hp : Placed num collectiveNum s list) {t : Tid} {i j : Nat} {w : Which}
    (hat : At s list i (.flight t)) (hj : j ∈ list w) : j ≠ i := by
  rintro rfl
  cases hp.place.unique j _ _ hat (show At s list j (.list w) from hj)

theorem Placed.ne_of_other_flight (hp : Placed num collectiveNum s list) {t u : Tid} {i j : Nat}
    (hat : At s list i (.flight t)) (hu : u ≠ t) (hj : At s list j (.flight u)) : j ≠ i := by
  rintro rfl
  exact hu (Place.flight.inj (hp.place.unique j _ _ hj hat))

theorem Placed.move (h : Placed num collectiveNum s list) {list' : Which → List Nat} {i₀ : Nat}
    {p₀ : Place Tid Cache Handle} (q₀ : Place Tid Cache Handle) (h₀ : At s list i₀ p₀)
    (hmoved : ∀ p, At s' list' i₀ p ↔ p = q₀)
    (he : ∀ i p, i ≠ i₀ → (At s' list' i p ↔ At s list i p)) (hn : ∀ w, (list' w).Nodup)
    (hc : ∀ c, (s'.cache c).Nodup) (hfit : Fits collectiveNum i₀ q₀)
    (hw : Working collectiveNum s'.pc s'.handle) (hk : s'.nodes = s.nodes) :
    Placed num collectiveNum s' list' := by
  constructor
  · exact hn
  · exact hc
  · exact h.place.move q₀ h₀ hmoved he
  · intro i p hp
    by_cases hi : i = i₀
    · subst hi
      rw [(hmoved p).1 hp]
      exact hfit
    · exact h.fits i p ((he i p hi).1 hp)
  · exact hw
  · rw [hk]
    exact h.kind

theorem Placed.congr (h : Placed num collectiveNum s list) (hc : s'.cache = s.cache)
    (hh : s'.handle = s.handle) (h1 : ∀ t, (s'.pc t).handle? = (s.pc t).handle?)
    (h2 : ∀ t, (s'.pc t).node? = (s.pc t).node?) (h3 : ∀ t, (s'.pc t).target? = (s.pc t).target?)
    (hk : ∀ i, (s'.nodes i).isCollective = (s.nodes i).isCollective) :
    Placed num collectiveNum s' list := by
  have hat : ∀ i p, At s' list i p ↔ At s list i p := by
    intro i p
    cases p <;> simp [At, State.Free, hc, hh, h1, h2]
  apply h.same hat hc _ hk
  rw [hh]
  constructor
  · intro t u x
    rw [h1, h1]
    exact h.working.busy t u x
  · intro t x i
    rw [h1, h2]
    exact h.working.pushing t x i
  · intro t x
    rw [h1, h2]
    exact h.working.popping t x
  · intro t w i
    rw [h3, h2]
    exact h.working.target t w i

variable [DecidableEq Tid]

theorem Placed.advance (h : Placed num collectiveNum s list) {t : Tid} {p : Pc Handle} {nodes : Nodes}
    {pushes : Nat → Nat} (h1 : p.handle? = (s.pc t).handle?) (h2 : p.node? = (s.pc t).node?)
    (h3 : p.target? = (s.pc t).target?) (hk : ∀ i, (nodes i).isCollective = (s.nodes i).isCollective) :
    Placed num collectiveNum ({ s with nodes := nodes, pushes := pushes }.setPc t p) list := by
  refine h.congr rfl rfl ?_ ?_ ?_ hk <;>
  · intro u
    by_cases hu : u = t
    · subst hu
      simp [State.setPc, h1, h2, h3]
    · simp [State.setPc, hu]

theorem Working.start {pc : Tid → Pc Handle} {handle : Handle → Owned} (hw : Working collectiveNum pc handle)
    {t : Tid} {h : Handle} {p : Pc Handle} (hf : ∀ u, (pc u).handle? ≠ some h) (hp : p.handle? = some h)
    (hpush : ∀ i, p.node? = some i → handle h = .node i) (hpop : p.node? = none → handle h = .nothing)
    (ht : ∀ w i, p.target? = some w → p.node? = some i → (w = .collective ↔ i < collectiveNum)) :
    Working collectiveNum (Function.update pc t p) handle := by
  constructor
  · intro a b x ha hb
    by_cases hat : a = t
    · by_cases hbt : b = t
      · rw [hat, hbt]
      · have hx : h = x := by simpa [hat, hp] using ha
        rw [Function.update_of_ne hbt, ← hx] at hb
        exact absurd hb (hf b)
    · rw [Function.update_of_ne hat] at ha
      by_cases hbt : b = t
      · have hx : h = x := by simpa [hbt, hp] using hb
        rw [← hx] at ha
        exact absurd ha (hf a)
      · rw [Function.update_of_ne hbt] at hb
        exact hw.busy a b x ha hb
  · intro a x i ha hi
    by_cases hat : a = t
    · simp_all
    · simp only [Function.update_of_ne hat] at ha hi
      exact hw.pushing a x i ha hi
  · intro a x ha hi
    by_cases hat : a = t
    · simp_all
    · simp only [Function.update_of_ne hat] at ha hi
      exact hw.popping a x ha hi
  · intro a w i ha hi
    by_cases hat : a = t
    · subst hat
      simp only [Function.update_self] at ha hi
      exact ht w i ha hi
    · simp only [Function.update_of_ne hat] at ha hi
      exact hw.target a w i ha hi

theorem Working.stop {pc : Tid → Pc Handle} {handle : Handle → Owned} (hw : Working collectiveNum pc handle)
    (t : Tid) : Working collectiveNum (Function.update pc t .idle) handle := by
  constructor
  · intro a b x ha hb
    by_cases hat : a = t <;> by_cases hbt : b = t <;> simp_all [Pc.handle?]
    exact hw.busy a b x ha hb
  · intro a x i ha hi
    by_cases hat : a = t
    · simp_all [Pc.handle?]
    · simp only [Function.update_of_ne hat] at ha hi
      exact hw.pushing a x i ha hi
  · intro a x ha hi
    by_cases hat : a = t
    · simp_all [Pc.handle?]
    · simp only [Function.update_of_ne hat] at ha hi
      exact hw.popping a x ha hi
  · intro a w i ha hi
    by_cases hat : a = t
    · simp_all [Pc.node?]
    · simp only [Function.update_of_ne hat] at ha hi
      exact hw.target a w i ha hi

variable [DecidableEq Handle]

omit [DecidableEq Tid] in
theorem Working.setHandle {pc : Tid → Pc Handle} {handle : Handle → Owned}
    (hw : Working collectiveNum pc handle) {h : Handle} (hf : ∀ u, (pc u).handle? ≠ some h) (o : Owned) :
    Working collectiveNum pc (Function.update handle h o) := by
  constructor
  · exact hw.busy
  · intro a x i ha hi
    have hx : x ≠ h := by
      intro hx
      rw [hx] at ha
      exact hf a ha
    rw [Function.update_of_ne hx]
    exact hw.pushing a x i ha hi
  · intro a x ha hi
    have hx : x ≠ h := by
      intro hx
      rw [hx] at ha
      exact hf a ha
    rw [Function.update_of_ne hx]
    exact hw.popping a x ha hi
  · exact hw.target

theorem Working.finish {pc : Tid → Pc Handle} {handle : Handle → Owned} (hw : Working collectiveNum pc handle)
    {t : Tid} {h : Handle} (ht : (pc t).handle? = some h) (o : Owned) :
    Working collectiveNum (Function.update pc t .idle) (Function.update handle h o) := by
  apply (hw.stop t).setHandle
  intro u hu
  by_cases hut : u = t
  · simp_all [Pc.handle?]
  · rw [Function.update_of_ne hut] at hu
    exact hut (hw.busy u t h hu ht)

omit [DecidableEq Handle] in
theorem free_setPc {h : Handle} {t : Tid} {p : Pc Handle} :
    (s.setPc t p).Free h ↔ p.handle? ≠ some h ∧ ∀ u, u ≠ t → (s.pc u).handle? ≠ some h := by
  constructor
  · intro hf
    constructor
    · have hh := hf t
      simpa [State.setPc] using hh
    · intro u hu
      have hh := hf u
      simpa [State.setPc, hu] using hh
  · intro hf u
    by_cases hu : u = t
    · simpa [State.setPc, hu] using hf.1
    · simpa [State.setPc, hu] using hf.2 u hu

omit [DecidableEq Handle] in
theorem free_start {h x : Handle} {t : Tid} {p : Pc Handle} (ht : s.pc t = .idle)
    (hp : p.handle? = some h) : (s.setPc t p).Free x ↔ x ≠ h ∧ s.Free x := by
  rw [free_setPc, hp]
  constructor
  · rintro ⟨hx, hu⟩
    refine ⟨fun hxh => hx (by rw [hxh]), fun u => ?_⟩
    by_cases hut : u = t
    · simp [hut, ht, Pc.handle?]
    · exact hu u hut
  · rintro ⟨hx, hu⟩
    exact ⟨fun hxh => hx (Option.some.inj hxh).symm, fun u _ => hu u⟩

omit [DecidableEq Handle] in
theorem Working.free_stop {h x : Handle} {t : Tid} (hw : Working collectiveNum s.pc s.handle)
    (ht : (s.pc t).handle? = some h) : (s.setPc t .idle).Free x ↔ x = h ∨ s.Free x := by
  rw [free_setPc]
  constructor
  · rintro ⟨-, hu⟩
    by_cases hx : x = h
    · exact .inl hx
    · refine .inr fun u => ?_
      by_cases hut : u = t
      · simp [hut, ht, Ne.symm hx]
      · exact hu u hut
  · rintro (rfl | hu)
    · exact ⟨by simp [Pc.handle?], fun u hut hu => hut (hw.busy u t x hu ht)⟩
    · exact ⟨by simp [Pc.handle?], fun u _ => hu u⟩

omit [DecidableEq Tid] in
theorem at_setHandle {h : Handle} {o : Owned} {i : Nat} (hh : s.handle h ≠ .node i) (ho : o ≠ .node i)
    (p : Place Tid Cache Handle) : At (s.setHandle h o) list i p ↔ At s list i p := by
  cases p with
  | held x =>
    by_cases hx : x = h
    · simp [At, State.setHandle, hx, hh, ho]
    · simp [At, State.setHandle, hx, State.Free]
  | _ => exact Iff.rfl

omit [DecidableEq Tid] in
theorem Placed.setHandle (hp : Placed num collectiveNum s list) {h : Handle} {o : Owned} (hf : s.Free h)
    (hh : ∀ i, s.handle h ≠ .node i) (ho : ∀ i, o ≠ .node i) :
    Placed num collectiveNum (s.setHandle h o) list := by
  have hat : ∀ i p, At (s.setHandle h o) list i p ↔ At s list i p := fun i => at_setHandle (hh i) (ho i)
  exact hp.same hat rfl (hp.working.setHandle hf o) (fun _ => rfl)

omit [DecidableEq Handle] in
theorem Placed.getPop (hp : Placed num collectiveNum s list) {t : Tid} {h : Handle} (ht : s.pc t = .idle)
    (hh : s.handle h = .nothing) (hf : s.Free h) :
    Placed num collectiveNum (s.setPc t (.popLoad .market h)) list := by
  have hat : ∀ i p, At (s.setPc t (.popLoad .market h)) list i p ↔ At s list i p := by
    intro i p
    cases p with
    | list w => exact Iff.rfl
    | cache c => exact Iff.rfl
    | held x =>
      have hfree := free_start (s := s) (x := x) ht (show (Pc.popLoad .market h).handle? = some h from rfl)
      constructor
      · rintro ⟨hx, hfx⟩
        exact ⟨hx, (hfree.1 hfx).2⟩
      · rintro ⟨hx, hfx⟩
        refine ⟨hx, hfree.2 ⟨fun hxh => ?_, hfx⟩⟩
        rw [hxh, hh] at hx
        cases hx
    | flight u =>
      by_cases hu : u = t
      · simp [At, State.setPc, hu, ht, Pc.node?]
      · simp [At, State.setPc, hu]
  apply hp.same hat rfl _ (fun _ => rfl)
  apply hp.working.start hf rfl
  · intro i hi
    cases hi
  · intro _
    exact hh
  · intro w i hw
    cases hw

/-- `get` finds both lists empty. -/
theorem Placed.create (hp : Placed num collectiveNum s list) {t : Tid} {h : Handle}
    (ht : s.pc t = .popLoad .collective h ∨ ∃ o n k, s.pc t = .popCas .collective h o n k) :
    Placed num collectiveNum ((s.setHandle h .created).setPc t .idle) list := by
  have hb : (s.pc t).handle? = some h := by
    rcases ht with ht | ⟨o, n, k, ht⟩ <;> rw [ht] <;> rfl
  have hn : (s.pc t).node? = none := by
    rcases ht with ht | ⟨o, n, k, ht⟩ <;> rw [ht] <;> rfl
  have hh := hp.working.popping t h hb hn
  have hat : ∀ i p, At ((s.setHandle h .created).setPc t .idle) list i p ↔ At s list i p := by
    intro i p
    cases p with
    | list w => exact Iff.rfl
    | cache c => exact Iff.rfl
    | held x =>
      have hfree := hp.working.free_stop (x := x) hb
      by_cases hx : x = h
      · simp [At, State.setPc, State.setHandle, hx, hh]
      · constructor
        · rintro ⟨hi, hfx⟩
          exact ⟨by simpa [State.setPc, State.setHandle, hx] using hi, (hfree.1 hfx).resolve_left hx⟩
        · rintro ⟨hi, hfx⟩
          exact ⟨by simpa [State.setPc, State.setHandle, hx] using hi, hfree.2 (.inr hfx)⟩
    | flight u =>
      by_cases hu : u = t
      · simp [At, State.setPc, hu, hn]
      · simp [At, State.setPc, State.setHandle, hu]
  exact hp.same hat rfl (hp.working.finish hb .created) (fun _ => rfl)

section Moves

variable [DecidableEq Cache]

omit [DecidableEq Tid] [DecidableEq Handle] in
theorem at_setCache {c : Cache} {l : List Nat} {i : Nat} (hl : i ∈ l ↔ i ∈ s.cache c) (p : Place Tid Cache Handle) :
    At { s with cache := Function.update s.cache c l } list i p ↔ At s list i p := by
  cases p with
  | cache d =>
    by_cases hd : d = c
    · subst hd
      simpa [At] using hl
    · simp [At, hd]
  | _ => exact Iff.rfl

omit [DecidableEq Tid] in
theorem Placed.getCached (hp : Placed num collectiveNum s list) {c : Cache} {h : Handle} {i₀ : Nat}
    {rest : List Nat} (hh : s.handle h = .nothing) (hf : s.Free h) (hc : s.cache c = i₀ :: rest) :
    Placed num collectiveNum
      ({ s with cache := Function.update s.cache c rest }.setHandle h (.node i₀)) list := by
  have h₀ : At s list i₀ (.cache c) := by simp [At, hc]
  have hnd := hp.cacheNodup c
  rw [hc, List.nodup_cons] at hnd
  have hat := hp.place.iff_eq h₀
  apply hp.move (.held h) h₀
  · intro p
    cases p with
    | list w => simpa [At] using hat (.list w)
    | cache d =>
      by_cases hd : d = c
      · simp [At, State.setHandle, hd, hnd.1]
      · simpa [At, State.setHandle, hd] using hat (.cache d)
    | held x =>
      by_cases hx : x = h
      · simpa [At, State.setHandle, hx, State.Free] using hf
      · simpa [At, State.setHandle, hx, State.Free] using hat (.held x)
    | flight u => simpa [At, State.setHandle] using hat (.flight u)
  · intro i p hi
    exact (at_setHandle (by simp [hh]) (by simpa using Ne.symm hi) p).trans (at_setCache (by simp [hc, hi]) p)
  · exact hp.nodup
  · intro d
    by_cases hd : d = c
    · simpa [State.setHandle, hd] using hnd.2
    · simpa [State.setHandle, hd] using hp.cacheNodup d
  · trivial
  · exact hp.working.setHandle hf (.node i₀)
  · rfl

omit [DecidableEq Tid] in
theorem Placed.toCache (hp : Placed num collectiveNum s list) {c : Cache} {h : Handle} {i₀ : Nat}
    (hh : s.handle h = .node i₀) (hf : s.Free h) (hi₀ : collectiveNum ≤ i₀) :
    Placed num collectiveNum
      ({ s with cache := Function.update s.cache c (i₀ :: s.cache c) }.setHandle h .nothing) list := by
  have h₀ : At s list i₀ (.held h) := ⟨hh, hf⟩
  have hat := hp.place.iff_eq h₀
  have hout : ∀ d, i₀ ∉ s.cache d := by
    intro d hd
    cases (hat (.cache d)).1 hd
  apply hp.move (.cache c) h₀
  · intro p
    cases p with
    | list w => simpa [At] using hat (.list w)
    | cache d =>
      by_cases hd : d = c
      · simp [At, State.setHandle, hd]
      · simpa [At, State.setHandle, hd] using hout d
    | held x =>
      by_cases hx : x = h
      · simp [At, State.setHandle, hx]
      · simpa [At, State.setHandle, hx, State.Free] using hat (.held x)
    | flight u => simpa [At, State.setHandle] using hat (.flight u)
  · intro i p hi
    exact (at_setHandle (by simpa [hh] using Ne.symm hi) (by simp) p).trans (at_setCache (by simp [hi]) p)
  · exact hp.nodup
  · intro d
    by_cases hd : d = c
    · simpa [State.setHandle, hd] using ⟨hout c, hp.cacheNodup c⟩
    · simpa [State.setHandle, hd] using hp.cacheNodup d
  · exact hi₀
  · exact hp.working.setHandle hf .nothing
  · rfl

end Moves

omit [DecidableEq Handle] in
theorem Placed.toFlight (hp : Placed num collectiveNum s list) {t : Tid} {h : Handle} {w : Which} {i₀ : Nat}
    (ht : s.pc t = .idle) (hh : s.handle h = .node i₀) (hf : s.Free h)
    (hw : w = .collective ↔ i₀ < collectiveNum) :
    Placed num collectiveNum (s.setPc t (.pushLoad w h i₀)) list := by
  have h₀ : At s list i₀ (.held h) := ⟨hh, hf⟩
  have hat := hp.place.iff_eq h₀
  have hfree : ∀ x, (s.setPc t (.pushLoad w h i₀)).Free x ↔ x ≠ h ∧ s.Free x :=
    fun x => free_start ht rfl
  apply hp.move (.flight t) h₀
  · intro p
    cases p with
    | list v => simpa [At] using hat (.list v)
    | cache d => simpa [At, State.setPc] using hat (.cache d)
    | held x =>
      have hx := hat (.held x)
      simp only [At, hfree, reduceCtorEq, iff_false, Place.held.injEq] at hx ⊢
      rintro ⟨hn, hne, hfx⟩
      exact hne (hx.1 ⟨hn, hfx⟩)
    | flight u =>
      by_cases hu : u = t
      · simp [At, State.setPc, hu, Pc.node?]
      · simpa [At, State.setPc, hu] using hat (.flight u)
  · intro i p hi
    cases p with
    | list v => exact Iff.rfl
    | cache d => exact Iff.rfl
    | held x =>
      simp only [At, hfree]
      constructor
      · rintro ⟨hn, -, hfx⟩
        exact ⟨hn, hfx⟩
      · rintro ⟨hn, hfx⟩
        refine ⟨hn, fun hx => ?_, hfx⟩
        have hn' : s.handle x = .node i := hn
        rw [hx, hh] at hn'
        exact hi (Owned.node.inj hn').symm
    | flight u =>
      by_cases hu : u = t
      · simp [At, State.setPc, hu, ht, Pc.node?, Ne.symm hi]
      · simp [At, State.setPc, hu]
  · exact hp.nodup
  · exact hp.cacheNodup
  · trivial
  · apply hp.working.start hf rfl
    · intro i hi
      rw [hh, ← Option.some.inj hi]
    · intro hi
      cases hi
    · intro v i hv hi
      rw [← Option.some.inj hv, ← Option.some.inj hi]
      exact hw
  · rfl

/-- At the end of a call its handle has what the call leaves it, and its thread has no node. -/
theorem at_finish (list : Which → List Nat) {t : Tid} {h : Handle} {w : Which} {newHead : TaggedIndex}
    {list' : Which → List Nat} (hw : Working collectiveNum s.pc s.handle) (hb : (s.pc t).handle? = some h)
    (o : Owned) (i : Nat) :
    (∀ x, At (({ s with head := Function.update s.head w newHead }.setHandle h o).setPc t .idle) list' i (.held x) ↔
      x = h ∧ o = .node i ∨ x ≠ h ∧ At s list i (.held x)) ∧
    ∀ u, At (({ s with head := Function.update s.head w newHead }.setHandle h o).setPc t .idle) list' i (.flight u) ↔
      u ≠ t ∧ At s list i (.flight u) := by
  have hfree : ∀ x, (({ s with head := Function.update s.head w newHead }.setHandle h o).setPc t .idle).Free x ↔
      x = h ∨ s.Free x := fun x => hw.free_stop hb
  constructor
  · intro x
    simp only [At, hfree]
    by_cases hx : x = h
    · simp [State.setPc, State.setHandle, hx]
    · simp [State.setPc, State.setHandle, hx]
  · intro u
    by_cases hu : u = t
    · simp [At, State.setPc, hu]
    · simp [At, State.setPc, State.setHandle, hu]

/-- Nodes that the call is not about stay where they are. -/
theorem at_finish_of_ne (list : Which → List Nat) {t : Tid} {h : Handle} {w : Which} {newHead : TaggedIndex}
    {list' : Which → List Nat} (hw : Working collectiveNum s.pc s.handle) (hb : (s.pc t).handle? = some h) {o : Owned}
    {i : Nat} (ho : o ≠ .node i) (hh : s.handle h ≠ .node i) (hn : (s.pc t).node? ≠ some i) :
    (∀ x, At (({ s with head := Function.update s.head w newHead }.setHandle h o).setPc t .idle) list' i (.held x) ↔
      At s list i (.held x)) ∧
    ∀ u, At (({ s with head := Function.update s.head w newHead }.setHandle h o).setPc t .idle) list' i (.flight u) ↔
      At s list i (.flight u) := by
  refine ⟨fun x => ((at_finish list hw hb o i).1 x).trans ?_, fun u => ((at_finish list hw hb o i).2 u).trans ?_⟩
  · by_cases hx : x = h
    · simp [At, hx, hh, ho]
    · simp [hx]
  · by_cases hu : u = t
    · simp [At, hu, hn]
    · simp [hu]

theorem Placed.popCasOk (hp : Placed num collectiveNum s list) {t : Tid} {h : Handle} {w : Which} {i₀ : Nat}
    {rest : List Nat} {newHead : TaggedIndex} (hb : (s.pc t).handle? = some h) (hn : (s.pc t).node? = none)
    (hl : list w = i₀ :: rest) :
    Placed num collectiveNum
      (({ s with head := Function.update s.head w newHead }.setHandle h (.node i₀)).setPc t .idle)
      (Function.update list w rest) := by
  have h₀ : At s list i₀ (.list w) := by simp [At, hl]
  have hat := hp.place.iff_eq h₀
  have hnd := hp.nodup w
  rw [hl, List.nodup_cons] at hnd
  have hh := hp.working.popping t h hb hn
  obtain ⟨hheld, hflight⟩ : (∀ i, _) ∧ ∀ i, _ := forall_and.1 (at_finish list hp.working hb (.node i₀))
  apply hp.move (.held h) h₀
  · intro p
    cases p with
    | list v =>
      by_cases hv : v = w
      · simp [At, hv, hnd.1]
      · simpa [At, hv] using hat (.list v)
    | cache d => simpa [At, State.setPc, State.setHandle] using hat (.cache d)
    | held x =>
      have hx := hat (.held x)
      rw [hheld, hx]
      simp
    | flight u =>
      have hu := hat (.flight u)
      rw [hflight, hu]
      simp
  · intro i p hi
    cases p with
    | list v =>
      by_cases hv : v = w
      · simp [At, hv, hl, hi]
      · simp [At, hv]
    | cache d => exact Iff.rfl
    | held x => exact (at_finish_of_ne list hp.working hb (by simp [Ne.symm hi]) (by simp [hh]) (by simp [hn])).1 x
    | flight u => exact (at_finish_of_ne list hp.working hb (by simp [Ne.symm hi]) (by simp [hh]) (by simp [hn])).2 u
  · intro v
    by_cases hv : v = w
    · simpa [hv] using hnd.2
    · simpa [hv] using hp.nodup v
  · exact hp.cacheNodup
  · trivial
  · exact hp.working.finish hb (.node i₀)
  · rfl

theorem Placed.pushCasOk (hp : Placed num collectiveNum s list) {t : Tid} {h : Handle} {w : Which} {i₀ : Nat}
    {newHead : TaggedIndex} (hb : (s.pc t).handle? = some h) (hn : (s.pc t).node? = some i₀)
    (hw : (s.pc t).target? = some w) :
    Placed num collectiveNum
      (({ s with head := Function.update s.head w newHead }.setHandle h .nothing).setPc t .idle)
      (Function.update list w (i₀ :: list w)) := by
  have h₀ : At s list i₀ (.flight t) := hn
  have hat := hp.place.iff_eq h₀
  have hh := hp.working.pushing t h i₀ hb hn
  have hout : ∀ v, i₀ ∉ list v := by
    intro v hv
    cases (hat (.list v)).1 hv
  obtain ⟨hheld, hflight⟩ : (∀ i, _) ∧ ∀ i, _ := forall_and.1 (at_finish list hp.working hb .nothing)
  apply hp.move (.list w) h₀
  · intro p
    cases p with
    | list v =>
      by_cases hv : v = w
      · simp [At, hv]
      · simpa [At, hv] using hout v
    | cache d => simpa [At, State.setPc, State.setHandle] using hat (.cache d)
    | held x =>
      have hx := hat (.held x)
      rw [hheld, hx]
      simp
    | flight u =>
      have hu := hat (.flight u)
      rw [hflight, hu]
      simp
  · intro i p hi
    cases p with
    | list v =>
      by_cases hv : v = w
      · simp [At, hv, hi]
      · simp [At, hv]
    | cache d => exact Iff.rfl
    | held x =>
      exact (at_finish_of_ne list hp.working hb (by simp) (by simp [hh, Ne.symm hi]) (by simp [hn, Ne.symm hi])).1 x
    | flight u =>
      exact (at_finish_of_ne list hp.working hb (by simp) (by simp [hh, Ne.symm hi]) (by simp [hn, Ne.symm hi])).2 u
  · intro v
    by_cases hv : v = w
    · simpa [hv] using ⟨hout w, hp.nodup w⟩
    · simpa [hv] using hp.nodup v
  · exact hp.cacheNodup
  · exact hp.working.target t w i₀ hw hn
  · exact hp.working.finish hb .nothing
  · rfl

def Place.exchange (h o : Handle) : Place Tid Cache Handle → Place Tid Cache Handle
  | .held x => .held (Equiv.swap h o x)
  | p => p

omit [DecidableEq Tid] in
theorem Place.exchange_involutive (h o : Handle) :
    Function.Involutive (Place.exchange h o : Place Tid Cache Handle → Place Tid Cache Handle) := by
  intro p
  cases p <;> simp [Place.exchange]

omit [DecidableEq Tid] in
theorem swap_handle (s : State Tid Cache Handle) (h o x : Handle) :
    (s.swap h o).handle x = s.handle (Equiv.swap h o x) := by
  simp only [State.swap, State.setHandle, Function.update_apply, Equiv.swap_apply_def]
  by_cases hxo : x = o
  · by_cases hxh : x = h
    · simp [hxo, hxo ▸ hxh]
    · simp [hxo, hxo ▸ hxh]
  · by_cases hxh : x = h
    · subst hxh
      simp [hxo]
    · simp [hxo, hxh]

omit [DecidableEq Tid] in
theorem Placed.swap (hp : Placed num collectiveNum s list) {h o : Handle} (hf : s.Free h) (ho : s.Free o) :
    Placed num collectiveNum (s.swap h o) list := by
  have hfree : ∀ x, s.Free x ↔ s.Free (Equiv.swap h o x) := by
    intro x
    by_cases hxh : x = h
    · simp [hxh, hf, ho]
    · by_cases hxo : x = o
      · simp [hxo, hf, ho]
      · rw [Equiv.swap_apply_of_ne_of_ne hxh hxo]
  have hat : ∀ i p, At (s.swap h o) list i p ↔ At s list i (p.exchange h o) := by
    intro i p
    cases p with
    | held x =>
      simp only [At, Place.exchange, swap_handle, ← hfree]
      exact Iff.rfl
    | _ => exact Iff.rfl
  constructor
  · exact hp.nodup
  · exact hp.cacheNodup
  · exact hp.place.rename (Place.exchange_involutive h o).toPerm hat
  · intro i p hi
    have hfit := hp.fits i _ ((hat i p).1 hi)
    cases p <;> exact hfit
  · exact (hp.working.setHandle hf _).setHandle ho _
  · exact hp.kind

theorem Placed.beginRelease [DecidableEq Cache] (hp : Placed num collectiveNum s list)
    (cs : Caches Tid Cache) {t : Tid} {h : Handle} (ht : s.pc t = .idle) (hf : s.Free h) :
    Placed num collectiveNum (s.beginRelease cs t h) list := by
  cases hh : s.handle h with
  | nothing =>
    simp only [State.beginRelease, hh]
    exact hp
  | created =>
    simp only [State.beginRelease, hh]
    exact hp.setHandle hf (by simp [hh]) (by simp)
  | node i =>
    have hk := hp.kind i (hp.place.mem i (.held h) ⟨hh, hf⟩)
    simp only [State.beginRelease, hh, hk, decide_eq_true_eq]
    by_cases hi : i < collectiveNum
    · rw [if_pos hi]
      exact hp.toFlight ht hh hf (by simp [hi])
    · rw [if_neg hi]
      by_cases hroom : (s.cache (cs.of t)).length < cs.capacity
      · rw [if_pos hroom]
        exact hp.toCache hh hf (by omega)
      · rw [if_neg hroom]
        exact hp.toFlight ht hh hf (by simp [hi])

end Wizard.Pool
