import Wizard.PoolShared

/-! Each pool by itself. As long as no pool hands out a node of another one, what a call
does to a pool is a step of that pool alone, and the other pools do not see it. -/

namespace Wizard.Pool

variable {P Tid Cache Handle : Type*} [DecidableEq P]

/-- What pool `p` sees of a `PooledObject`. -/
def Held.seen (p : P) : Held P → Owned
  | .nothing => .nothing
  | .created => .created
  | .node _ q i => if q = p then .node i else .nothing

def ownNodes (p : P) (l : List (P × Nat)) : List Nat := l.filterMap fun n => if n.1 = p then some n.2 else none

/-- The state of pool `p` alone. -/
def Shared.part (p : P) (s : Shared P Tid Cache Handle) : State Tid Cache Handle where
  nodes := s.nodes p
  head := s.head p
  cache := fun c => ownNodes p (s.cache c)
  handle := fun h => (s.handle h).seen p
  pc := fun t => if (s.call t).pool = p then (s.call t).pc else .idle
  pushes := s.pushes p

/-- Every pointer leads into the array of the pool that uses it, and the calls at work
have reserved their `PooledObject`. -/
structure Isolated (cs : PoolCaches P Tid Cache) (s : Shared P Tid Cache Handle) : Prop where
  held : ∀ h p q i, s.handle h = .node p q i → q = p
  cached : cs.useAcc = true → ∀ p q t i, (q, i) ∈ s.cache (cs.ensure p t) → q = p
  acc : ∀ site t k c, s.acc site t = some (k, c) → ∃ p, k = cs.id p ∧ c = cs.ensure p t
  busy : ∀ t u h, (s.call t).pc.handle? = some h → (s.call u).pc.handle? = some h → t = u
  pushing : ∀ t h i, (s.call t).pc.handle? = some h → (s.call t).pc.node? = some i →
    s.handle h = .node (s.call t).pool (s.call t).owner i
  popping : ∀ t h, (s.call t).pc.handle? = some h → (s.call t).pc.node? = none → s.handle h = .nothing

variable {cs : PoolCaches P Tid Cache} {s s' : Shared P Tid Cache Handle} {t : Tid} {h o : Handle} {p q r : P} {i : Nat}

omit [DecidableEq P] in
theorem Pc.handle?_of_node? {pc : Pc Handle} (hn : pc.node? = some i) : ∃ h, pc.handle? = some h := by
  cases pc <;> simp_all [Pc.node?, Pc.handle?]

omit [DecidableEq P] in
theorem Isolated.owner_eq (hs : Isolated cs s) (hn : (s.call t).pc.node? = some i) :
    (s.call t).owner = (s.call t).pool := by
  obtain ⟨h, hh⟩ := Pc.handle?_of_node? hn
  exact hs.held h _ _ i (hs.pushing t h i hh hn)

omit [DecidableEq P] in
/-- With the accessor a call reaches the cache of its own pool. -/
theorem Isolated.reach_eq (hs : Isolated cs s) (ha : cs.useAcc = true) (site : Site) (t : Tid) (p : P) :
    s.reach cs site t p = cs.ensure p t := by
  unfold Shared.reach
  rw [if_pos ha]
  cases hacc : s.acc site t with
  | none => rfl
  | some x =>
    obtain ⟨k, c⟩ := x
    obtain ⟨q, rfl, rfl⟩ := hs.acc site t k c hacc
    by_cases hk : cs.id q = cs.id p
    · rw [cs.id_inj q p hk]
      simp [PoolCaches.accessor]
    · simp [PoolCaches.accessor, hk]

omit [DecidableEq P] in
/-- The node that `get` takes from a cache is one of the pool itself. -/
theorem Isolated.cached_eq (hs : Isolated cs s) {rest : List (P × Nat)}
    (hc : s.cache (s.reach cs .pop t p) = (q, i) :: rest) (ho : cs.useAcc = false → q = p) : q = p := by
  by_cases ha : cs.useAcc = true
  · rw [hs.reach_eq ha] at hc
    exact hs.cached ha p q t i (by rw [hc]; exact List.mem_cons_self)
  · exact ho (Bool.eq_false_of_not_eq_true ha)

section Parts

@[simp] theorem part_setHead_self (w : Which) (x : TaggedIndex) : (s.setHead p w x).part p =
    { s.part p with head := Function.update (s.part p).head w x } := by
  simp only [Shared.setHead, Shared.part, Function.update_self]
  rfl

theorem part_setHead_ne (hr : r ≠ p) (w : Which) (x : TaggedIndex) : (s.setHead r w x).part p = s.part p := by
  simp only [Shared.setHead, Shared.part, Function.update_of_ne (Ne.symm hr)]
  rfl

@[simp] theorem part_setNodes_self (nodes : Nodes) (pushes : Nat → Nat) : (s.setNodes p nodes pushes).part p =
    { s.part p with nodes := nodes, pushes := pushes } := by
  simp only [Shared.setNodes, Shared.part, Function.update_self]
  rfl

theorem part_setNodes_ne (hr : r ≠ p) (nodes : Nodes) (pushes : Nat → Nat) :
    (s.setNodes r nodes pushes).part p = s.part p := by
  simp only [Shared.setNodes, Shared.part, Function.update_of_ne (Ne.symm hr)]
  rfl

@[simp] theorem part_setCache [DecidableEq Cache] (c : Cache) (l : List (P × Nat)) : (s.setCache c l).part p =
    { s.part p with cache := Function.update (s.part p).cache c (ownNodes p l) } := by
  have hh : (fun d => ownNodes p ((s.setCache c l).cache d)) = Function.update (s.part p).cache c (ownNodes p l) := by
    funext d
    by_cases hd : d = c
    · simp [Shared.setCache, hd]
    · simp [Shared.setCache, Shared.part, hd]
  unfold Shared.part at *
  rw [hh]
  rfl

variable [DecidableEq Handle]

@[simp] theorem part_setHandle (x : Held P) : (s.setHandle h x).part p = (s.part p).setHandle h (x.seen p) := by
  have hh : (fun y => ((s.setHandle h x).handle y).seen p) = Function.update (s.part p).handle h (x.seen p) := by
    funext y
    by_cases hy : y = h
    · simp [Shared.setHandle, hy]
    · simp [Shared.setHandle, Shared.part, hy]
  unfold Shared.part State.setHandle at *
  rw [hh]
  rfl

@[simp] theorem part_swap : (s.swap h o).part p = (s.part p).swap h o := by
  simp only [Shared.swap, part_setHandle]
  rfl

theorem setHandle_same {σ : State Tid Cache Handle} {x : Owned} (hx : σ.handle h = x) : σ.setHandle h x = σ := by
  unfold State.setHandle
  rw [← hx, Function.update_eq_self]

omit [DecidableEq Handle]

variable [DecidableEq Tid]

@[simp] theorem part_access (cs : PoolCaches P Tid Cache) (site : Site) (t : Tid) (q : P) :
    (s.access cs site t q).part p = s.part p := by
  unfold Shared.access
  split <;> rfl

theorem part_setCall (c : Call P Handle) :
    (s.setCall t c).part p = (s.part p).setPc t (if c.pool = p then c.pc else .idle) := by
  have hh : (fun u => if ((s.setCall t c).call u).pool = p then ((s.setCall t c).call u).pc else .idle) =
      Function.update (s.part p).pc t (if c.pool = p then c.pc else .idle) := by
    funext u
    by_cases hu : u = t
    · simp [Shared.setCall, hu]
    · simp [Shared.setCall, Shared.part, hu]
  unfold Shared.part State.setPc at *
  rw [hh]
  rfl

@[simp] theorem part_setCall_self (pc : Pc Handle) : (s.setCall t ⟨p, q, pc⟩).part p = (s.part p).setPc t pc := by
  rw [part_setCall, if_pos rfl]

/-- A call of one pool is idle to the others. -/
theorem part_setCall_ne (hc : (s.part p).pc t = .idle) (hr : r ≠ p) (pc : Pc Handle) :
    (s.setCall t ⟨r, q, pc⟩).part p = s.part p := by
  rw [part_setCall, if_neg hr]
  unfold State.setPc
  rw [← hc, Function.update_eq_self]

end Parts

section Views

theorem part_handle (h : Handle) : (s.part p).handle h = (s.handle h).seen p := rfl

theorem part_pc_self (hc : (s.call t).pool = p) : (s.part p).pc t = (s.call t).pc := if_pos hc

theorem part_pc_ne (hc : (s.call t).pool ≠ p) : (s.part p).pc t = .idle := if_neg hc

theorem part_pc_idle (hc : (s.call t).pc = .idle) : (s.part p).pc t = .idle := by
  by_cases hp : (s.call t).pool = p
  · rw [part_pc_self hp, hc]
  · exact part_pc_ne hp

theorem part_free (hf : s.Free h) : (s.part p).Free h := by
  intro u
  by_cases hp : (s.call u).pool = p
  · rw [part_pc_self hp]
    exact hf u
  · rw [part_pc_ne hp]
    simp

end Views

variable [DecidableEq Tid] [DecidableEq Cache] [DecidableEq Handle]

theorem ownNodes_cons_self (l : List (P × Nat)) : ownNodes p ((p, i) :: l) = i :: ownNodes p l := by
  simp [ownNodes]

theorem ownNodes_cons_ne (hq : q ≠ p) (l : List (P × Nat)) : ownNodes p ((q, i) :: l) = ownNodes p l := by
  simp [ownNodes, hq]

omit [DecidableEq Tid] [DecidableEq Handle] in
/-- A cache that keeps what the pool sees of it. -/
theorem setCache_same {σ : State Tid Cache Handle} {c : Cache} {l : List Nat} (hl : σ.cache c = l) :
    { σ with cache := Function.update σ.cache c l } = σ := by
  rw [← hl, Function.update_eq_self]

/-- The single cache that one call of a pool reaches. -/
def oneCache (Tid : Type*) (c : Cache) (tcSize : Nat) : Caches Tid Cache := ⟨false, fun _ => c, fun _ => c, tcSize⟩

/-- To each pool the release of a `PooledObject` is a release of what it sees of it. -/
theorem part_beginRelease (cs : PoolCaches P Tid Cache) (hheld : ∀ p q i, s.handle h = .node p q i → q = p)
    (ht : (s.call t).pc = .idle) (r : P) :
    ∃ cs' : Caches Tid Cache, (s.beginRelease cs t h).part r = (s.part r).beginRelease cs' t h := by
  have hidle := part_pc_idle (p := r) ht
  cases hh : s.handle h with
  | nothing =>
    have hseen : (s.part r).handle h = .nothing := by rw [part_handle, hh]; rfl
    refine ⟨oneCache Tid (cs.threadLocal t) 0, ?_⟩
    simp only [Shared.beginRelease, State.beginRelease, hh, hseen]
  | created =>
    have hseen : (s.part r).handle h = .created := by rw [part_handle, hh]; rfl
    refine ⟨oneCache Tid (cs.threadLocal t) 0, ?_⟩
    simp only [Shared.beginRelease, State.beginRelease, hh, hseen, part_setHandle, Held.seen]
  | node p q i =>
    obtain rfl := hheld p q i hh
    have hcache : ∀ c, ownNodes r ((s.access cs .push t q).cache c) = (s.part r).cache c := by
      intro c
      rw [← part_access (p := r) cs .push t q]
      rfl
    by_cases hr : q = r
    · subst hr
      have hseen : (s.part q).handle h = .node i := by rw [part_handle, hh]; exact if_pos rfl
      let c := s.reach cs .push t q
      have hle : ((s.part q).cache c).length ≤ ((s.access cs .push t q).cache c).length := by
        rw [← hcache]
        exact List.length_filterMap_le _ _
      by_cases hcol : (s.nodes q i).isCollective
      · refine ⟨oneCache Tid c 0, ?_⟩
        have hcol' : ((s.part q).nodes i).isCollective := hcol
        simp only [Shared.beginRelease, State.beginRelease, hh, hseen, hcol, hcol', if_true, part_setCall_self]
      · have hcol' : ¬ ((s.part q).nodes i).isCollective := hcol
        by_cases hroom : ((s.access cs .push t q).cache c).length < min cs.tcSize ((64 - 8) / 8)
        · refine ⟨oneCache Tid c cs.tcSize, ?_⟩
          have hroom' : ((s.part q).cache ((oneCache Tid c cs.tcSize).of t)).length <
            (oneCache Tid c cs.tcSize).capacity :=
            hle.trans_lt hroom
          have hof : (oneCache Tid c cs.tcSize).of t = c := rfl
          simp only [Shared.beginRelease, State.beginRelease, hh, hseen, hcol, hcol', hroom', Bool.false_eq_true,
            if_false, if_true]
          rw [if_pos hroom, part_setHandle, part_setCache, ownNodes_cons_self, hcache, part_access, hof]
          rfl
        · refine ⟨oneCache Tid c 0, ?_⟩
          have hroom' : ¬ ((s.part q).cache ((oneCache Tid c 0).of t)).length < (oneCache Tid c 0).capacity := by
            show ¬ _ < min 0 _
            omega
          simp only [Shared.beginRelease, State.beginRelease, hh, hseen, hcol, hcol', hroom',
            Bool.false_eq_true, if_false]
          rw [if_neg hroom, part_setCall_self, part_access]
    · have hseen : (s.part r).handle h = .nothing := by rw [part_handle, hh]; exact if_neg hr
      refine ⟨oneCache Tid (cs.threadLocal t) 0, ?_⟩
      simp only [Shared.beginRelease, State.beginRelease, hh, hseen]
      split
      · exact part_setCall_ne hidle hr _
      · split
        · rw [part_setHandle, part_setCache, ownNodes_cons_ne hr, hcache, part_access, setCache_same rfl]
          exact setHandle_same hseen
        · rw [part_setCall_ne (by rw [part_access]; exact hidle) hr, part_access]

/-- What a step does to one pool. A `get` of another pool that creates an object only
changes a `PooledObject` that was empty. -/
inductive PartStep (t : Tid) (σ σ' : State Tid Cache Handle) : Prop
  | same (h : σ' = σ)
  | step (cs : Caches Tid Cache) (h : Step cs t σ σ')
  | created (x : Handle) (hh : σ.handle x = .nothing) (hf : σ.Free x) (h : σ' = σ.setHandle x .created)

omit [DecidableEq Cache] in
theorem part_popLoaded (s : Shared P Tid Cache Handle) (w : Which) (h : Handle) :
    (s.popLoaded t p w h).part p = (s.part p).popLoaded t w h := by
  unfold Shared.popLoaded State.popLoaded
  by_cases hn : s.head p w = nullIndex
  · have hn' : (s.part p).head w = nullIndex := hn
    rw [if_pos hn, if_pos hn']
    cases w with
    | market => rw [part_setCall_self]
    | collective =>
      rw [part_setCall_self, part_setHandle]
      rfl
  · have hn' : ¬ (s.part p).head w = nullIndex := hn
    rw [if_neg hn, if_neg hn', part_setCall_self]
    rfl

theorem Isolated.part_popLoaded_ne (hs : Isolated cs s) {w : Which} (hpool : (s.call t).pool = p)
    (hh : (s.call t).pc.handle? = some h) (hn : (s.call t).pc.node? = none) (hr : p ≠ r) :
    PartStep t (s.part r) ((s.popLoaded t p w h).part r) := by
  have hidle : (s.part r).pc t = .idle := part_pc_ne (by rw [hpool]; exact hr)
  unfold Shared.popLoaded
  split
  · cases w with
    | market => exact .same (part_setCall_ne hidle hr _)
    | collective =>
      have hempty : (s.part r).handle h = .nothing := by
        rw [part_handle, hs.popping t h hh hn]
        rfl
      have hfree : (s.part r).Free h := by
        intro u hu
        by_cases hp : (s.call u).pool = r
        · rw [part_pc_self hp] at hu
          rw [hs.busy u t h hu hh, hpool] at hp
          exact hr hp
        · rw [part_pc_ne hp] at hu
          cases hu
      refine .created h hempty hfree ?_
      have hidle' : ((s.setHandle h .created).part r).pc t = .idle := hidle
      rw [part_setCall_ne hidle' hr, part_setHandle]
      rfl
  · exact .same (part_setCall_ne hidle hr _)

/-- A step of a pool is a step of that pool alone, and hardly any to the others. -/
theorem part_step (hs : Isolated cs s) (hstep : Shared.Step cs (cs.useAcc = false) t s s') (r : P) :
    PartStep t (s.part r) (s'.part r) := by
  cases hstep with
  | getCached p h q i rest ht hh hf hc ho =>
    obtain rfl := hs.cached_eq hc ho
    have hcache : (s.part r).cache (s.reach cs .pop t q) = ownNodes r ((q, i) :: rest) := by
      rw [← hc]
      rfl
    have hempty : (s.part r).handle h = .nothing := by
      rw [part_handle, hh]
      rfl
    rw [part_setHandle, part_setCache, part_access]
    by_cases hr : q = r
    · subst hr
      rw [ownNodes_cons_self] at hcache
      rw [show (Held.node q q i).seen q = .node i from if_pos rfl]
      exact .step (oneCache Tid (s.reach cs .pop t q) 0)
        (.getCached _ h i _ (part_pc_idle ht) hempty (part_free hf) hcache)
    · rw [ownNodes_cons_ne hr] at hcache
      rw [show (Held.node q q i).seen r = .nothing from if_neg hr, setCache_same hcache, setHandle_same hempty]
      exact .same rfl
  | getPop p h ht hh hf hc =>
    by_cases hr : p = r
    · subst hr
      have hcache : (s.part p).cache (s.reach cs .pop t p) = [] := by
        show ownNodes p (s.cache _) = []
        rw [hc]
        rfl
      have hempty : (s.part p).handle h = .nothing := by
        rw [part_handle, hh]
        rfl
      rw [part_setCall_self, part_access]
      exact .step (oneCache Tid (s.reach cs .pop t p) 0) (.getPop _ h (part_pc_idle ht) hempty (part_free hf) hcache)
    · rw [part_setCall_ne (by rw [part_access]; exact part_pc_idle ht) hr, part_access]
      exact .same rfl
  | popLoad p q w h ht =>
    by_cases hr : p = r
    · subst hr
      rw [part_popLoaded]
      exact .step (oneCache Tid (cs.threadLocal t) 0) (.popLoad _ w h (by rw [part_pc_self (by rw [ht]), ht]))
    · exact hs.part_popLoaded_ne (by rw [ht]) (by rw [ht]; rfl) (by rw [ht]; rfl) hr
  | popRead p q w h old since ht =>
    by_cases hr : p = r
    · subst hr
      rw [part_setCall_self]
      exact .step (oneCache Tid (cs.threadLocal t) 0) (.popRead _ w h old since (by rw [part_pc_self (by rw [ht]), ht]))
    · exact .same (part_setCall_ne (part_pc_ne (by rw [ht]; exact hr)) hr _)
  | popCasOk p q w h old new since ht he =>
    by_cases hr : p = r
    · subst hr
      rw [part_setCall_self, part_setHandle, part_setHead_self, show (Held.node p p _).seen p = .node _ from if_pos rfl]
      exact .step (oneCache Tid (cs.threadLocal t) 0)
        (.popCasOk _ w h old new since (by rw [part_pc_self (by rw [ht]), ht]) he)
    · have hempty : (s.part r).handle h = .nothing := by
        rw [part_handle, hs.popping t h (by rw [ht]; rfl) (by rw [ht]; rfl)]
        rfl
      have hidle : (s.part r).pc t = .idle := part_pc_ne (by rw [ht]; exact hr)
      rw [part_setCall_ne (by rw [part_setHandle, part_setHead_ne hr]; exact hidle) hr, part_setHandle,
        part_setHead_ne hr,
        show (Held.node p p _).seen r = .nothing from if_neg hr, setHandle_same hempty]
      exact .same rfl
  | popCasFail p q w h old new since ht =>
    by_cases hr : p = r
    · subst hr
      rw [part_popLoaded]
      exact .step (oneCache Tid (cs.threadLocal t) 0)
        (.popCasFail _ w h old new since (by rw [part_pc_self (by rw [ht]), ht]))
    · exact hs.part_popLoaded_ne (by rw [ht]) (by rw [ht]; rfl) (by rw [ht]; rfl) hr
  | release h ht hf =>
    obtain ⟨cs', hpart⟩ := part_beginRelease cs (t := t) (hs.held h) ht r
    rw [hpart]
    exact .step cs' (.release _ h (part_pc_idle ht) (part_free hf))
  | pushLoad p q w h i ht =>
    have howner := hs.owner_eq (t := t) (i := i) (by rw [ht]; rfl)
    rw [ht] at howner
    obtain rfl : q = p := howner
    by_cases hr : q = r
    · subst hr
      rw [part_setCall_self, part_setNodes_self]
      exact .step (oneCache Tid (cs.threadLocal t) 0) (.pushLoad _ w h i (by rw [part_pc_self (by rw [ht]), ht]))
    · have hidle : (s.part r).pc t = .idle := part_pc_ne (by rw [ht]; exact hr)
      rw [part_setCall_ne (by rw [part_setNodes_ne hr]; exact hidle) hr, part_setNodes_ne hr]
      exact .same rfl
  | pushWrite p q w h i old new ht =>
    have howner := hs.owner_eq (t := t) (i := i) (by rw [ht]; rfl)
    rw [ht] at howner
    obtain rfl : q = p := howner
    by_cases hr : q = r
    · subst hr
      rw [part_setCall_self, part_setNodes_self]
      exact .step (oneCache Tid (cs.threadLocal t) 0)
        (.pushWrite _ w h i old new (by rw [part_pc_self (by rw [ht]), ht]))
    · have hidle : (s.part r).pc t = .idle := part_pc_ne (by rw [ht]; exact hr)
      rw [part_setCall_ne (by rw [part_setNodes_ne hr]; exact hidle) hr, part_setNodes_ne hr]
      exact .same rfl
  | pushCasOk p q w h i old new ht he =>
    have howner := hs.owner_eq (t := t) (i := i) (by rw [ht]; rfl)
    rw [ht] at howner
    obtain rfl : q = p := howner
    by_cases hr : q = r
    · subst hr
      rw [part_setCall_self, part_setHandle, part_setHead_self]
      exact .step (oneCache Tid (cs.threadLocal t) 0)
        (.pushCasOk _ w h i old new (by rw [part_pc_self (by rw [ht]), ht]) he)
    · have hnode := hs.pushing t h i (by rw [ht]; rfl) (by rw [ht]; rfl)
      rw [ht] at hnode
      have hempty : (s.part r).handle h = .nothing := by
        rw [part_handle, hnode]
        exact if_neg hr
      have hidle : (s.part r).pc t = .idle := part_pc_ne (by rw [ht]; exact hr)
      rw [part_setCall_ne (by rw [part_setHandle, part_setHead_ne hr]; exact hidle) hr, part_setHandle,
        part_setHead_ne hr,
        show (Held.nothing : Held P).seen r = .nothing from rfl, setHandle_same hempty]
      exact .same rfl
  | pushCasFail p q w h i old new ht =>
    by_cases hr : p = r
    · subst hr
      rw [part_setCall_self]
      exact .step (oneCache Tid (cs.threadLocal t) 0)
        (.pushCasFail _ w h i old new (by rw [part_pc_self (by rw [ht]), ht]))
    · exact .same (part_setCall_ne (part_pc_ne (by rw [ht]; exact hr)) hr _)
  | moveConstruct h o ht hh hf ho =>
    have hempty : (s.part r).handle h = .nothing := by
      rw [part_handle, hh]
      rfl
    rw [part_swap]
    exact .step (oneCache Tid (cs.threadLocal t) 0)
      (.moveConstruct _ h o (part_pc_idle ht) hempty (part_free hf) (part_free ho))
  | swap h o ht hf ho =>
    rw [part_swap]
    exact .step (oneCache Tid (cs.threadLocal t) 0) (.swap _ h o (part_pc_idle ht) (part_free hf) (part_free ho))
  | moveAssign h o ht hf ho =>
    have hheld : ∀ p q i, (s.swap h o).handle o = .node p q i → q = p := by
      intro p q i hn
      have hsame : (s.swap h o).handle o = s.handle h := by simp [Shared.swap, Shared.setHandle]
      rw [hsame] at hn
      exact hs.held h p q i hn
    obtain ⟨cs', hpart⟩ := part_beginRelease cs (s := s.swap h o) (t := t) hheld ht r
    rw [hpart, part_swap]
    exact .step cs' (.moveAssign _ h o (part_pc_idle ht) (part_free hf) (part_free ho))

end Wizard.Pool
