import Wizard.PoolTags

/-! Threads that come and go. The cache is a `thread_local` array that only its own
thread takes nodes from, so what is in it when the thread exits is out of reach. -/

namespace Wizard.Pool

theorem build_succ (n collectiveNum : Nat) :
    build (n + 1) collectiveNum = (build n collectiveNum).add collectiveNum n := by
  simp [build, List.range_succ]

theorem build_zero_collective (n : Nat) : (build n 0).collective = ⟨none, none⟩ := by
  induction n with
  | zero => rfl
  | succ n ih =>
    rw [build_succ]
    exact ih

theorem build_market {n collectiveNum : Nat} (h : n ≤ collectiveNum) :
    (build n collectiveNum).market = ⟨none, none⟩ := by
  induction n with
  | zero => rfl
  | succ n ih =>
    have hh := ih (by omega)
    have hlt : n < collectiveNum := by omega
    rw [build_succ]
    simp [Builder.add, hlt, hh]

/-- The constructor hands both lists to `push_into`, so neither may be empty. -/
theorem construct_isSome {num collectiveNum : Nat} {x : Nodes × (Which → TaggedIndex)}
    (h : construct num collectiveNum = some x) : 0 < collectiveNum ∧ collectiveNum < num := by
  simp only [construct, Option.bind_eq_some_iff, Option.map_eq_some_iff] at h
  obtain ⟨market, hm, collective, hc, -⟩ := h
  constructor
  · by_contra hz
    have hzero : collectiveNum = 0 := by omega
    rw [hzero, pushInto, build_zero_collective] at hc
    cases hc
  · by_contra hz
    rw [pushInto, build_market (by omega)] at hm
    cases hm

/-- Each thread has a cache of its own. -/
def ownCaches (Tid : Type*) (tcSize : Nat) : Caches Tid Tid := ⟨false, id, id, tcSize⟩

structure Lives (Tid Handle : Type*) where
  pool : State Tid Tid Handle
  running : Tid → Prop
  ended : Tid → Prop

variable {Tid Handle : Type*}

structure Lives.Init (num collectiveNum : Nat) (a : Lives Tid Handle) : Prop where
  pool : init num collectiveNum a.pool
  running : ∀ t, ¬ a.running t
  ended : ∀ t, ¬ a.ended t

/-- No `get` or `release` is at work. -/
def Lives.Quiet (a : Lives Tid Handle) : Prop := ∀ t, a.pool.pc t = .idle

/-- A node that nobody owns and that is in no running thread's cache is on one of the
two lists. -/
def Lives.Conserved (num : Nat) (a : Lives Tid Handle) : Prop :=
  ∀ i, i < num → (∀ h, a.pool.handle h ≠ .node i) → (∀ t, a.running t → i ∉ a.pool.cache t) →
    ∃ w l, Walk a.pool.nodes (a.pool.head w) l ∧ i ∈ l

variable [DecidableEq Tid] [DecidableEq Handle]

inductive Lives.Step (tcSize : Nat) (t : Tid) : Lives Tid Handle → Lives Tid Handle → Prop
  | start (a) (hr : ¬ a.running t) (he : ¬ a.ended t) :
      Step tcSize t a { a with running := fun u => u = t ∨ a.running u }
  | call (a s') (ht : a.running t) (hs : Pool.Step (ownCaches Tid tcSize) t a.pool s') :
      Step tcSize t a { a with pool := s' }
  | exit (a) (ht : a.running t) (hp : a.pool.pc t = .idle) :
      Step tcSize t a { a with
        running := fun u => u ≠ t ∧ a.running u
        ended := fun u => u = t ∨ a.ended u }

def Lives.Next (tcSize : Nat) (a b : Lives Tid Handle) : Prop :=
  ∃ t, Lives.Step tcSize t a b ∧ Timely t a.pool

/-- Steps in which no thread exits with nodes in its cache. -/
def KeepingStep (tcSize : Nat) (a b : Lives Tid Handle) : Prop :=
  ∃ t, Lives.Step tcSize t a b ∧ Timely t a.pool ∧ (a.running t → ¬ b.running t → a.pool.cache t = [])

variable {num collectiveNum tcSize : Nat} {a b : Lives Tid Handle} {t : Tid}

theorem step_frame {cs : Caches Tid Tid} {s s' : State Tid Tid Handle} (hs : Step cs t s s') :
    (∀ u, u ≠ t → s'.pc u = s.pc u) ∧ ∀ c, c ≠ cs.of t → s'.cache c = s.cache c := by
  have hpop : ∀ w h, (∀ u, u ≠ t → (s.popLoaded t w h).pc u = s.pc u) ∧ (s.popLoaded t w h).cache = s.cache := by
    intro w h
    unfold State.popLoaded
    split
    · cases w <;> simp +contextual [State.setPc, State.setHandle]
    · simp +contextual [State.setPc]
  have hrelease : ∀ (r : State Tid Tid Handle) h, r.pc = s.pc → r.cache = s.cache →
      (∀ u, u ≠ t → (r.beginRelease cs t h).pc u = s.pc u) ∧
        ∀ c, c ≠ cs.of t → (r.beginRelease cs t h).cache c = s.cache c := by
    intro r h hpc hcache
    unfold State.beginRelease
    split
    · simp [hpc, hcache]
    · simp [State.setHandle, hpc, hcache]
    · split
      · simp +contextual [State.setPc, hpc, hcache]
      · split <;> simp +contextual [State.setPc, State.setHandle, hpc, hcache]
  cases hs with
  | popLoad w h ht | popCasFail w h _ _ _ ht => exact ⟨(hpop w h).1, fun c _ => by rw [(hpop w h).2]⟩
  | release h ht hf => exact hrelease s h rfl rfl
  | moveAssign h o ht hf ho => exact hrelease _ o rfl rfl
  | _ => simp +contextual [State.setPc, State.setHandle, State.swap]

omit [DecidableEq Tid] [DecidableEq Handle] in
/-- Only the caches of running threads matter for what is not on the lists. -/
theorem Lives.conserved_iff (h : Inv num collectiveNum a.pool) (hq : a.Quiet) :
    a.Conserved num ↔ ∀ t, ¬ a.running t → a.pool.cache t = [] := by
  obtain ⟨list, hp, htag⟩ := h
  constructor
  · intro hcon t ht
    apply List.eq_nil_iff_forall_not_mem.2
    intro i hi
    have hat : At a.pool list i (.cache t) := hi
    have hunique := hp.place.iff_eq hat
    obtain ⟨w, l, hl, hil⟩ := hcon i (hp.place.mem i _ hat)
      (fun h hh => by
        have hfree : a.pool.Free h := by
          intro u
          rw [hq u]
          simp
        have heq := (hunique (.held h)).1 ⟨hh, hfree⟩
        cases heq)
      (fun u hu hiu => by
        have heq := (hunique (.cache u)).1 hiu
        injection heq with heq
        exact ht (heq ▸ hu))
    have hat' := (htag.located_iff i (.list w)).1 ⟨l, hl, hil⟩
    have heq := (hunique _).1 hat'
    cases heq
  · intro hempty i hi hheld hcache
    obtain ⟨p, hat⟩ := hp.place.exists_place i hi
    cases p with
    | list w => exact ⟨w, (htag.located_iff i (.list w)).2 hat⟩
    | cache c =>
      have hmem : i ∈ a.pool.cache c := hat
      by_cases hc : a.running c
      · exact absurd hmem (hcache c hc)
      · rw [hempty c hc] at hmem
        cases hmem
    | held h => exact absurd hat.1 (hheld h)
    | flight t =>
      have hnode : (a.pool.pc t).node? = some i := hat
      rw [hq t] at hnode
      cases hnode

/-- A thread that is not running has no node and no call. -/
structure Lives.Kept (num collectiveNum : Nat) (a : Lives Tid Handle) : Prop where
  inv : Inv num collectiveNum a.pool
  empty : ∀ t, ¬ a.running t → a.pool.cache t = []

theorem Lives.Kept.step (hnum : num < 2 ^ 32) (h : a.Kept num collectiveNum) (hs : KeepingStep tcSize a b) :
    b.Kept num collectiveNum := by
  obtain ⟨t, hstep, htimely, hkeep⟩ := hs
  cases hstep with
  | start hr he =>
    refine ⟨h.inv, fun u hu => h.empty u ?_⟩
    intro hh
    exact hu (.inr hh)
  | call s' ht hs =>
    refine ⟨inv_step _ hnum hs htimely h.inv, fun u hu => ?_⟩
    have hne : u ≠ t := by
      intro he
      exact hu (he ▸ ht)
    show s'.cache u = []
    rw [(step_frame hs).2 u hne]
    exact h.empty u hu
  | exit ht hp =>
    refine ⟨h.inv, fun u hu => ?_⟩
    by_cases hut : u = t
    · rw [hut]
      exact hkeep ht (fun hh => hh.1 rfl)
    · exact h.empty u (fun hh => hu ⟨hut, hh⟩)

theorem reachable_kept (hnum : num < 2 ^ 32) (ha : Reachable (Lives.Init num collectiveNum) (KeepingStep tcSize) a) :
    a.Kept num collectiveNum := by
  apply ha.invariant
  · intro a₀ h₀
    obtain ⟨hc, hn⟩ := construct_isSome h₀.pool.1
    exact ⟨inv_init hc hn hnum h₀.pool, fun t _ => h₀.pool.2.1 t⟩
  · intro a₁ a₂ _ h hstep
    exact h.step hnum hstep

/-- As long as threads exit with empty caches, no node is out of reach. -/
theorem nodes_conserved (hnum : num < 2 ^ 32) (ha : Reachable (Lives.Init num collectiveNum) (KeepingStep tcSize) a)
    (hq : a.Quiet) : a.Conserved num := by
  have hkept := reachable_kept hnum ha
  exact (Lives.conserved_iff hkept.inv hq).2 hkept.empty

section Lost

/-- A pool of one collective and two market nodes that no thread has used. -/
def unusedPool : Lives Bool Bool where
  pool :=
    { nodes := constructedNode 3 1
      head := constructedHead 1
      cache := fun _ => []
      handle := fun _ => .nothing
      pc := fun _ => .idle
      pushes := fun i => if i < 3 then 1 else 0 }
  running := fun _ => False
  ended := fun _ => False

theorem unusedPool_init : unusedPool.Init 3 1 :=
  ⟨⟨construct_eq (by decide) (by decide), fun _ => rfl, fun _ => rfl, fun _ => rfl, fun _ => rfl⟩,
    fun _ h => h, fun _ h => h⟩

theorem exists_cached : ∃ a : Lives Bool Bool, Reachable (Lives.Init 3 1) (KeepingStep 10) a ∧ a.running true ∧
    a.pool.cache true = [1] ∧ a.Quiet := by
  have hfree : ∀ (s : State Bool Bool Bool), (∀ t, s.pc t = .idle) → s.Free false := by
    intro s hs t
    simp [hs t]
  have h₀ : Reachable (Lives.Init 3 1) (KeepingStep 10) unusedPool := .of_init unusedPool_init
  have h₁ := h₀.tail ⟨true, .start _ (fun h => h) (fun h => h), by rintro _ _ _ _ _ ⟨⟩, fun h => h.elim⟩
  have h₂ := h₁.tail ⟨true, .call _ _ (.inl rfl) (.getPop _ false rfl rfl (hfree _ fun _ => rfl) rfl),
    by rintro _ _ _ _ _ ⟨⟩, fun h hn => (hn h).elim⟩
  have h₃ := h₂.tail ⟨true, .call _ _ (.inl rfl) (.popLoad _ .market false rfl),
    by rintro _ _ _ _ _ ⟨⟩, fun h hn => (hn h).elim⟩
  have h₄ := h₃.tail ⟨true, .call _ _ (.inl rfl) (.popRead _ .market false (link 1 0) 1 rfl),
    by rintro _ _ _ _ _ ⟨⟩, fun h hn => (hn h).elim⟩
  have h₅ := h₄.tail ⟨true, .call _ _ (.inl rfl) (.popCasOk _ .market false (link 1 0) (link 2 0) 1 rfl rfl),
    by rintro _ _ _ _ _ ⟨⟩; decide, fun h hn => (hn h).elim⟩
  have h₆ := h₅.tail ⟨true, .call _ _ (.inl rfl) (.release _ false rfl (hfree _ fun t => by cases t <;> rfl)),
    by rintro _ _ _ _ _ ⟨⟩, fun h hn => (hn h).elim⟩
  exact ⟨_, h₆, .inl rfl, rfl, fun t => by cases t <;> rfl⟩

theorem nodes_conserved_cached : ∃ a : Lives Bool Bool, a.pool.cache true = [1] ∧ a.Conserved 3 := by
  obtain ⟨a, ha, -, hc, hq⟩ := exists_cached
  exact ⟨a, hc, nodes_conserved (by decide) ha hq⟩

/-- The thread exits with the node in its cache. -/
theorem node_lost : ¬ ∀ a : Lives Bool Bool, Reachable (Lives.Init 3 1) (Lives.Next 10) a → a.Quiet →
    a.Conserved 3 := by
  intro h
  obtain ⟨a, ha, ht, hc, hq⟩ := exists_cached
  have hkept := reachable_kept (by decide) ha
  have hr : Reachable (Lives.Init 3 1) (Lives.Next 10) a := ha.mono fun _ _ ⟨t, hs, htimely, _⟩ => ⟨t, hs, htimely⟩
  have hexit := hr.tail ⟨true, .exit a ht (hq true), by intro w x old new since hh; rw [hq true] at hh; cases hh⟩
  have hcon := h _ hexit hq
  have hcache : a.pool.cache true = [] :=
    (Lives.conserved_iff (a := ⟨a.pool, fun u => u ≠ true ∧ a.running u, _⟩) hkept.inv hq).1 hcon true
      (fun hh => hh.1 rfl)
  rw [hc] at hcache
  cases hcache

end Lost

end Wizard.Pool
