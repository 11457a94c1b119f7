import Wizard.PoolParts

/-! Pools do not mix as long as `get` takes nodes of its own pool from the caches: always
with the accessor, and without it when the thread's cache is not used by turns. -/

namespace Wizard.Pool

variable {P Tid Cache Handle : Type*} [DecidableEq P] [DecidableEq Tid] [DecidableEq Cache] [DecidableEq Handle]
  {cs : PoolCaches P Tid Cache} {s s' : Shared P Tid Cache Handle} {t : Tid} {h o : Handle} {p q r : P} {i : Nat}

section Kept

omit [DecidableEq P] [DecidableEq Tid] [DecidableEq Cache] [DecidableEq Handle]

theorem Isolated.access [DecidableEq Tid] (hs : Isolated cs s) (site : Site) (t : Tid) (p : P) :
    Isolated cs (s.access cs site t p) := by
  unfold Shared.access
  split
  · refine ⟨hs.held, hs.cached, ?_, hs.busy, hs.pushing, hs.popping⟩
    intro x u k c hacc
    by_cases hx : x = site
    · subst hx
      by_cases hu : u = t
      · subst hu
        simp only [Function.update_self, Option.some.injEq] at hacc
        cases hold : s.acc x u with
        | none =>
          rw [hold] at hacc
          cases hacc
          exact ⟨p, rfl, rfl⟩
        | some y =>
          obtain ⟨k', c'⟩ := y
          rw [hold] at hacc
          simp only [PoolCaches.accessor] at hacc
          split at hacc
          · cases hacc
            exact hs.acc x u k c hold
          · cases hacc
            exact ⟨p, rfl, rfl⟩
      · simp only [Function.update_self, Function.update_of_ne hu] at hacc
        exact hs.acc x u k c hacc
    · simp only [Function.update_of_ne hx] at hacc
      exact hs.acc x u k c hacc
  · exact hs

theorem access_handle [DecidableEq Tid] (site : Site) (t : Tid) (p : P) : (s.access cs site t p).handle = s.handle := by
  unfold Shared.access
  split <;> rfl

theorem access_cache [DecidableEq Tid] (site : Site) (t : Tid) (p : P) : (s.access cs site t p).cache = s.cache := by
  unfold Shared.access
  split <;> rfl

theorem access_free [DecidableEq Tid] {site : Site} {p : P} : (s.access cs site t p).Free h ↔ s.Free h := by
  unfold Shared.access
  split <;> rfl

theorem Isolated.setCache [DecidableEq Cache] (hs : Isolated cs s) {c : Cache} {l : List (P × Nat)}
    (hl : cs.useAcc = true → ∀ p t, c = cs.ensure p t → ∀ q i, (q, i) ∈ l → q = p) : Isolated cs (s.setCache c l) := by
  refine ⟨hs.held, ?_, hs.acc, hs.busy, hs.pushing, hs.popping⟩
  intro ha p q t i hmem
  by_cases hc : cs.ensure p t = c
  · simp only [Shared.setCache, hc, Function.update_self] at hmem
    exact hl ha p t hc.symm q i hmem
  · simp only [Shared.setCache, Function.update_of_ne hc] at hmem
    exact hs.cached ha p q t i hmem

theorem Isolated.setHandle [DecidableEq Handle] (hs : Isolated cs s) (hf : s.Free h) {x : Held P}
    (hx : ∀ p q i, x = .node p q i → q = p) : Isolated cs (s.setHandle h x) := by
  have hne : ∀ u y, (s.call u).pc.handle? = some y → y ≠ h := by
    intro u y hy he
    rw [he] at hy
    exact hf u hy
  refine ⟨?_, hs.cached, hs.acc, hs.busy, ?_, ?_⟩
  · intro y p q i hy
    by_cases hyh : y = h
    · simp only [Shared.setHandle, hyh, Function.update_self] at hy
      exact hx p q i hy
    · simp only [Shared.setHandle, Function.update_of_ne hyh] at hy
      exact hs.held y p q i hy
  · intro u y i hy hn
    simp only [Shared.setHandle, Function.update_of_ne (hne u y hy)]
    exact hs.pushing u y i hy hn
  · intro u y hy hn
    simp only [Shared.setHandle, Function.update_of_ne (hne u y hy)]
    exact hs.popping u y hy hn

theorem Isolated.start [DecidableEq Tid] (hs : Isolated cs s) {c : Call P Handle} (hf : s.Free h)
    (hc : c.pc.handle? = some h) (hpush : ∀ i, c.pc.node? = some i → s.handle h = .node c.pool c.owner i)
    (hpop : c.pc.node? = none → s.handle h = .nothing) : Isolated cs (s.setCall t c) := by
  refine ⟨hs.held, hs.cached, hs.acc, ?_, ?_, ?_⟩
  · intro u v y hu hv
    by_cases hut : u = t <;> by_cases hvt : v = t
    · rw [hut, hvt]
    · simp only [Shared.setCall, hut, Function.update_self, Function.update_of_ne hvt, hc, Option.some.injEq] at hu hv
      exact absurd (hu ▸ hv) (hf v)
    · simp only [Shared.setCall, hvt, Function.update_self, Function.update_of_ne hut, hc, Option.some.injEq] at hu hv
      exact absurd (hv ▸ hu) (hf u)
    · simp only [Shared.setCall, Function.update_of_ne hut, Function.update_of_ne hvt] at hu hv
      exact hs.busy u v y hu hv
  · intro u y i hu hn
    by_cases hut : u = t
    · simp only [Shared.setCall, hut, Function.update_self, hc, Option.some.injEq] at hu hn ⊢
      rw [← hu]
      exact hpush i hn
    · simp only [Shared.setCall, Function.update_of_ne hut] at hu hn ⊢
      exact hs.pushing u y i hu hn
  · intro u y hu hn
    by_cases hut : u = t
    · simp only [Shared.setCall, hut, Function.update_self, hc, Option.some.injEq] at hu hn
      rw [← hu]
      exact hpop hn
    · simp only [Shared.setCall, Function.update_of_ne hut] at hu hn
      exact hs.popping u y hu hn

theorem Isolated.advance [DecidableEq Tid] (hs : Isolated cs s) {c : Call P Handle}
    (h₁ : c.pc.handle? = (s.call t).pc.handle?) (h₂ : c.pc.node? = (s.call t).pc.node?)
    (h₃ : c.pc.node? ≠ none → c.pool = (s.call t).pool ∧ c.owner = (s.call t).owner) : Isolated cs (s.setCall t c) := by
  have hcall : ∀ u, ((s.setCall t c).call u).pc.handle? = (s.call u).pc.handle? ∧
      ((s.setCall t c).call u).pc.node? = (s.call u).pc.node? ∧
      (((s.setCall t c).call u).pc.node? ≠ none → ((s.setCall t c).call u).pool = (s.call u).pool ∧
        ((s.setCall t c).call u).owner = (s.call u).owner) := by
    intro u
    by_cases hu : u = t
    · subst hu
      simp only [Shared.setCall, Function.update_self]
      exact ⟨h₁, h₂, h₃⟩
    · simp [Shared.setCall, Function.update_of_ne hu]
  refine ⟨hs.held, hs.cached, hs.acc, ?_, ?_, ?_⟩
  · intro u v y hu hv
    rw [(hcall u).1] at hu
    rw [(hcall v).1] at hv
    exact hs.busy u v y hu hv
  · intro u y i hu hn
    obtain ⟨hp, ho⟩ := (hcall u).2.2 (by rw [hn]; simp)
    rw [(hcall u).1] at hu
    rw [(hcall u).2.1] at hn
    rw [hp, ho]
    exact hs.pushing u y i hu hn
  · intro u y hu hn
    rw [(hcall u).1] at hu
    rw [(hcall u).2.1] at hn
    exact hs.popping u y hu hn

theorem Isolated.goOn [DecidableEq Tid] (hs : Isolated cs s) {p q : P} {pc pc' : Pc Handle}
    (hc : s.call t = ⟨p, q, pc⟩) (h₁ : pc'.handle? = pc.handle?) (h₂ : pc'.node? = pc.node?) :
    Isolated cs (s.setCall t ⟨p, q, pc'⟩) := by
  apply hs.advance
  · rw [hc, h₁]
  · rw [hc, h₂]
  · rw [hc]
    exact fun _ => ⟨rfl, rfl⟩

theorem Isolated.finish [DecidableEq Tid] [DecidableEq Handle] (hs : Isolated cs s)
    (hh : (s.call t).pc.handle? = some h)
    {x : Held P} (hx : ∀ p q i, x = .node p q i → q = p) (p q : P) :
    Isolated cs ((s.setHandle h x).setCall t ⟨p, q, .idle⟩) := by
  have hidle : Isolated cs (s.setCall t ⟨p, q, .idle⟩) := by
    refine ⟨hs.held, hs.cached, hs.acc, ?_, ?_, ?_⟩
    · intro u v y hu hv
      by_cases hut : u = t <;> by_cases hvt : v = t <;>
        simp_all [Shared.setCall, Pc.handle?]
      exact hs.busy u v y hu hv
    · intro u y i hu hn
      by_cases hut : u = t
      · simp [Shared.setCall, hut] at hu
      · simp only [Shared.setCall, Function.update_of_ne hut] at hu hn ⊢
        exact hs.pushing u y i hu hn
    · intro u y hu hn
      by_cases hut : u = t
      · simp [Shared.setCall, hut] at hu
      · simp only [Shared.setCall, Function.update_of_ne hut] at hu hn
        exact hs.popping u y hu hn
  have hfree : (s.setCall t ⟨p, q, .idle⟩).Free h := by
    intro u hu
    by_cases hut : u = t
    · simp [Shared.setCall, hut] at hu
    · simp only [Shared.setCall, Function.update_of_ne hut] at hu
      exact hut (hs.busy u t h hu hh)
  exact hidle.setHandle hfree hx

theorem Isolated.setHead [DecidableEq P] (hs : Isolated cs s) (p : P) (w : Which) (x : TaggedIndex) :
    Isolated cs (s.setHead p w x) := ⟨hs.held, hs.cached, hs.acc, hs.busy, hs.pushing, hs.popping⟩

theorem Isolated.setNodes [DecidableEq P] (hs : Isolated cs s) (p : P) (nodes : Nodes) (pushes : Nat → Nat) :
    Isolated cs (s.setNodes p nodes pushes) := ⟨hs.held, hs.cached, hs.acc, hs.busy, hs.pushing, hs.popping⟩

theorem Isolated.swap [DecidableEq Handle] (hs : Isolated cs s) (hf : s.Free h) (ho : s.Free o) :
    Isolated cs (s.swap h o) :=
  (hs.setHandle hf (hs.held o)).setHandle ho (hs.held h)

end Kept

omit [DecidableEq P] [DecidableEq Cache] in
theorem Isolated.popLoaded (hs : Isolated cs s) {w : Which} (hh : (s.call t).pc.handle? = some h)
    (hn : (s.call t).pc.node? = none) : Isolated cs (s.popLoaded t p w h) := by
  unfold Shared.popLoaded
  split
  · cases w with
    | market => exact hs.advance (by rw [hh]; rfl) (by rw [hn]; rfl) (fun hc => absurd rfl hc)
    | collective => exact hs.finish hh (by rintro _ _ _ ⟨⟩) p p
  · exact hs.advance (by rw [hh]; rfl) (by rw [hn]; rfl) (fun hc => absurd rfl hc)

omit [DecidableEq P] in
theorem Isolated.beginRelease (hs : Isolated cs s) (hf : s.Free h) : Isolated cs (s.beginRelease cs t h) := by
  cases hh : s.handle h with
  | nothing =>
    simp only [Shared.beginRelease, hh]
    exact hs
  | created =>
    simp only [Shared.beginRelease, hh]
    exact hs.setHandle hf (by rintro _ _ _ ⟨⟩)
  | node p q i =>
    obtain rfl := hs.held h p q i hh
    have hacc := hs.access .push t q
    have hfree : (s.access cs .push t q).Free h := access_free.2 hf
    have hpush : ∀ j, some i = some j → s.handle h = .node q q j := by
      rintro j ⟨⟩
      exact hh
    simp only [Shared.beginRelease, hh]
    split
    · exact hs.start hf rfl hpush (by rintro ⟨⟩)
    · split
      · apply (hacc.setCache ?_).setHandle hfree (by rintro _ _ _ ⟨⟩)
        intro ha p u hc r j hmem
        rw [hs.reach_eq ha] at hc hmem
        obtain rfl := cs.ensure_apart q p t u hc
        rcases List.mem_cons.1 hmem with he | hmem
        · injection he
        · rw [access_cache] at hmem
          exact hs.cached ha q r t j hmem
      · apply hacc.start hfree rfl
        · rw [access_handle]
          exact hpush
        · rintro ⟨⟩

theorem Isolated.step (hs : Isolated cs s) (hstep : Shared.Step cs (cs.useAcc = false) t s s') : Isolated cs s' := by
  have hnode : ∀ {p : P} {j}, ∀ p' q' i', Held.node p p j = .node p' q' i' → q' = p' := by
    rintro p j _ _ _ ⟨⟩
    rfl
  cases hstep with
  | getCached p h q i rest ht hh hf hc ho =>
    obtain rfl := hs.cached_eq hc ho
    apply ((hs.access .pop t q).setCache ?_).setHandle (access_free.2 hf) hnode
    intro ha r u he q' j hmem
    have hmem' : (q', j) ∈ s.cache (s.reach cs .pop t q) := by
      rw [hc]
      exact List.mem_cons_of_mem _ hmem
    rw [he] at hmem'
    exact hs.cached ha r q' u j hmem'
  | getPop p h ht hh hf hc =>
    exact (hs.access .pop t p).start (access_free.2 hf) rfl (by rintro _ ⟨⟩) (fun _ => by rw [access_handle, hh])
  | popLoad p q w h ht => exact hs.popLoaded (by rw [ht]; rfl) (by rw [ht]; rfl)
  | popRead p q w h old since ht =>
    exact hs.advance (by rw [ht]; rfl) (by rw [ht]; rfl) (fun hn => absurd rfl hn)
  | popCasOk p q w h old new since ht he =>
    exact (hs.setHead p w new).finish (t := t) (by show (s.call t).pc.handle? = _; rw [ht]; rfl) hnode p q
  | popCasFail p q w h old new since ht => exact hs.popLoaded (by rw [ht]; rfl) (by rw [ht]; rfl)
  | release h ht hf => exact hs.beginRelease hf
  | pushLoad p q w h i ht => exact (hs.setNodes q _ _).goOn ht rfl rfl
  | pushWrite p q w h i old new ht => exact (hs.setNodes q _ _).goOn ht rfl rfl
  | pushCasOk p q w h i old new ht he =>
    exact (hs.setHead p w new).finish (t := t) (by show (s.call t).pc.handle? = _; rw [ht]; rfl)
      (by rintro _ _ _ ⟨⟩) p q
  | pushCasFail p q w h i old new ht => exact hs.goOn ht rfl rfl
  | moveConstruct h o ht hh hf ho => exact hs.swap hf ho
  | swap h o ht hf ho => exact hs.swap hf ho
  | moveAssign h o ht hf ho => exact (hs.swap hf ho).beginRelease ho

omit [DecidableEq P] [DecidableEq Tid] [DecidableEq Cache] [DecidableEq Handle] in
theorem isolated_init {num collectiveNum : P → Nat} (h : s.Init num collectiveNum) : Isolated cs s := by
  constructor
  · intro x p q i hx
    rw [h.handle] at hx
    cases hx
  · intro _ p q t i hmem
    rw [h.cache] at hmem
    cases hmem
  · intro site t k c hacc
    rw [h.acc] at hacc
    cases hacc
  · intro t u x ht
    rw [h.call] at ht
    cases ht
  · intro t x i ht
    rw [h.call] at ht
    cases ht
  · intro t x ht
    rw [h.call] at ht
    cases ht

omit [DecidableEq Tid] [DecidableEq Cache] [DecidableEq Handle] in
theorem init_part {num collectiveNum : P → Nat} (h : s.Init num collectiveNum) (p : P) :
    init (num p) (collectiveNum p) (s.part p) := by
  refine ⟨h.construct p, ?_, ?_, ?_, h.pushes p⟩
  · intro c
    show ownNodes p (s.cache c) = []
    rw [h.cache]
    rfl
  · intro x
    rw [part_handle, h.handle]
    rfl
  · intro t
    exact part_pc_idle (h.call t)

omit [DecidableEq Tid] [DecidableEq Cache] [DecidableEq Handle] in
theorem timely_part (h : s.Timely t) (p : P) : Timely t (s.part p) := by
  intro w x old new since ht
  by_cases hp : (s.call t).pool = p
  · rw [part_pc_self hp] at ht
    have hh := h w x old new since ht
    rw [hp] at hh
    exact hh
  · rw [part_pc_ne hp] at ht
    cases ht

theorem PartStep.inv {num collectiveNum : Nat} {σ σ' : State Tid Cache Handle} (hstep : PartStep t σ σ')
    (hnum : num < 2 ^ 32)
    (htimely : Timely t σ) (h : Inv num collectiveNum σ) : Inv num collectiveNum σ' := by
  cases hstep with
  | same he =>
    rw [he]
    exact h
  | step cs hs => exact inv_step cs hnum hs htimely h
  | created x hh hf he =>
    obtain ⟨list, hp, htag⟩ := h
    rw [he]
    exact ⟨list, hp.setHandle hf (by simp [hh]) (by simp), htag.congr rfl rfl rfl (fun _ => .inl rfl)⟩

omit [DecidableEq Tid] [DecidableEq Cache] [DecidableEq Handle] in
/-- What the pointers show of a node is what its own pool sees. -/
theorem Isolated.located_iff (hs : Isolated cs s) (p : P) (i : Nat) (pl : Place Tid Cache Handle) :
    s.Located p i pl ↔ Located (s.part p) i pl := by
  cases pl with
  | list w => exact Iff.rfl
  | cache c =>
    show (p, i) ∈ s.cache c ↔ i ∈ ownNodes p (s.cache c)
    simp [ownNodes]
  | held h =>
    show (∃ r, s.handle h = .node r p i) ∧ s.Free h ↔ (s.handle h).seen p = .node i ∧ (s.part p).Free h
    constructor
    · rintro ⟨⟨r, hr⟩, hf⟩
      rw [hr]
      exact ⟨if_pos rfl, part_free hf⟩
    · rintro ⟨hseen, hf⟩
      cases hh : s.handle h with
      | nothing =>
        rw [hh] at hseen
        cases hseen
      | created =>
        rw [hh] at hseen
        cases hseen
      | node r q j =>
        rw [hh, Held.seen] at hseen
        split at hseen
        · rename_i hq
          subst hq
          cases hseen
          refine ⟨⟨r, rfl⟩, fun u hu => ?_⟩
          cases hn : (s.call u).pc.node? with
          | none =>
            have hp := hs.popping u h hu hn
            rw [hh] at hp
            cases hp
          | some k =>
            have hp := hs.pushing u h k hu hn
            rw [hh] at hp
            injection hp with h₁ h₂ h₃
            have howner := hs.owner_eq hn
            have hfu := hf u
            rw [part_pc_self (by rw [h₂, howner])] at hfu
            exact hfu hu
        · cases hseen
  | flight t =>
    show (s.call t).owner = p ∧ (s.call t).pc.node? = some i ↔ ((s.part p).pc t).node? = some i
    constructor
    · rintro ⟨ho, hn⟩
      rw [part_pc_self (by rw [← hs.owner_eq hn, ho])]
      exact hn
    · intro hn
      by_cases hp : (s.call t).pool = p
      · rw [part_pc_self hp] at hn
        exact ⟨by rw [hs.owner_eq hn, hp], hn⟩
      · rw [part_pc_ne hp] at hn
        cases hn

/-- The pools do not mix, and each keeps its nodes, when `get` takes nodes of its own
pool from the caches. -/
theorem pools_isolated {num collectiveNum : P → Nat} (hnum : ∀ p, num p < 2 ^ 32)
    (hr : Reachable (Shared.Init num collectiveNum) (IsolatingStep cs) s) :
    (∀ h p q i, s.handle h = .node p q i → q = p) ∧
    (∀ t i, (s.call t).pc.node? = some i → (s.call t).owner = (s.call t).pool) ∧
    (cs.useAcc = true → ∀ p q t i, (q, i) ∈ s.cache (cs.ensure p t) → q = p) ∧
    ∀ p, (∀ i, i < num p → ∃! pl, s.Located p i pl) ∧ (∀ i pl, s.Located p i pl → i < num p) ∧
      (∀ w, ∃ l, Walk (s.nodes p) (s.head p w) l ∧ l.Nodup) ∧ ∀ c, (ownNodes p (s.cache c)).Nodup := by
  have hinv : Isolated cs s ∧ ∀ p, Inv (num p) (collectiveNum p) (s.part p) := by
    apply hr.invariant
    · intro s₀ h₀
      refine ⟨isolated_init h₀, fun p => ?_⟩
      have hinit := init_part h₀ p
      obtain ⟨hc, hn⟩ := construct_isSome hinit.1
      exact inv_init hc hn (hnum p) hinit
    · rintro s₁ s₂ - ⟨h₁, hp⟩ ⟨t, hstep, htimely⟩
      exact ⟨h₁.step hstep, fun p => (part_step h₁ hstep p).inv (hnum p) (timely_part htimely p) (hp p)⟩
  obtain ⟨hs, hparts⟩ := hinv
  refine ⟨hs.held, fun t i hn => hs.owner_eq hn, hs.cached, fun p => ?_⟩
  obtain ⟨list, hp, htag⟩ := hparts p
  have hat : ∀ i pl, s.Located p i pl ↔ At (s.part p) list i pl := fun i pl =>
    (hs.located_iff p i pl).trans (htag.located_iff i pl)
  refine ⟨?_, ?_, ?_, hp.cacheNodup⟩
  · intro i hi
    obtain ⟨pl, hpl⟩ := hp.place.exists_place i hi
    exact ⟨pl, (hat i pl).2 hpl, fun pl' h' => hp.place.unique i pl' pl ((hat i pl').1 h') hpl⟩
  · intro i pl hpl
    exact hp.place.mem i pl ((hat i pl).1 hpl)
  · intro w
    exact ⟨list w, (htag.linked w).walk, hp.nodup w⟩

theorem step_mono {own own' : Prop} (hw : own' → own) (hs : Shared.Step cs own t s s') :
    Shared.Step cs own' t s s' := by
  cases hs with
  | getCached p h q i rest ht hh hf hc ho => exact .getCached _ p h q i rest ht hh hf hc (fun hh => ho (hw hh))
  | getPop p h ht hh hf hc => exact .getPop _ p h ht hh hf hc
  | popLoad p q w h ht => exact .popLoad _ p q w h ht
  | popRead p q w h old since ht => exact .popRead _ p q w h old since ht
  | popCasOk p q w h old new since ht he => exact .popCasOk _ p q w h old new since ht he
  | popCasFail p q w h old new since ht => exact .popCasFail _ p q w h old new since ht
  | release h ht hf => exact .release _ h ht hf
  | pushLoad p q w h i ht => exact .pushLoad _ p q w h i ht
  | pushWrite p q w h i old new ht => exact .pushWrite _ p q w h i old new ht
  | pushCasOk p q w h i old new ht he => exact .pushCasOk _ p q w h i old new ht he
  | pushCasFail p q w h i old new ht => exact .pushCasFail _ p q w h i old new ht
  | moveConstruct h o ht hh hf ho => exact .moveConstruct _ h o ht hh hf ho
  | swap h o ht hf ho => exact .swap _ h o ht hf ho
  | moveAssign h o ht hf ho => exact .moveAssign _ h o ht hf ho

section Mixed

/-- Two pools and one thread. -/
def twoCaches : PoolCaches Bool Unit (Option Bool) where
  useAcc := false
  threadLocal := fun _ => none
  ensure := fun p _ => some p
  id := fun p => if p then 1 else 0
  tcSize := 10
  id_inj := by decide
  ensure_apart := by decide

def twoPools : Shared Bool Unit (Option Bool) Bool where
  nodes := fun _ => constructedNode 3 1
  head := fun _ => constructedHead 1
  cache := fun _ => []
  handle := fun _ => .nothing
  call := fun _ => ⟨false, false, .idle⟩
  pushes := fun _ i => if i < 3 then 1 else 0
  acc := fun _ _ => none

theorem twoPools_init : twoPools.Init (fun _ => 3) (fun _ => 1) :=
  ⟨fun _ => construct_eq (by decide) (by decide), fun _ => rfl, fun _ => rfl, fun _ => rfl, fun _ _ => rfl,
    fun _ _ => rfl⟩

/-- The thread gets a node of the first pool and releases it into its cache. -/
theorem exists_mixed_cache : ∃ s : Shared Bool Unit (Option Bool) Bool,
    Reachable (Shared.Init (fun _ => 3) (fun _ => 1)) (IsolatingStep twoCaches) s ∧ s.cache none = [(false, 1)] ∧
      s.handle true = .nothing ∧ s.Free true ∧ (s.call ()).pc = .idle := by
  have h₀ : Reachable (Shared.Init (fun _ => 3) (fun _ => 1)) (IsolatingStep twoCaches) twoPools :=
    .of_init twoPools_init
  have h₁ := h₀.tail ⟨(), .getPop _ false false rfl rfl (by rintro _ ⟨⟩) rfl, by rintro _ _ _ _ _ ⟨⟩⟩
  have h₂ := h₁.tail ⟨(), .popLoad _ false false .market false rfl, by rintro _ _ _ _ _ ⟨⟩⟩
  have h₃ := h₂.tail ⟨(), .popRead _ false false .market false (link 1 0) 1 rfl, by rintro _ _ _ _ _ ⟨⟩⟩
  have h₄ := h₃.tail ⟨(), .popCasOk _ false false .market false (link 1 0) (link 2 0) 1 rfl rfl,
    by rintro _ _ _ _ _ ⟨⟩; decide⟩
  have h₅ := h₄.tail ⟨(), .release _ false rfl (by rintro _ ⟨⟩), by rintro _ _ _ _ _ ⟨⟩⟩
  exact ⟨_, h₅, rfl, rfl, by rintro _ ⟨⟩, rfl⟩

theorem pools_isolated_cached : ∃ s : Shared Bool Unit (Option Bool) Bool, s.cache none = [(false, 1)] ∧
    ∀ p i, i < 3 → ∃! pl, s.Located p i pl := by
  obtain ⟨s, hs, hc, -⟩ := exists_mixed_cache
  exact ⟨s, hc, fun p => ((pools_isolated (fun _ => by decide) hs).2.2.2 p).1⟩

/-- A `get` of the second pool then returns the node of the first. -/
theorem pools_mix : ¬ ∀ s : Shared Bool Unit (Option Bool) Bool,
    Reachable (Shared.Init (fun _ => 3) (fun _ => 1)) (Shared.Next twoCaches) s →
      ∀ h p q i, s.handle h = .node p q i → q = p := by
  intro h
  obtain ⟨s, hs, hc, hh, hf, ht⟩ := exists_mixed_cache
  have hr : Reachable (Shared.Init (fun _ => 3) (fun _ => 1)) (Shared.Next twoCaches) s :=
    hs.mono fun _ _ ⟨t, hstep, htimely⟩ => ⟨t, step_mono False.elim hstep, htimely⟩
  have hget := hr.tail ⟨(), .getCached s true true false 1 [] ht hh hf hc False.elim, by
    intro w x old new since hp
    rw [ht] at hp
    cases hp⟩
  have hmine := h _ hget true true false 1 (by simp [Shared.setHandle])
  cases hmine

end Mixed

end Wizard.Pool
