import Wizard.RouteRefcntList

/-! The reference counts of `route_refcnt.c`. As long as no lookup is left with a dangling
pointer, they count the references, and no memory is used after it has been freed. -/

namespace Wizard.RouteRefcnt

open RouteTable

section Results

variable {Tid : Type*} [Fintype Tid] [DecidableEq Tid] {s s' : State Tid} {l junk : List Nat} {t : Tid} {a : Nat}

theorem steady_and_inv_of_reachable (hT : Fintype.card Tid + 1 < 2 ^ 31) (h : Reachable Init SteadyStep s) :
    Steady s ∧ ∃ l junk, Inv s l junk := by
  apply h.invariant
  · intro s hs
    refine ⟨fun t a ha => ?_, [], [], .of_init hs⟩
    rw [hs.pc t] at ha
    cases ha
  · rintro s s' - ⟨hsteady, l, junk, hi⟩ ⟨⟨t, hs⟩, hsteady'⟩
    obtain ⟨l', junk', hi', -⟩ := hi.step hT hsteady hs
    exact ⟨hsteady', l', junk', hi'⟩

/-- As long as no lookup is left with a dangling pointer, the count of an entry is the number of
references to it: one from the list, or from a `route_clear` that has taken it off, and those of the
calls. One without references is freed by one thread, and nothing else is left behind. -/
theorem references_counted (hT : Fintype.card Tid + 1 < 2 ^ 31) (h : Reachable Init SteadyStep s) :
    ∃ l junk, Linked s.next l ∧ s.table = l.map s.route ∧ Segment (way s.next) s.chain junk none ∧ (l ++ junk).Nodup ∧
      (∀ a, s.stage a ≠ .free → (s.refcnt a).toNat = refs (l ++ junk) s.held a ∧
        (refs (l ++ junk) s.held a = 0 → ∃! t, s.freeing t = some a)) ∧
      ((∀ t, s.pc t = .idle) → ∀ a, s.stage a ≠ .free ↔ a ∈ l) := by
  obtain ⟨-, l, junk, hi⟩ := steady_and_inv_of_reachable hT h
  refine ⟨l, junk, hi.list, hi.table, hi.chain, hi.nodup, fun a ha => ⟨hi.counted.counts a ha, fun hz => ?_⟩,
    fun hidle a => ?_⟩
  · rcases hi.counted.owned.total a ha with hpos | ⟨t, ht⟩
    · omega
    · exact ⟨t, ht, fun u hu => hi.counted.owned.unique u t a hu ht⟩
  · have hrole : ∀ t, (s.pc t).role = Role.none := fun t => by rw [hidle t]; rfl
    have hchain : s.chain = none := by
      rw [State.chain]
      cases s.lock with
      | none => rfl
      | some t => exact congrArg Role.chain (hrole t)
    have hjunk := hi.chain
    rw [hchain] at hjunk
    rw [hi.counted.alloc_iff_mem (fun t => congrArg Role.held (hrole t)) fun t => congrArg Role.freeing (hrole t),
      hjunk.eq_nil, List.append_nil]

omit [Fintype Tid] [DecidableEq Tid] in
theorem free_of_flagged (h : s.flagged t = some a) : ∃ k, s.pc t = .free a k := by
  rw [State.flagged] at h
  generalize s.pc t = p at h ⊢
  cases p with
  | free b k =>
    cases h
    exact ⟨k, rfl⟩
  | _ => cases h

theorem Inv.allocated (hi : Inv s l junk) (hsteady : Steady s) (hu : (s.pc t).Uses a) : s.stage a ≠ .free := by
  have hok := (hi.pcs t).ok
  have hheld : s.held t = some a → s.stage a ≠ .free := hi.counted.alloc_of_held
  have hfreeing : s.freeing t = some a → s.stage a ≠ .free := hi.counted.alloc_of_freeing
  have hlinked : s.stage a = .linked → s.stage a ≠ .free := fun ha => by simp [ha]
  have hlist : a ∈ l → s.stage a ≠ .free := fun ha => hlinked (hi.linked a (List.mem_append_left _ ha))
  have hbare := hsteady t a
  have hchain : s.lock = some t → Segment (way s.next) (s.pc t).role.chain junk none := by
    intro hl
    have hc := hi.chain
    rwa [State.chain, hl] at hc
  have hlocked := hi.locked t
  rw [State.held] at hheld
  rw [State.freeing] at hfreeing
  generalize s.pc t = p at *
  cases p with
  | load addr repp =>
    cases hu
    exact hlinked (hbare rfl)
  | check addr rep | read addr rep | cas addr rep old =>
    cases hu
    exact hlinked (hbare rfl)
  | compare addr rep | iface addr rep | put rep k | link rep | reset rep =>
    cases hu
    exact hheld rfl
  | flag rep k | free rep k =>
    cases hu
    exact hfreeing rfl
  | scan addr repp =>
    cases hu
    obtain ⟨front, back, rfl, hf, -⟩ := hok
    exact hlist (List.mem_append_left _ hf.mem)
  | test addr repp rep =>
    cases hu
    obtain ⟨front, back, rfl, -⟩ := hok
    exact hlist (by simp)
  | skip repp rep =>
    obtain ⟨front, back, rfl, hf, -⟩ := hok
    rcases hu with rfl | rfl
    · exact hlist (List.mem_append_left _ hf.mem)
    · exact hlist (by simp)
  | clearNext rep =>
    cases hu
    exact hlinked (hi.linked a (List.mem_append_right _ (hchain (hlocked rfl)).mem_of_some))
  | _ => exact hu.elim

omit [Fintype Tid] in
theorem steady_tail (h : Reachable Init SteadyStep s) (hs : Step t s s') (hsteady : Steady s') :
    Reachable Init SteadyStep s' :=
  h.tail ⟨⟨t, hs⟩, hsteady⟩

/-- Nothing that is freed is accessed or freed again, and a lookup that aborts has come to an
entry just being freed. -/
theorem accesses_allocated (hT : Fintype.card Tid + 1 < 2 ^ 31) (h : Reachable Init SteadyStep s) :
    (∀ t a, (s.pc t).Uses a → s.stage a ≠ .free) ∧
      (∀ t u a, s.freeing t = some a → s.freeing u = some a → t = u) ∧
      (∀ t u a, s.freeing t = some a → s.held u ≠ some a) ∧
      ∀ t addr a, s.pc t = .check addr a → s.reFreed a = true → ∃ u k, s.pc u = .free a k := by
  obtain ⟨hsteady, l, junk, hi⟩ := steady_and_inv_of_reachable hT h
  refine ⟨fun t a hu => ?_, fun t u a ht hu => hi.counted.owned.unique t u a ht hu,
    fun t u a ht => hi.counted.not_held_of_freeing ht, fun t addr a ht hf => ?_⟩
  · exact hi.allocated hsteady hu
  · have ha : s.stage a = .linked := hsteady t a (by rw [ht]; rfl)
    obtain ⟨u, hu⟩ := hi.flag a ha hf
    obtain ⟨k, hk⟩ := free_of_flagged hu
    exact ⟨u, k, hk⟩

end Results

def unused : State Bool where
  next _ := none
  addr _ := 0
  iface _ := 0
  refcnt _ := 0
  reFreed _ := false
  stage _ := .free
  lock := none
  pc _ := .idle
  table := []

theorem init_unused : Init unused := ⟨rfl, fun _ => rfl, rfl, fun _ => rfl, rfl⟩

/-- The lookup holds a reference to the entry that has been deleted. -/
theorem references_counted_deleted : ∃ s : State Bool, s.table = [] ∧ s.held true = some 0 ∧
    ∃ l junk, Linked s.next l ∧ (s.refcnt 0).toNat = refs (l ++ junk) s.held 0 := by
  have h₀ : Reachable Init SteadyStep unused := .of_init init_unused
  have h₁ := steady_tail h₀ (.malloc (t := false) _ 0 5 7 rfl rfl) (by decide)
  have h₂ := steady_tail h₁ (.addLock (t := false) _ 0 rfl rfl) (by decide)
  have h₃ := steady_tail h₂ (.link (t := false) _ 0 rfl) (by decide)
  have h₄ := steady_tail h₃ (.reset (t := false) _ 0 rfl) (by decide)
  have h₅ := steady_tail h₄ (.publish (t := false) _ 0 rfl) (by decide)
  have h₆ := steady_tail h₅ (.unlock (t := false) _ none rfl) (by decide)
  have h₇ := steady_tail h₆ (.callLookup (t := true) _ 5 rfl) (by decide)
  have h₈ := steady_tail h₇ (.load (t := true) _ 5 .routeList 0 rfl rfl) (by decide)
  have h₉ := steady_tail h₈ (.check (t := true) _ 5 0 rfl) (by decide)
  have h₁₀ := steady_tail h₉ (.read (t := true) _ 5 0 rfl) (by decide)
  have h₁₁ := steady_tail h₁₀ (.casOk (t := true) _ 5 0 1 rfl rfl) (by decide)
  have h₁₂ := steady_tail h₁₁ (.callDel (t := false) _ 5 rfl) (by decide)
  have h₁₃ := steady_tail h₁₂ (.delLock (t := false) _ 5 rfl rfl) (by decide)
  have h₁₄ := steady_tail h₁₃ (.scan (t := false) _ 5 .routeList 0 rfl rfl) (by decide)
  have h₁₅ := steady_tail h₁₄ (.test (t := false) _ 5 .routeList 0 rfl) (by decide)
  have h₁₆ := steady_tail h₁₅ (.skip (t := false) _ .routeList 0 rfl) (by decide)
  have h₁₇ := steady_tail h₁₆ (.unlock (t := false) _ (some 0) rfl) (by decide)
  have h := steady_tail h₁₇ (.put (t := false) _ 0 .del rfl) (by decide)
  obtain ⟨l, junk, hl, -, -, -, hc, -⟩ := references_counted (by decide) h
  exact ⟨_, rfl, rfl, l, junk, hl, (hc 0 (by decide)).1⟩

/-- The lookup has loaded its pointer to the entry before the entry is deleted. -/
theorem exists_check_flagged : ∃ s : State Bool, Reachable Init SteadyStep s ∧ s.pc true = .check 5 0 ∧
    s.pc false = .free 0 .del ∧ s.reFreed 0 = true := by
  have h₀ : Reachable Init SteadyStep unused := .of_init init_unused
  have h₁ := steady_tail h₀ (.malloc (t := false) _ 0 5 7 rfl rfl) (by decide)
  have h₂ := steady_tail h₁ (.addLock (t := false) _ 0 rfl rfl) (by decide)
  have h₃ := steady_tail h₂ (.link (t := false) _ 0 rfl) (by decide)
  have h₄ := steady_tail h₃ (.reset (t := false) _ 0 rfl) (by decide)
  have h₅ := steady_tail h₄ (.publish (t := false) _ 0 rfl) (by decide)
  have h₆ := steady_tail h₅ (.unlock (t := false) _ none rfl) (by decide)
  have h₇ := steady_tail h₆ (.callLookup (t := true) _ 5 rfl) (by decide)
  have h₈ := steady_tail h₇ (.load (t := true) _ 5 .routeList 0 rfl rfl) (by decide)
  have h₉ := steady_tail h₈ (.callDel (t := false) _ 5 rfl) (by decide)
  have h₁₀ := steady_tail h₉ (.delLock (t := false) _ 5 rfl rfl) (by decide)
  have h₁₁ := steady_tail h₁₀ (.scan (t := false) _ 5 .routeList 0 rfl rfl) (by decide)
  have h₁₂ := steady_tail h₁₁ (.test (t := false) _ 5 .routeList 0 rfl) (by decide)
  have h₁₃ := steady_tail h₁₂ (.skip (t := false) _ .routeList 0 rfl) (by decide)
  have h₁₄ := steady_tail h₁₃ (.unlock (t := false) _ (some 0) rfl) (by decide)
  have h₁₅ := steady_tail h₁₄ (.put (t := false) _ 0 .del rfl) (by decide)
  exact ⟨_, steady_tail h₁₅ (.flag (t := false) _ 0 .del rfl) (by decide), rfl, rfl, rfl⟩

theorem accesses_allocated_check : ∃ s : State Bool, s.pc true = .check 5 0 ∧ s.stage 0 ≠ .free ∧
    ∃ u k, s.pc u = .free 0 k := by
  obtain ⟨s, h, hc, -, hf⟩ := exists_check_flagged
  have hs := accesses_allocated (by decide) h
  exact ⟨s, hc, hs.1 true 0 (by rw [hc]; rfl), hs.2.2.2 true 5 0 hc hf⟩

/-- Where the defect shows: the entry is freed under the lookup. -/
theorem exists_dangling : ∃ s : State Bool, Reachable Init Next s ∧ ¬ Steady s := by
  obtain ⟨s, h, hc, hd, -⟩ := exists_check_flagged
  refine ⟨_, h.of_within.tail ⟨false, .free s 0 .del hd⟩, fun hs => ?_⟩
  have hcheck : ((s.setStage 0 .free).setPc false After.del.pc).pc true = .check 5 0 :=
    (setPc_of_ne (s.setStage 0 .free) false After.del.pc (by simp)).trans hc
  have hst : (s.setStage 0 .free).stage 0 = .linked := hs true 0 (by rw [hcheck]; rfl)
  exact (linked_of_setStage (by simp) hst).1 rfl

end Wizard.RouteRefcnt
