import Wizard.LockFreeQueueSeen

/-! The queue as the pushes of `lock_free_queue.h` would have it without the pops: what they read
of it they find in the queue as well, counts apart. -/

namespace Wizard.LockFreeQueue.Shared

variable {T Tid : Type*} {q q' b b' : LockFreeQueue.State T Tid} {t : Tid} {made made' taken : Nat → Prop} {p p' : Pc}
  {front : List Nat} {last : Nat} {rest : Option Nat} {a : Nat} {x x' : CountedNode Nat} {c c' : NodeCounter}

/-- Where a push stands that has not loaded a count. -/
def blur : Pc → Pc
  | .freeCas old _ k => .freeLoad old k
  | .releaseCas p old _ k => .releaseLoad p old k
  | p => p

theorem blur_pc (k : After) (old : CountedNodePtr) : blur (k.pc old) = k.pc old := by
  cases k <;> rfl

theorem blur_eq_swing {old new : CountedNodePtr} {k : After} (h : blur p = .swing old a new k) :
    p = .swing old a new k := by
  cases p <;> first | exact h | cases h

theorem filled?_blur (p p' : Pc) : filled? (blur p) (blur p') = filled? p p' := by
  cases p with
  | data => cases p' <;> rfl
  | _ => rfl

theorem filled?_self (p : Pc) : filled? p p = none := by
  cases p <;> rfl

theorem live_of_setCount {u : Nat} (h : (q.setCount a c).live u) : q.live u := by
  change (if c.isZero then fun y => y ≠ a ∧ q.live y else q.live) u at h
  split at h
  · exact h.2
  · exact h

/-- `b` is the queue `q` without the pops, which have taken the objects of the nodes `taken`. -/
structure Shadow (made taken : Nat → Prop) (q b : LockFreeQueue.State T Tid) : Prop where
  tail : b.tail = q.tail
  values : b.values = q.values
  next : ∀ a, (b.node a).next = (q.node a).next
  data : ∀ a, (q.node a).data ≠ none ∨ ¬ taken a → (b.node a).data = (q.node a).data
  live : ∀ a, b.live a → made a
  pc : ∀ t, b.pc t = blur (q.pc t)

namespace Shadow

theorem mono {taken' : Nat → Prop} (h : Shadow made taken q b) (hm : ∀ a, taken a → taken' a) :
    Shadow made taken' q b :=
  { h with data := fun a ha => h.data a (ha.imp_right fun hn ht => hn (hm a ht)) }

theorem setNode (h : Shadow made taken q b) (hn : x'.next = x.next)
    (hd : x.data ≠ none ∨ ¬ taken a → x'.data = x.data) :
    Shadow made taken (q.setNode a x) (b.setNode a x') := by
  have hother : ∀ u, u ≠ a → (q.setNode a x).node u = q.node u ∧ (b.setNode a x').node u = b.node u :=
    fun u hu => ⟨setNode_of_ne q x hu, setNode_of_ne b x' hu⟩
  have hself : (q.setNode a x).node a = x ∧ (b.setNode a x').node a = x' := by simp [State.setNode]
  refine ⟨h.tail, h.values, fun u => ?_, fun u hu => ?_, h.live, h.pc⟩
  · by_cases hua : u = a
    · rw [hua, hself.1, hself.2]
      exact hn
    · rw [(hother u hua).1, (hother u hua).2]
      exact h.next u
  · by_cases hua : u = a
    · rw [hua, hself.1] at hu
      rw [hua, hself.1, hself.2]
      exact hd hu
    · rw [(hother u hua).1] at hu
      rw [(hother u hua).1, (hother u hua).2]
      exact h.data u hu

theorem setCount (h : Shadow made taken q b) {F F' : Nat → Nat} :
    Shadow made taken { q.setCount a c with freed := F } { b.setCount a c' with freed := F' } := by
  have hs : Shadow made taken (q.setNode a { q.node a with count := c }) (b.setNode a { b.node a with count := c' }) :=
    h.setNode (h.next a) (h.data a)
  exact ⟨hs.tail, hs.values, hs.next, hs.data, fun u hu => h.live u (live_of_setCount hu), hs.pc⟩

/-- A pop changes a count. -/
theorem recount (h : Shadow made taken q b) (a : Nat) (c : NodeCounter) : Shadow made taken (q.setCount a c) b := by
  have hb : b.setNode a (b.node a) = b := by simp [State.setNode]
  have hs : Shadow made taken (q.setNode a { q.node a with count := c }) (b.setNode a (b.node a)) :=
    h.setNode (h.next a) (h.data a)
  rw [hb] at hs
  exact ⟨hs.tail, hs.values, hs.next, hs.data, hs.live, hs.pc⟩

theorem allocate (h : Shadow made taken q b) (n : Nat) {l l' : List T} (hl : l' = l) :
    Shadow (fun a => made a ∨ a = n ∨ q.live a) taken
      { q.setNode n .make with live := fun a => a = n ∨ q.live a, values := l }
      { b.setNode n .make with live := fun a => a = n ∨ b.live a, values := l' } := by
  have hnode : Shadow made taken (q.setNode n .make) (b.setNode n .make) := h.setNode rfl fun _ => rfl
  refine ⟨hnode.tail, hl, hnode.next, hnode.data, fun a ha => ?_, hnode.pc⟩
  rcases ha with rfl | ha
  · exact .inr (.inl rfl)
  · exact .inl (h.live a ha)

theorem retail (h : Shadow made taken q b) (new : CountedNodePtr) :
    Shadow made taken { q with tail := new } { b with tail := new } :=
  ⟨rfl, h.values, h.next, h.data, h.live, h.pc⟩

variable [DecidableEq Tid]

theorem recount_setPc (F : Nat → Nat) :
    ({ (b.setPc t p).setCount a c with freed := F } : LockFreeQueue.State T Tid).setPc t p' =
      ({ b.setCount a c with freed := F } : LockFreeQueue.State T Tid).setPc t p' := by
  simp [State.setPc, State.setCount, State.setNode]

theorem go (h : Shadow made taken q b) (hp : p' = blur p) (hm : ∀ a, made a → made' a) :
    Shadow made' taken (q.setPc t p) (b.setPc t p') := by
  refine ⟨h.tail, h.values, h.next, h.data, fun a ha => hm a (h.live a ha), fun u => ?_⟩
  by_cases hu : u = t
  · rw [hu, setPc_pc, setPc_pc]
    exact hp
  · simp only [State.setPc, Function.update_of_ne hu]
    exact h.pc u

omit [DecidableEq Tid] in
theorem careful (h : Shadow made taken q b) (h' : Shadow made' taken q' b') (hc : Careful t q q') : Careful t b b' := by
  have hsw : ∀ {old p new k}, b.pc t = .swing old p new k → q.pc t = .swing old p new k := fun hb =>
    blur_eq_swing ((h.pc t).symm.trans hb)
  constructor
  · intro old p new k hb htail
    rw [h.tail] at htail
    rw [h'.tail]
    exact hc.first old p new k (hsw hb) htail
  · intro old p new k hb htail
    rw [h.tail] at htail ⊢
    rw [h'.tail]
    exact hc.again old p new k (hsw hb) htail

/-- The push takes the same step without the pops. -/
theorem once (h : Shadow made taken q b) (hi : Inv b front last rest) (hc : Careful t q q')
    (hs : LockFreeQueue.Step t b b') (h' : Shadow made' taken q' b') : ∃ b' front' last' rest',
      Inv b' front' last' rest' ∧ Grows b b' (front ++ [last]) (filled? (q.pc t) (q'.pc t)) (front' ++ [last']) ∧
        Shadow made' taken q' b' := by
  obtain ⟨front', last', rest', hi', hg⟩ := hi.grows hs (h.careful h' hc)
  rw [h.pc, h'.pc, filled?_blur] at hg
  exact ⟨b', front', last', rest', hi', hg, h'⟩

/-- The push does something with a count. -/
theorem stay (h : Shadow made taken q b) (hi : Inv b front last rest) (hp : blur p = blur (q.pc t))
    (hm : ∀ a, made a → made' a) : ∃ b' front' last' rest',
      Inv b' front' last' rest' ∧
        Grows b b' (front ++ [last]) (filled? (q.pc t) ((q.setPc t p).pc t)) (front' ++ [last']) ∧
          Shadow made' taken (q.setPc t p) b' := by
  have hf : filled? (q.pc t) ((q.setPc t p).pc t) = none := by
    rw [setPc_pc, ← filled?_blur, hp, filled?_self]
  rw [hf]
  have hb : b.setPc t (b.pc t) = b := by simp [State.setPc]
  have h' : Shadow made' taken (q.setPc t p) (b.setPc t (b.pc t)) := h.go ((h.pc t).trans hp.symm) hm
  rw [hb] at h'
  exact ⟨b, front, last, rest, hi, .same rfl fun _ _ => rfl, h'⟩

/-- The push changes a count that it has loaded. -/
theorem of_count (hi : Inv (b.setPc t p) front last rest) (hq : filled? (q.pc t) (q'.pc t) = none)
    (hb : filled? p (b'.pc t) = none) (hc : ∀ old u new k, p ≠ .swing old u new k)
    (hs : LockFreeQueue.Step t (b.setPc t p) b')
    (h' : Shadow made' taken q' b') : ∃ b' front' last' rest',
      Inv b' front' last' rest' ∧ Grows b b' (front ++ [last]) (filled? (q.pc t) (q'.pc t)) (front' ++ [last']) ∧
        Shadow made' taken q' b' := by
  obtain ⟨front', last', rest', hi', hg⟩ := hi.grows hs (careful_of_ne (by rwa [setPc_pc]))
  rw [setPc_pc, hb] at hg
  rw [hq]
  exact ⟨b', front', last', rest', hi', hg.congr rfl rfl, h'⟩

/-- What a push does to the queue it does without the pops. -/
theorem step (h : Shadow made taken q b) (hi : Inv b front last rest) (hs : LockFreeQueue.Step t q q')
    (hc : Careful t q q')
    (hd : ∀ k n old p, q.pc t = .data k n old → old.ptr = some p → (q.node p).data = none → ¬ taken p)
    (hf : ∀ a, q'.live a → q.live a ∨ ¬ made a) : ∃ b' front' last' rest',
      Inv b' front' last' rest' ∧ Grows b b' (front ++ [last]) (filled? (q.pc t) (q'.pc t)) (front' ++ [last']) ∧
        Shadow (fun a => made a ∨ q'.live a) taken q' b' := by
  have hpc : b.pc t = blur (q.pc t) := h.pc t
  have hm : ∀ a, made a → made a ∨ q'.live a := fun a ha => .inl ha
  have hnew : ∀ n, ¬ q.live n → q'.live n → ¬ b.live n := fun n hn hn' hb =>
    ((hf n hn').resolve_left hn) (h.live n hb)
  cases hs with
  | push v n ht hn =>
    rw [ht] at hpc
    have hn' := hnew n hn (.inl rfl)
    refine h.once hi hc (.push b v n hpc hn') ?_
    rw [h.values]
    exact (h.allocate n rfl).go rfl fun _ ha => ha
  | load k n ht =>
    rw [ht] at hpc
    refine h.once hi hc (.load b k n hpc) ?_
    rw [h.tail]
    exact h.go rfl hm
  | increaseOk k n old ht he =>
    rw [ht] at hpc
    exact h.once hi hc (.increaseOk b k n old hpc (h.tail.trans he)) ((h.retail _).go rfl hm)
  | increaseFail k n old ht he =>
    rw [ht] at hpc
    refine h.once hi hc (.increaseFail b k n old hpc (by rwa [h.tail])) ?_
    rw [h.tail]
    exact h.go rfl hm
  | dataOk k n old p ht hp he =>
    rw [ht] at hpc
    have hnone : (b.node p).data = none := (h.data p (.inr (hd k n old p ht hp he))).trans he
    refine h.once hi hc (.dataOk b k n old p hpc hp hnone) (go ?_ rfl hm)
    exact h.setNode (h.next p) fun _ => rfl
  | dataFail k n old p ht hp he =>
    rw [ht] at hpc
    have hsome : (b.node p).data ≠ none := by rwa [h.data p (.inl he)]
    exact h.once hi hc (.dataFail b k n old p hpc hp hsome) (h.go rfl hm)
  | nextOk n old p ht hp he =>
    rw [ht] at hpc
    refine h.once hi hc (.nextOk b n old p hpc hp ((h.next p).trans he)) (go ?_ rfl hm)
    exact h.setNode rfl (h.data p)
  | nextFail n old p ht hp he =>
    rw [ht] at hpc
    refine h.once hi hc (.nextFail b n old p hpc hp (by rwa [h.next p])) ?_
    rw [h.next p]
    refine go ?_ rfl hm
    exact ⟨h.tail, h.values, h.next, h.data, fun a ha => h.live a ha.2, h.pc⟩
  | helpOk k n old p ht hp he =>
    rw [ht] at hpc
    refine h.once hi hc (.helpOk b k n old p hpc hp ((h.next p).trans he)) (go ?_ rfl hm)
    exact h.setNode rfl (h.data p)
  | helpFail k n old p ht hp he =>
    rw [ht] at hpc
    refine h.once hi hc (.helpFail b k n old p hpc hp (by rwa [h.next p])) ?_
    rw [h.next p]
    exact h.go rfl hm
  | renew k old p new n ht hn =>
    rw [ht] at hpc
    have hn' := hnew n hn (.inl rfl)
    exact h.once hi hc (.renew b k old p new n hpc hn') ((h.allocate n h.values).go rfl fun _ ha => ha)
  | swingOk old p new k ht he =>
    rw [ht] at hpc
    refine h.once hi hc (.swingOk b old p new k hpc (h.tail.trans he)) (go ?_ ?_ hm)
    · exact ⟨rfl, h.values, h.next, h.data, h.live, h.pc⟩
    · split <;> rfl
  | swingFail old p new k ht =>
    rw [ht] at hpc
    refine h.once hi hc (.swingFail b old p new k hpc) (h.go ?_ hm)
    rw [h.tail]
    split <;> rfl
  | freeLoad old k p ht hp => exact h.stay hi (by rw [ht]; rfl) hm
  | freeCasOk old c k p ht hp he =>
    rw [ht] at hpc
    have hi' : Inv (b.setPc t (.freeCas old (b.node p).count k)) front last rest :=
      hi.goOn (by rw [hpc]; rfl) (by rw [hpc]; rfl) (by rw [hpc]; rfl) (by rw [hpc]; exact id) trivial
    refine of_count hi' (by rw [ht]; rfl) rfl (by simp) (.freeCasOk _ old _ k p (setPc_pc ..) hp rfl) ?_
    rw [recount_setPc]
    exact go h.setCount (blur_pc k old).symm hm
  | freeCasFail old c k p ht hp he => exact h.stay hi (by rw [ht]; rfl) hm
  | releaseLoad p old k ht => exact h.stay hi (by rw [ht]; rfl) hm
  | releaseCasOk p old c k ht he =>
    rw [ht] at hpc
    have hok := hi.pcs t
    rw [hpc] at hok
    have hi' : Inv (b.setPc t (.releaseCas p old (b.node p).count k)) front last rest :=
      hi.goOn (by rw [hpc]; rfl) (by rw [hpc]; rfl) (by rw [hpc]; rfl) (by rw [hpc]; exact id) hok
    refine of_count hi' (by rw [ht]; rfl) rfl (by simp) (.releaseCasOk _ p old _ k (setPc_pc ..) rfl) ?_
    rw [recount_setPc]
    exact go h.setCount (blur_pc k old).symm hm
  | releaseCasFail p old c k ht he => exact h.stay hi (by rw [ht]; rfl) hm

end Shadow

end Wizard.LockFreeQueue.Shared
