import Wizard.PoolPlaces

/-! Every link in use carries the tag of the latest push of its node, so a pop whose
compare-and-swap succeeds has read the successor that the node has now. -/

namespace Wizard.Pool

variable {Tid Cache Handle : Type*}

def Pc.loaded? : Pc Handle → Option (TaggedIndex × Nat)
  | .popRead _ _ oldHead since | .popCas _ _ oldHead _ since => some (oldHead, since)
  | _ => none

def Pc.linking? : Pc Handle → Option (Nat × TaggedIndex)
  | .pushWrite _ _ i _ newHead | .pushCas _ _ i _ newHead => some (i, newHead)
  | _ => none

theorem Pc.node?_of_linking? {p : Pc Handle} {i : Nat} {new : TaggedIndex}
    (h : p.linking? = some (i, new)) : p.node? = some i := by
  cases p <;> simp_all [Pc.linking?, Pc.node?]

/-- A pop remembers a link and the number of pushes its node had seen by then; a
thread that has begun to push the node since then makes that number stale. -/
structure Tagged (num : Nat) (s : State Tid Cache Handle) (list : Which → List Nat) : Prop where
  linked : ∀ w, Linked s.nodes s.pushes (s.head w) (list w)
  index : ∀ i, i < num → (s.nodes i).index = BitVec.ofNat 64 i
  tag : ∀ i, i < num → (s.nodes i).tag = BitVec.ofNat 64 (s.pushes i)
  pushed : ∀ i, i < num → 1 ≤ s.pushes i
  loaded : ∀ t old since, (s.pc t).loaded? = some (old, since) →
    ∃ i, i < num ∧ old = link i (since - 1) ∧ 1 ≤ since ∧ since ≤ s.pushes i ∧
      ∀ u new, (s.pc u).linking? = some (i, new) → since < s.pushes i
  successor : ∀ t w h old new since, s.pc t = .popCas w h old new since →
    s.pushes (getIndex old).toNat = since → new = (s.nodes (getIndex old).toNat).next
  linking : ∀ t i new, (s.pc t).linking? = some (i, new) → new = link i (s.pushes i - 1)
  written : ∀ t w h i old new, s.pc t = .pushCas w h i old new → (s.nodes i).next = old

variable {num collectiveNum : Nat} {s s' : State Tid Cache Handle} {list : Which → List Nat}

/-- What holds in every state of a run. -/
def Inv (num collectiveNum : Nat) (s : State Tid Cache Handle) : Prop :=
  ∃ list, Placed num collectiveNum s list ∧ Tagged num s list

/-- The two lists of a pool that was just constructed. -/
def constructedList (num collectiveNum : Nat) : Which → List Nat
  | .market => List.range' collectiveNum (num - collectiveNum)
  | .collective => List.range' 0 collectiveNum

theorem inv_init (hc : 0 < collectiveNum) (hn : collectiveNum < num) (hnum : num < 2 ^ 32)
    (hs : init num collectiveNum s) : Inv num collectiveNum s := by
  obtain ⟨hcon, hcache, hhandle, hpc, hpush⟩ := hs
  rw [construct_eq hc hn] at hcon
  obtain ⟨hnodes, hhead⟩ : constructedNode num collectiveNum = s.nodes ∧
      constructedHead collectiveNum = s.head := by simpa using hcon
  let list := constructedList num collectiveNum
  have hlist : ∀ i w, i ∈ list w ↔ i < num ∧ (w = .collective ↔ i < collectiveNum) := by
    intro i w
    cases w with
    | market =>
      simp only [list, constructedList, List.mem_range'_1, reduceCtorEq, false_iff]
      omega
    | collective =>
      simp only [list, constructedList, List.mem_range'_1, true_iff]
      omega
  have hat : ∀ i p, At s list i p ↔ i < num ∧ p = .list (if i < collectiveNum then .collective else .market) := by
    intro i p
    cases p with
    | list w =>
      simp only [At, hlist, Place.list.injEq]
      by_cases hi : i < collectiveNum <;> cases w <;> simp [hi]
    | cache c => simp [At, hcache]
    | held x => simp [At, hhandle]
    | flight t => simp [At, hpc]
  refine ⟨list, ⟨?_, ?_, ⟨?_, ?_, ?_⟩, ?_, ?_, ?_⟩, ?_⟩
  · intro w
    cases w <;> exact List.nodup_range'
  · intro c
    simp [hcache]
  · intro i p hp
    exact ((hat i p).1 hp).1
  · intro i hi
    exact ⟨_, (hat i _).2 ⟨hi, rfl⟩⟩
  · intro i p q hp hq
    rw [((hat i p).1 hp).2, ((hat i q).1 hq).2]
  · intro i p hp
    rw [((hat i p).1 hp).2]
    by_cases hi : i < collectiveNum <;> simp [Fits, hi]
  · constructor <;> intros <;> simp_all
  · intro i hi
    simp [← hnodes, constructedNode, hi]
  · have hnext : ∀ i, i < num → (s.nodes i).next =
        if i + 1 < num ∧ i + 1 ≠ collectiveNum then link (i + 1) 0 else nullIndex := by
      intro i hi
      simp [← hnodes, constructedNode, hi]
    constructor
    · intro w
      rw [← hhead]
      cases w with
      | market =>
        apply linked_range (by omega) (by omega)
        · intro i _ hi
          rw [hpush, if_pos (by omega)]
        · intro i h h'
          rw [hnext i (by omega)]
          congr 1
          simp only [eq_iff_iff]
          omega
      | collective =>
        apply linked_range hc (by omega)
        · intro i _ hi
          rw [hpush, if_pos (by omega)]
        · intro i h h'
          rw [hnext i (by omega)]
          congr 1
          simp only [eq_iff_iff]
          omega
    · intro i hi
      simp [← hnodes, constructedNode, hi]
    · intro i hi
      simp [← hnodes, constructedNode, hi, hpush]
    · intro i hi
      simp [hpush, hi]
    all_goals
      intros
      simp_all [Pc.loaded?, Pc.linking?]

theorem Tagged.congr (h : Tagged num s list) (hn : s'.nodes = s.nodes) (hk : s'.pushes = s.pushes)
    (hh : s'.head = s.head)
    (hpc : ∀ u, s'.pc u = s.pc u ∨ (s'.pc u).loaded? = none ∧ (s'.pc u).linking? = none) :
    Tagged num s' list := by
  have hl : ∀ u x, (s'.pc u).loaded? = some x → s'.pc u = s.pc u := by
    intro u x hx
    rcases hpc u with hu | ⟨hu, -⟩
    · exact hu
    · rw [hu] at hx
      cases hx
  have hm : ∀ u x, (s'.pc u).linking? = some x → s'.pc u = s.pc u := by
    intro u x hx
    rcases hpc u with hu | ⟨-, hu⟩
    · exact hu
    · rw [hu] at hx
      cases hx
  constructor
  · intro w
    rw [hn, hk, hh]
    exact h.linked w
  · rw [hn]
    exact h.index
  · rw [hn, hk]
    exact h.tag
  · rw [hk]
    exact h.pushed
  · intro t old since ht
    rw [hl t _ ht] at ht
    rw [hk]
    obtain ⟨i, hi, ho, h1, hle, hlt⟩ := h.loaded t old since ht
    refine ⟨i, hi, ho, h1, hle, fun u new hu => ?_⟩
    rw [hm u _ hu] at hu
    exact hlt u new hu
  · intro t w x old new since ht
    rw [hl t (old, since) (by rw [ht]; rfl)] at ht
    rw [hn, hk]
    exact h.successor t w x old new since ht
  · intro t i new ht
    rw [hm t _ ht] at ht
    rw [hk]
    exact h.linking t i new ht
  · intro t w x i old new ht
    rw [hm t (i, new) (by rw [ht]; rfl)] at ht
    rw [hn]
    exact h.written t w x i old new ht

/-- A link that is at the head again, with fewer than `2 ^ 32` pushes of its node in
between, has the node's present successor. -/
theorem Tagged.newHead_eq (h : Tagged num s list) (hnum : num < 2 ^ 32) {t : Tid} {w : Which} {x : Handle}
    {old new : TaggedIndex} {since : Nat} (ht : s.pc t = .popCas w x old new since) (he : s.head w = old)
    (hfresh : s.pushes (getIndex old).toNat < since + 2 ^ 32) :
    ∃ i rest, list w = i :: rest ∧ (getIndex old).toNat = i ∧ i < num ∧ new = (s.nodes i).next ∧
      Linked s.nodes s.pushes new rest := by
  obtain ⟨i, hi, ho, h1, hle, -⟩ := h.loaded t old since (by rw [ht]; rfl)
  have hidx : (getIndex old).toNat = i := by
    rw [ho]
    exact getIndex_link _ (by omega)
  have hnull : s.head w ≠ nullIndex := by
    rw [he, ho]
    exact link_ne_null _ (by omega)
  obtain ⟨j, rest, hl, hhead, hj1, hj, hrest⟩ := (h.linked w).head hnull
  rw [he, ho] at hhead
  obtain ⟨rfl, htag⟩ := link_inj (by omega) (by omega) hhead
  rw [hidx] at hfresh
  have hsince : s.pushes i = since := by omega
  have hnew := h.successor t w x old new since ht (by rw [hidx]; exact hsince)
  rw [hidx] at hnew
  rw [← hnew] at hrest
  exact ⟨i, rest, hl, hidx, hi, hnew, hrest⟩

variable [DecidableEq Tid]

theorem linking_setPc {t : Tid} {pc : Pc Handle} (h : pc.linking? = (s.pc t).linking?) (u : Tid) :
    ((s.setPc t pc).pc u).linking? = (s.pc u).linking? := by
  by_cases hu : u = t
  · simp [State.setPc, hu, h]
  · simp [State.setPc, hu]

theorem pc_of_setPc {t u : Tid} {p p' : Pc Handle} (hu : (s.setPc t p).pc u = p') (hne : p ≠ p') : s.pc u = p' := by
  by_cases hut : u = t
  · exact absurd (by simpa [State.setPc, hut] using hu) hne
  · simpa [State.setPc, hut] using hu

theorem Tagged.loaded_setPc (h : Tagged num s list) {t : Tid} {p : Pc Handle} (hp : p.loaded? = none)
    (hm : ∀ u, ((s.setPc t p).pc u).linking? = (s.pc u).linking?) (u : Tid) (old : TaggedIndex) (since : Nat)
    (hu : ((s.setPc t p).pc u).loaded? = some (old, since)) : ∃ i, i < num ∧ old = link i (since - 1) ∧ 1 ≤ since ∧
      since ≤ s.pushes i ∧ ∀ v new, ((s.setPc t p).pc v).linking? = some (i, new) → since < s.pushes i := by
  by_cases hut : u = t
  · simp [State.setPc, hut, hp] at hu
  · obtain ⟨i, hi, ho, h1, hle, hlt⟩ := h.loaded u old since (by simpa [State.setPc, hut] using hu)
    refine ⟨i, hi, ho, h1, hle, fun v new hv => ?_⟩
    rw [hm] at hv
    exact hlt v new hv

theorem Tagged.popRead (h : Tagged num s list) {t : Tid} {w : Which} {x : Handle} {old : TaggedIndex}
    {since : Nat} (ht : s.pc t = .popRead w x old since) :
    Tagged num (s.setPc t (.popCas w x old (s.nodes (getIndex old).toNat).next since)) list := by
  have hm : ∀ u, ((s.setPc t (.popCas w x old (s.nodes (getIndex old).toNat).next since)).pc u).linking? =
      (s.pc u).linking? := linking_setPc (by rw [ht]; rfl)
  constructor
  · exact h.linked
  · exact h.index
  · exact h.tag
  · exact h.pushed
  · intro u o k hu
    have hu' : (s.pc u).loaded? = some (o, k) := by
      by_cases hut : u = t
      · simpa [State.setPc, hut, ht, Pc.loaded?] using hu
      · simpa [State.setPc, hut] using hu
    obtain ⟨i, hi, ho, h1, hle, hlt⟩ := h.loaded u o k hu'
    refine ⟨i, hi, ho, h1, hle, fun v new hv => ?_⟩
    rw [hm] at hv
    exact hlt v new hv
  · intro u v y o n k hu
    by_cases hut : u = t
    · have hu' : w = v ∧ x = y ∧ old = o ∧ (s.nodes (getIndex old).toNat).next = n ∧ since = k := by
        simpa [State.setPc, hut] using hu
      obtain ⟨-, -, rfl, rfl, -⟩ := hu'
      intro _
      rfl
    · exact h.successor u v y o n k (by simpa [State.setPc, hut] using hu)
  · intro u i new hu
    rw [hm] at hu
    exact h.linking u i new hu
  · intro u v y i o n hu
    exact h.written u v y i o n (pc_of_setPc hu (by simp))

/-- The head that a pop loads names a node that no thread is pushing. -/
theorem Tagged.load (h : Tagged num s list) (hp : Placed num collectiveNum s list) {t : Tid} {w : Which}
    {x : Handle} (hw : s.head w ≠ nullIndex) :
    Tagged num (s.setPc t (.popRead w x (s.head w) (s.pushes (getIndex (s.head w)).toNat))) list := by
  obtain ⟨i, rest, hl, hhead, h1, hi, -⟩ := (h.linked w).head hw
  have hidx : (getIndex (s.head w)).toNat = i := by
    rw [hhead]
    exact getIndex_link _ (by omega)
  rw [hidx]
  have hat : At s list i (.list w) := by simp [At, hl]
  have hm : ∀ u k new, ((s.setPc t (.popRead w x (s.head w) (s.pushes i))).pc u).linking? = some (k, new) →
      (s.pc u).linking? = some (k, new) := by
    intro u k new hu
    by_cases hut : u = t
    · simp [State.setPc, hut, Pc.linking?] at hu
    · simpa [State.setPc, hut] using hu
  constructor
  · exact h.linked
  · exact h.index
  · exact h.tag
  · exact h.pushed
  · intro u o k hu
    by_cases hut : u = t
    · have hu' : s.head w = o ∧ s.pushes i = k := by simpa [State.setPc, hut, Pc.loaded?] using hu
      obtain ⟨rfl, rfl⟩ := hu'
      refine ⟨i, hp.place.mem i _ hat, hhead, h1, le_refl _, fun v new hv => ?_⟩
      have hflight : At s list i (.flight v) := Pc.node?_of_linking? (hm v i new hv)
      cases hp.place.unique i _ _ hat hflight
    · obtain ⟨j, hj, ho, hk1, hle, hlt⟩ := h.loaded u o k (by simpa [State.setPc, hut] using hu)
      exact ⟨j, hj, ho, hk1, hle, fun v new hv => hlt v new (hm v j new hv)⟩
  · intro u v y o n k hu
    exact h.successor u v y o n k (pc_of_setPc hu (by simp))
  · intro u k new hu
    exact h.linking u k new (hm u k new hu)
  · intro u v y k o n hu
    exact h.written u v y k o n (pc_of_setPc hu (by simp))

theorem Tagged.pushCasFail (h : Tagged num s list) {t : Tid} {w : Which} {x : Handle} {i : Nat}
    {old old' new : TaggedIndex} (ht : s.pc t = .pushCas w x i old new) :
    Tagged num (s.setPc t (.pushWrite w x i old' new)) list := by
  have hm : ∀ u, ((s.setPc t (.pushWrite w x i old' new)).pc u).linking? = (s.pc u).linking? :=
    linking_setPc (by rw [ht]; rfl)
  constructor
  · exact h.linked
  · exact h.index
  · exact h.tag
  · exact h.pushed
  · exact h.loaded_setPc rfl hm
  · intro u v y o n k hu
    exact h.successor u v y o n k (pc_of_setPc hu (by simp))
  · intro u k n hu
    rw [hm] at hu
    exact h.linking u k n hu
  · intro u v y k o n hu
    exact h.written u v y k o n (pc_of_setPc hu (by simp))

theorem Tagged.pushLoad (h : Tagged num s list) (hp : Placed num collectiveNum s list) (hnum : num < 2 ^ 32)
    {t : Tid} {w : Which} {x : Handle} {i : Nat} (ht : s.pc t = .pushLoad w x i) :
    Tagged num ({ s with
        nodes := s.nodes.advanceTag i
        pushes := Function.update s.pushes i (s.pushes i + 1) }.setPc t
          (.pushWrite w x i (s.head w) (makeTaggedIndex (s.nodes i).index (s.nodes i).tag))) list := by
  have hat : At s list i (.flight t) := by simp [At, ht, Pc.node?]
  have hi := hp.place.mem i _ hat
  have hlink : makeTaggedIndex (s.nodes i).index (s.nodes i).tag = link i (s.pushes i) := by
    rw [h.index i hi, h.tag i hi, link]
  rw [hlink]
  constructor
  · intro w'
    apply (h.linked w').congr
    intro j hj
    have hji := hp.ne_of_flight hat hj
    exact ⟨advanceTag_next s.nodes i j, Function.update_of_ne hji _ _⟩
  · intro j hj
    by_cases hji : j = i
    · simpa [State.setPc, Nodes.advanceTag, hji] using h.index i hi
    · simpa [State.setPc, Nodes.advanceTag, hji] using h.index j hj
  · intro j hj
    by_cases hji : j = i
    · simp [State.setPc, Nodes.advanceTag, hji, h.tag i hi, BitVec.ofNat_add]
    · simpa [State.setPc, Nodes.advanceTag, hji] using h.tag j hj
  · intro j hj
    by_cases hji : j = i
    · simp [State.setPc, hji]
    · simpa [State.setPc, hji] using h.pushed j hj
  · intro u o k hu
    by_cases hut : u = t
    · simp [State.setPc, hut, Pc.loaded?] at hu
    · obtain ⟨j, hj, ho, h1, hle, hlt⟩ := h.loaded u o k (by simpa [State.setPc, hut] using hu)
      by_cases hji : j = i
      · subst hji
        have hlater : k < Function.update s.pushes j (s.pushes j + 1) j := by
          rw [Function.update_self]
          omega
        exact ⟨j, hj, ho, h1, le_of_lt hlater, fun _ _ _ => hlater⟩
      · refine ⟨j, hj, ho, h1, by simpa [State.setPc, hji] using hle, fun v n hv => ?_⟩
        by_cases hvt : v = t
        · have hv' : i = j ∧ link i (s.pushes i) = n := by simpa [State.setPc, hvt, Pc.linking?] using hv
          exact absurd hv'.1.symm hji
        · simpa [State.setPc, hji] using hlt v n (by simpa [State.setPc, hvt] using hv)
  · intro u v y o n k hu hk
    have hu' : s.pc u = .popCas v y o n k := pc_of_setPc hu (by simp)
    obtain ⟨j, hj, ho, h1, hle, -⟩ := h.loaded u o k (by rw [hu']; rfl)
    by_cases hji : (getIndex o).toNat = i
    · have hidx : (getIndex o).toNat = j := by
        rw [ho]
        exact getIndex_link _ (by omega)
      subst hji
      rw [hidx] at hk
      simp only [State.setPc, Function.update_self] at hk
      omega
    · have hnext := h.successor u v y o n k hu' (by simpa [State.setPc, hji] using hk)
      rw [hnext]
      exact (advanceTag_next s.nodes i _).symm
  · intro u k n hu
    by_cases hut : u = t
    · have hu' : i = k ∧ link i (s.pushes i) = n := by simpa [State.setPc, hut, Pc.linking?] using hu
      obtain ⟨rfl, rfl⟩ := hu'
      simp [State.setPc]
    · have hu' : (s.pc u).linking? = some (k, n) := by simpa [State.setPc, hut] using hu
      have hki := hp.ne_of_other_flight hat hut (Pc.node?_of_linking? hu')
      simpa [State.setPc, hki] using h.linking u k n hu'
  · intro u v y k o n hu
    exact (advanceTag_next s.nodes i k).trans (h.written u v y k o n (pc_of_setPc hu (by simp)))

theorem Tagged.pushWrite (h : Tagged num s list) (hp : Placed num collectiveNum s list) (hnum : num < 2 ^ 32)
    {t : Tid} {w : Which} {x : Handle} {i : Nat} {old new : TaggedIndex}
    (ht : s.pc t = .pushWrite w x i old new) :
    Tagged num ({ s with nodes := s.nodes.setNext i old }.setPc t (.pushCas w x i old new)) list := by
  have hat : At s list i (.flight t) := by simp [At, ht, Pc.node?]
  have hm : ∀ u, (({ s with nodes := s.nodes.setNext i old }.setPc t (.pushCas w x i old new)).pc
      u).linking? = (s.pc u).linking? := linking_setPc (by rw [ht]; rfl)
  constructor
  · intro w'
    apply (h.linked w').congr
    intro j hj
    have hji := hp.ne_of_flight hat hj
    simp [State.setPc, Nodes.setNext, hji]
  · intro j hj
    by_cases hji : j = i
    · subst hji
      simpa [State.setPc, Nodes.setNext] using h.index j hj
    · simpa [State.setPc, Nodes.setNext, hji] using h.index j hj
  · intro j hj
    by_cases hji : j = i
    · subst hji
      simpa [State.setPc, Nodes.setNext] using h.tag j hj
    · simpa [State.setPc, Nodes.setNext, hji] using h.tag j hj
  · exact h.pushed
  · exact h.loaded_setPc rfl hm
  · intro u v y o n k hu hk
    have hu' : s.pc u = .popCas v y o n k := pc_of_setPc hu (by simp)
    obtain ⟨j, hj, ho, h1, hle, hlt⟩ := h.loaded u o k (by rw [hu']; rfl)
    have hidx : (getIndex o).toNat = j := by
      rw [ho]
      exact getIndex_link _ (by omega)
    have hji : j ≠ i := by
      intro hji
      subst hji
      have hk' : s.pushes j = k := by
        rw [hidx] at hk
        exact hk
      have hlater := hlt t new (by rw [ht]; rfl)
      omega
    have hnext := h.successor u v y o n k hu' hk
    rw [hidx] at hnext ⊢
    simpa [State.setPc, Nodes.setNext, hji] using hnext
  · intro u k n hu
    rw [hm] at hu
    exact h.linking u k n hu
  · intro u v y k o n hu
    by_cases hut : u = t
    · have hu' : w = v ∧ x = y ∧ i = k ∧ old = o ∧ new = n := by simpa [State.setPc, hut] using hu
      obtain ⟨-, -, rfl, rfl, -⟩ := hu'
      simp [State.setPc, Nodes.setNext]
    · have hu' : s.pc u = .pushCas v y k o n := by simpa [State.setPc, hut] using hu
      have hki := hp.ne_of_other_flight hat hut (show At s list k (.flight u) by simp [At, hu', Pc.node?])
      simpa [State.setPc, Nodes.setNext, hki] using h.written u v y k o n hu'

theorem Tagged.setPc (h : Tagged num s list) {t : Tid} {p : Pc Handle} (hl : p.loaded? = none)
    (hm : p.linking? = none) : Tagged num (s.setPc t p) list := by
  refine h.congr rfl rfl rfl ?_
  intro u
  by_cases hu : u = t
  · exact .inr (by simp [State.setPc, hu, hl, hm])
  · exact .inl (by simp [State.setPc, hu])

variable [DecidableEq Handle]

theorem Tagged.setHead (h : Tagged num s list) {t : Tid} {w : Which} {x : Handle} {o : Owned}
    {new : TaggedIndex} {l : List Nat} (hl : Linked s.nodes s.pushes new l) :
    Tagged num (({ s with head := Function.update s.head w new }.setHandle x o).setPc t .idle)
      (Function.update list w l) := by
  have hbase : Tagged num ((s.setHandle x o).setPc t .idle) list := by
    refine h.congr rfl rfl rfl ?_
    intro u
    by_cases hu : u = t
    · exact .inr (by simp [State.setPc, hu, Pc.loaded?, Pc.linking?])
    · exact .inl (by simp [State.setPc, State.setHandle, hu])
  constructor
  · intro v
    by_cases hv : v = w
    · subst hv
      simpa [State.setPc, State.setHandle] using hl
    · simpa [State.setPc, State.setHandle, hv] using h.linked v
  · exact hbase.index
  · exact hbase.tag
  · exact hbase.pushed
  · exact hbase.loaded
  · exact hbase.successor
  · exact hbase.linking
  · exact hbase.written

omit [DecidableEq Tid] in
theorem Tagged.swap (h : Tagged num s list) (x o : Handle) : Tagged num (s.swap x o) list :=
  h.congr rfl rfl rfl (fun _ => .inl rfl)

variable [DecidableEq Cache]

theorem Tagged.beginRelease (h : Tagged num s list) (cs : Caches Tid Cache) (t : Tid) (x : Handle) :
    Tagged num (s.beginRelease cs t x) list := by
  unfold State.beginRelease
  split
  · exact h
  · exact h.congr rfl rfl rfl (fun _ => .inl rfl)
  · split
    · exact h.setPc rfl rfl
    · split
      · exact h.congr rfl rfl rfl (fun _ => .inl rfl)
      · exact h.setPc rfl rfl

/-- Fewer than `2 ^ 32` pushes of a node lie between the load of a pop and its
compare-and-swap. -/
def Timely (t : Tid) (s : State Tid Cache Handle) : Prop :=
  ∀ w h old new since, s.pc t = .popCas w h old new since →
    s.pushes (getIndex old).toNat < since + 2 ^ 32

def Next (cs : Caches Tid Cache) (s s' : State Tid Cache Handle) : Prop :=
  ∃ t, Step cs t s s' ∧ Timely t s

omit [DecidableEq Cache] in
theorem inv_popLoaded {t : Tid} {w : Which} {h : Handle}
    (ht : s.pc t = .popLoad w h ∨ ∃ o n k, s.pc t = .popCas w h o n k)
    (hs : Inv num collectiveNum s) : Inv num collectiveNum (s.popLoaded t w h) := by
  obtain ⟨list, hp, htag⟩ := hs
  have hhandle : (s.pc t).handle? = some h := by
    rcases ht with ht | ⟨o, n, k, ht⟩ <;> rw [ht] <;> rfl
  have hnode : (s.pc t).node? = none := by
    rcases ht with ht | ⟨o, n, k, ht⟩ <;> rw [ht] <;> rfl
  have htarget : (s.pc t).target? = none := by
    rcases ht with ht | ⟨o, n, k, ht⟩ <;> rw [ht] <;> rfl
  have hgo : ∀ p : Pc Handle, p.handle? = some h → p.node? = none → p.target? = none →
      Placed num collectiveNum (s.setPc t p) list := by
    intro p h1 h2 h3
    exact hp.advance (h1.trans hhandle.symm) (h2.trans hnode.symm) (h3.trans htarget.symm) (fun _ => rfl)
  unfold State.popLoaded
  split
  · cases w with
    | market => exact ⟨list, hgo _ rfl rfl rfl, htag.setPc rfl rfl⟩
    | collective =>
      refine ⟨list, hp.create ht, ?_⟩
      have hset : Tagged num (s.setHandle h .created) list := htag.congr rfl rfl rfl (fun _ => .inl rfl)
      exact hset.setPc rfl rfl
  · exact ⟨list, hgo _ rfl rfl rfl, htag.load hp (by assumption)⟩

theorem inv_step (cs : Caches Tid Cache) (hnum : num < 2 ^ 32) {t : Tid} (hstep : Step cs t s s')
    (htimely : Timely t s) (hs : Inv num collectiveNum s) : Inv num collectiveNum s' := by
  cases hstep with
  | getCached h i rest ht hh hf hc =>
    obtain ⟨list, hp, htag⟩ := hs
    exact ⟨list, hp.getCached hh hf hc, htag.congr rfl rfl rfl (fun _ => .inl rfl)⟩
  | getPop h ht hh hf hc =>
    obtain ⟨list, hp, htag⟩ := hs
    exact ⟨list, hp.getPop ht hh hf, htag.setPc rfl rfl⟩
  | popLoad w h ht => exact inv_popLoaded (.inl ht) hs
  | popRead w h old since ht =>
    obtain ⟨list, hp, htag⟩ := hs
    refine ⟨list, ?_, htag.popRead ht⟩
    exact hp.advance (by rw [ht]; rfl) (by rw [ht]; rfl) (by rw [ht]; rfl) (fun _ => rfl)
  | popCasOk w h old new since ht he =>
    obtain ⟨list, hp, htag⟩ := hs
    obtain ⟨i, rest, hl, hidx, hi, hnew, hrest⟩ :=
      htag.newHead_eq hnum ht he (htimely w h old new since ht)
    rw [hidx]
    exact ⟨_, hp.popCasOk (by rw [ht]; rfl) (by rw [ht]; rfl) hl, htag.setHead hrest⟩
  | popCasFail w h old new since ht => exact inv_popLoaded (.inr ⟨old, new, since, ht⟩) hs
  | release h ht hf =>
    obtain ⟨list, hp, htag⟩ := hs
    exact ⟨list, hp.beginRelease cs ht hf, htag.beginRelease cs t h⟩
  | pushLoad w h i ht =>
    obtain ⟨list, hp, htag⟩ := hs
    refine ⟨list, hp.advance (by rw [ht]; rfl) (by rw [ht]; rfl) (by rw [ht]; rfl) ?_, htag.pushLoad hp hnum ht⟩
    intro j
    by_cases hji : j = i <;> simp [Nodes.advanceTag, hji]
  | pushWrite w h i old new ht =>
    obtain ⟨list, hp, htag⟩ := hs
    refine ⟨list, hp.advance (by rw [ht]; rfl) (by rw [ht]; rfl) (by rw [ht]; rfl) ?_, htag.pushWrite hp hnum ht⟩
    intro j
    by_cases hji : j = i <;> simp [Nodes.setNext, hji]
  | pushCasOk w h i old new ht he =>
    obtain ⟨list, hp, htag⟩ := hs
    have hnode : (s.pc t).node? = some i := by rw [ht]; rfl
    have hi := hp.place.mem i (.flight t) hnode
    have hlinked : Linked s.nodes s.pushes new (i :: list w) := by
      refine ⟨htag.linking t i new (by rw [ht]; rfl), htag.pushed i hi, by omega, ?_⟩
      rw [htag.written t w h i old new ht, ← he]
      exact htag.linked w
    exact ⟨_, hp.pushCasOk (by rw [ht]; rfl) hnode (by rw [ht]; rfl), htag.setHead hlinked⟩
  | pushCasFail w h i old new ht =>
    obtain ⟨list, hp, htag⟩ := hs
    refine ⟨list, ?_, htag.pushCasFail ht⟩
    exact hp.advance (by rw [ht]; rfl) (by rw [ht]; rfl) (by rw [ht]; rfl) (fun _ => rfl)
  | moveConstruct h o ht hh hf ho =>
    obtain ⟨list, hp, htag⟩ := hs
    exact ⟨list, hp.swap hf ho, htag.swap h o⟩
  | swap h o ht hf ho =>
    obtain ⟨list, hp, htag⟩ := hs
    exact ⟨list, hp.swap hf ho, htag.swap h o⟩
  | moveAssign h o ht hf ho =>
    obtain ⟨list, hp, htag⟩ := hs
    exact ⟨list, (hp.swap hf ho).beginRelease cs ht ho, (htag.swap h o).beginRelease cs t o⟩

/-- The place of a node as the pointers show it. -/
def Located (s : State Tid Cache Handle) (i : Nat) : Place Tid Cache Handle → Prop
  | .list w => ∃ l, Walk s.nodes (s.head w) l ∧ i ∈ l
  | .cache c => i ∈ s.cache c
  | .held h => s.handle h = .node i ∧ s.Free h
  | .flight t => (s.pc t).node? = some i

omit [DecidableEq Tid] [DecidableEq Handle] [DecidableEq Cache] in
theorem Tagged.located_iff (h : Tagged num s list) (i : Nat) (p : Place Tid Cache Handle) :
    Located s i p ↔ At s list i p := by
  cases p with
  | list w =>
    constructor
    · rintro ⟨l, hl, hi⟩
      rw [hl.unique (h.linked w).walk] at hi
      exact hi
    · intro hi
      exact ⟨list w, (h.linked w).walk, hi⟩
  | _ => exact Iff.rfl

/-- No node is lost or duplicated, the lists end, collective nodes stay off the
market and out of the caches, and a successful pop installs the present successor. -/
theorem node_in_one_place (hc : 0 < collectiveNum) (hn : collectiveNum < num) (hnum : num < 2 ^ 32)
    (cs : Caches Tid Cache) (hs : Reachable (init num collectiveNum) (Next cs) s) :
    (∀ i, i < num → ∃! p, Located s i p) ∧ (∀ i p, Located s i p → i < num) ∧
    (∀ w, ∃ l, Walk s.nodes (s.head w) l ∧ l.Nodup) ∧ (∀ c, (s.cache c).Nodup) ∧
    (∀ i p, i < collectiveNum → Located s i p →
      p = .list .collective ∨ (∃ h, p = .held h) ∨ ∃ t, p = .flight t) ∧
    ∀ t w h old new since, s.pc t = .popCas w h old new since → s.head w = old → Timely t s →
      new = (s.nodes (getIndex old).toNat).next := by
  have hinv : Inv num collectiveNum s := by
    apply hs.invariant
    · intro s₀ h₀
      exact inv_init hc hn hnum h₀
    · rintro s₁ s₂ - h₁ ⟨t, hstep, htimely⟩
      exact inv_step cs hnum hstep htimely h₁
  obtain ⟨list, hp, htag⟩ := hinv
  refine ⟨?_, ?_, ?_, hp.cacheNodup, ?_, ?_⟩
  · intro i hi
    obtain ⟨p, hat⟩ := hp.place.exists_place i hi
    refine ⟨p, (htag.located_iff i p).2 hat, fun q hq => ?_⟩
    exact hp.place.unique i q p ((htag.located_iff i q).1 hq) hat
  · intro i p hi
    exact hp.place.mem i p ((htag.located_iff i p).1 hi)
  · intro w
    exact ⟨list w, (htag.linked w).walk, hp.nodup w⟩
  · intro i p hi hat
    have hfit := hp.fits i p ((htag.located_iff i p).1 hat)
    cases p with
    | list w => exact .inl (congrArg _ (hfit.2 hi))
    | cache c =>
      have hle : collectiveNum ≤ i := hfit
      omega
    | held h => exact .inr (.inl ⟨h, rfl⟩)
    | flight t => exact .inr (.inr ⟨t, rfl⟩)
  · intro t w h old new since ht he htimely
    obtain ⟨i, rest, -, hidx, -, hnew, -⟩ := htag.newHead_eq hnum ht he (htimely w h old new since ht)
    rw [hidx]
    exact hnew

def smallCaches : Caches Bool Unit := ⟨false, fun _ => (), fun _ => (), 0⟩

def smallPool : State Bool Unit Bool where
  nodes := constructedNode 3 1
  head := constructedHead 1
  cache := fun _ => []
  handle := fun _ => .nothing
  pc := fun _ => .idle
  pushes := fun i => if i < 3 then 1 else 0

/-- A pool of one collective and two market nodes, after a `get`. -/
theorem node_in_one_place_after_get : ∃ s : State Bool Unit Bool,
    Reachable (init 3 1) (Next smallCaches) s ∧ s.handle false = .node 1 ∧ s.head .market = link 2 0 ∧
      ∀ i, i < 3 → ∃! p, Located s i p := by
  have h₀ : Reachable (init 3 1) (Next smallCaches) smallPool :=
    .of_init ⟨construct_eq (by decide) (by decide), fun _ => rfl, fun _ => rfl, fun _ => rfl, fun _ => rfl⟩
  have hidle : ∀ (s : State Bool Unit Bool), (∀ t, s.pc t = .idle) → s.Free false := by
    intro s hs t
    simp [hs t]
  have h₁ := h₀.tail ⟨false, .getPop _ false rfl rfl (hidle _ fun _ => rfl) rfl, by rintro _ _ _ _ _ ⟨⟩⟩
  have h₂ := h₁.tail ⟨false, .popLoad _ .market false rfl, by rintro _ _ _ _ _ ⟨⟩⟩
  have h₃ := h₂.tail ⟨false, .popRead _ .market false (link 1 0) 1 rfl, by rintro _ _ _ _ _ ⟨⟩⟩
  have h₄ := h₃.tail ⟨false, .popCasOk _ .market false (link 1 0) (link 2 0) 1 rfl rfl,
    by rintro _ _ _ _ _ ⟨⟩; decide⟩
  exact ⟨_, h₄, rfl, rfl, (node_in_one_place (by decide) (by decide) (by decide) _ h₄).1⟩

end Wizard.Pool
