import Wizard.PoolThreads

/-! When the objects of a pool are constructed and destroyed. The vector constructs
and destroys each of them once; `release` runs the destructor besides, and `get`
hands the node out again without a constructor. -/

namespace Wizard.Pool

section Serial

variable {Tid Cache Handle : Type*} [DecidableEq Cache] [DecidableEq Handle]

/-- `pop_one_node` with no other thread at work. -/
def State.popOneNode (s : State Tid Cache Handle) (w : Which) : Option (Nat × State Tid Cache Handle) :=
  if s.head w = nullIndex then none
  else some ((getIndex (s.head w)).toNat,
    { s with head := Function.update s.head w (s.nodes (getIndex (s.head w)).toNat).next })

def State.pushOneNode (s : State Tid Cache Handle) (w : Which) (i : Nat) : State Tid Cache Handle :=
  { s with
    nodes := (s.nodes.advanceTag i).setNext i (s.head w)
    head := Function.update s.head w (makeTaggedIndex (s.nodes i).index (s.nodes i).tag)
    pushes := Function.update s.pushes i (s.pushes i + 1) }

def State.tryPop (cs : Caches Tid Cache) (t : Tid) (s : State Tid Cache Handle) :
    Option (Nat × State Tid Cache Handle) :=
  match s.cache (cs.of t) with
  | i :: rest => some (i, { s with cache := Function.update s.cache (cs.of t) rest })
  | [] => (s.popOneNode .market).or (s.popOneNode .collective)

/-- `release(Node*)` after the destructor. -/
def State.releaseNode (cs : Caches Tid Cache) (t : Tid) (s : State Tid Cache Handle) (i : Nat) :
    State Tid Cache Handle :=
  if (s.nodes i).isCollective then s.pushOneNode .collective i
  else if (s.cache (cs.of t)).length < cs.capacity then
    { s with cache := Function.update s.cache (cs.of t) (i :: s.cache (cs.of t)) }
  else s.pushOneNode .market i

end Serial

/-- An element of `_objects`, or the result of a `new T`. -/
inductive Obj
  | pooled (i : Nat)
  | heap (k : Nat)
deriving Repr, DecidableEq

inductive Event
  | construct (o : Obj)
  | destroy (o : Obj)
  | gave (o : Obj)
deriving Repr, DecidableEq

/-- What was constructed before and is not yet destroyed may be destroyed or given out. -/
def Event.Ok (past : List Event) : Event → Prop
  | .construct _ => True
  | .destroy o | .gave o => past.count (.construct o) = past.count (.destroy o) + 1

/-- The latest event comes first. -/
def Sound : List Event → Prop
  | [] => True
  | e :: past => e.Ok past ∧ Sound past

/-- Nothing dead is given out or destroyed, and nothing is left. -/
structure Balanced (log : List Event) : Prop where
  sound : Sound log
  matched : ∀ o, log.count (.construct o) = log.count (.destroy o)

variable {Tid Cache Handle : Type*}

/-- A pool used by one thread. `heap` says which object a `PooledObject` got from
`new T`. -/
structure Objects (Tid Cache Handle : Type*) where
  pool : State Tid Cache Handle
  heap : Handle → Nat
  news : Nat
  log : List Event

structure Objects.Init (num collectiveNum : Nat) (a : Objects Tid Cache Handle) : Prop where
  pool : init num collectiveNum a.pool
  news : a.news = 0
  log : a.log = ((List.range num).map fun i => .construct (.pooled i)).reverse

/-- The events up to the end of the pool's destructor. -/
def Objects.finalLog (num : Nat) (a : Objects Tid Cache Handle) : List Event :=
  ((List.range num).map fun i => .destroy (.pooled i)).reverse ++ a.log

/-- The destructor of a `PooledObject` is `release`. -/
inductive Op (Handle : Type*)
  | get (h : Handle)
  | release (h : Handle)
  | moveConstruct (h o : Handle)
  | moveAssign (h o : Handle)
  | swap (h o : Handle)

variable [DecidableEq Cache] [DecidableEq Handle]

def Objects.get (cs : Caches Tid Cache) (t : Tid) (a : Objects Tid Cache Handle) (h : Handle) :
    Objects Tid Cache Handle :=
  match a.pool.tryPop cs t with
  | some (i, s) => { a with pool := s.setHandle h (.node i), log := .gave (.pooled i) :: a.log }
  | none =>
    { pool := a.pool.setHandle h .created
      heap := Function.update a.heap h a.news
      news := a.news + 1
      log := .gave (.heap a.news) :: .construct (.heap a.news) :: a.log }

/-- `PooledObject::release`. -/
def Objects.release (cs : Caches Tid Cache) (t : Tid) (a : Objects Tid Cache Handle) (h : Handle) :
    Objects Tid Cache Handle :=
  match a.pool.handle h with
  | .nothing => a
  | .node i =>
    { a with
      pool := (a.pool.releaseNode cs t i).setHandle h .nothing
      log := .destroy (.pooled i) :: a.log }
  | .created => { a with pool := a.pool.setHandle h .nothing, log := .destroy (.heap (a.heap h)) :: a.log }

def Objects.swap (a : Objects Tid Cache Handle) (h o : Handle) : Objects Tid Cache Handle :=
  { a with
    pool := a.pool.swap h o
    heap := Function.update (Function.update a.heap h (a.heap o)) o (a.heap h) }

def Op.perform (cs : Caches Tid Cache) (t : Tid) (a : Objects Tid Cache Handle) : Op Handle → Objects Tid Cache Handle
  | .get h => a.get cs t h
  | .release h => a.release cs t h
  | .moveConstruct h o | .swap h o => a.swap h o
  | .moveAssign h o => (a.swap h o).release cs t o

/-- `get` and the move constructor make a new `PooledObject`. -/
def Op.Ready (a : Objects Tid Cache Handle) : Op Handle → Prop
  | .get h | .moveConstruct h _ => a.pool.handle h = .nothing
  | _ => True

/-- The node whose `release(Node*)` the operation calls. -/
def Op.releases (a : Objects Tid Cache Handle) : Op Handle → Option Nat
  | .release h | .moveAssign h _ =>
    match a.pool.handle h with
    | .node i => some i
    | _ => none
  | _ => none

def run (cs : Caches Tid Cache) (t : Tid) : List (Op Handle) → Objects Tid Cache Handle → Objects Tid Cache Handle
  | [], a => a
  | op :: ops, a => run cs t ops (op.perform cs t a)

def Valid (cs : Caches Tid Cache) (t : Tid) : List (Op Handle) → Objects Tid Cache Handle → Prop
  | [], _ => True
  | op :: ops, a => op.Ready a ∧ Valid cs t ops (op.perform cs t a)

/-- No operation releases a node, and every object of `new T` is released by the end. -/
def Clean (cs : Caches Tid Cache) (t : Tid) : List (Op Handle) → Objects Tid Cache Handle → Prop
  | [], a => ∀ h, a.pool.handle h ≠ .created
  | op :: ops, a => op.releases a = none ∧ Clean cs t ops (op.perform cs t a)

variable {cs : Caches Tid Cache} {t : Tid} {a : Objects Tid Cache Handle} {num collectiveNum : Nat} {h o : Handle}

section Frames

omit [DecidableEq Handle] in
theorem tryPop_handle {s s' : State Tid Cache Handle} {i : Nat} (hs : s.tryPop cs t = some (i, s')) :
    s'.handle = s.handle := by
  have hone : ∀ w, s.popOneNode w = some (i, s') → s'.handle = s.handle := by
    intro w hw
    unfold State.popOneNode at hw
    split at hw
    · cases hw
    · cases hw
      rfl
  unfold State.tryPop at hs
  split at hs
  · cases hs
    rfl
  · rcases Option.or_eq_some_iff.1 hs with hw | ⟨-, hw⟩
    · exact hone _ hw
    · exact hone _ hw

omit [DecidableEq Handle] in
theorem releaseNode_handle (s : State Tid Cache Handle) (i : Nat) : (s.releaseNode cs t i).handle = s.handle := by
  unfold State.releaseNode
  split
  · rfl
  · split <;> rfl

omit [DecidableEq Cache] in
theorem swap_heap (a : Objects Tid Cache Handle) (h o x : Handle) :
    (a.swap h o).heap x = a.heap (Equiv.swap h o x) := by
  unfold Objects.swap
  by_cases hx : x = o
  · rw [hx, Equiv.swap_apply_right]
    simp
  · by_cases hxh : x = h
    · rw [hxh] at hx ⊢
      rw [Equiv.swap_apply_left]
      simp [hx]
    · rw [Equiv.swap_apply_of_ne_of_ne hxh hx]
      simp [hx, hxh]

end Frames

section Steps

variable [DecidableEq Tid] {s s' : State Tid Cache Handle} {w : Which} {i : Nat}

omit [DecidableEq Tid] [DecidableEq Cache] [DecidableEq Handle] in
theorem timely_of_ne (h : ∀ w x old new since, s.pc t ≠ .popCas w x old new since) : Timely t s := by
  intro w x old new since he
  exact absurd he (h w x old new since)

omit [DecidableEq Cache] [DecidableEq Handle] in
theorem setPc_idle (h : s.pc t = .idle) : s.setPc t .idle = s := by
  unfold State.setPc
  rw [← h, Function.update_eq_self]

theorem pop_steps (cs : Caches Tid Cache) (t : Tid) (h : Handle) (hp : s.popOneNode w = some (i, s')) :
    Relation.ReflTransGen (Next cs) (s.setPc t (.popLoad w h)) ((s'.setHandle h (.node i)).setPc t .idle) := by
  unfold State.popOneNode at hp
  split at hp
  · cases hp
  · rename_i hnull
    cases hp
    let k := s.pushes (getIndex (s.head w)).toNat
    let next := (s.nodes (getIndex (s.head w)).toNat).next
    have h₁ : Next cs (s.setPc t (.popLoad w h)) (s.setPc t (.popRead w h (s.head w) k)) := by
      have hstep : Step cs t (s.setPc t (.popLoad w h)) _ := .popLoad _ w h (by simp [State.setPc])
      unfold State.popLoaded at hstep
      rw [if_neg (by exact hnull)] at hstep
      refine ⟨t, ?_, timely_of_ne (by simp [State.setPc])⟩
      simpa [State.setPc] using hstep
    have h₂ : Next cs (s.setPc t (.popRead w h (s.head w) k)) (s.setPc t (.popCas w h (s.head w) next k)) := by
      have hstep : Step cs t (s.setPc t (.popRead w h (s.head w) k)) _ :=
        .popRead _ w h (s.head w) k (by simp [State.setPc])
      refine ⟨t, ?_, timely_of_ne (by simp [State.setPc])⟩
      simpa [State.setPc] using hstep
    have h₃ : Next cs (s.setPc t (.popCas w h (s.head w) next k))
        (({ s with head := Function.update s.head w next }.setHandle h (.node (getIndex (s.head w)).toNat)).setPc t
          .idle) := by
      have hstep : Step cs t (s.setPc t (.popCas w h (s.head w) next k)) _ :=
        .popCasOk _ w h (s.head w) next k (by simp [State.setPc]) rfl
      refine ⟨t, ?_, ?_⟩
      · simpa [State.setPc, State.setHandle] using hstep
      · intro w' x old new since he
        simp only [State.setPc, Function.update_self, Pc.popCas.injEq] at he
        obtain ⟨rfl, rfl, rfl, rfl, rfl⟩ := he
        show k < k + 2 ^ 32
        omega
    exact ((Relation.ReflTransGen.single h₁).tail h₂).tail h₃

theorem pop_none_steps (cs : Caches Tid Cache) (t : Tid) (h : Handle) (hp : s.popOneNode w = none) :
    Next cs (s.setPc t (.popLoad w h)) (match w with
      | .market => s.setPc t (.popLoad .collective h)
      | .collective => (s.setHandle h .created).setPc t .idle) := by
  have hnull : s.head w = nullIndex := by
    unfold State.popOneNode at hp
    split at hp
    · assumption
    · cases hp
  have hstep : Step cs t (s.setPc t (.popLoad w h)) _ := .popLoad _ w h (by simp [State.setPc])
  unfold State.popLoaded at hstep
  rw [if_pos (by exact hnull)] at hstep
  refine ⟨t, ?_, timely_of_ne (by simp [State.setPc])⟩
  cases w <;> simpa [State.setPc, State.setHandle] using hstep

theorem push_steps (s : State Tid Cache Handle) (w : Which) (i : Nat) :
    Relation.ReflTransGen (Next cs) (s.setPc t (.pushLoad w h i))
      (((s.pushOneNode w i).setHandle h .nothing).setPc t .idle) := by
  let new := makeTaggedIndex (s.nodes i).index (s.nodes i).tag
  let s₁ := { s with nodes := s.nodes.advanceTag i, pushes := Function.update s.pushes i (s.pushes i + 1) }
  let s₂ := { s₁ with nodes := s₁.nodes.setNext i (s.head w) }
  have h₁ : Next cs (s.setPc t (.pushLoad w h i)) (s₁.setPc t (.pushWrite w h i (s.head w) new)) := by
    have hstep : Step cs t (s.setPc t (.pushLoad w h i)) _ := .pushLoad _ w h i (by simp [State.setPc])
    refine ⟨t, ?_, timely_of_ne (by simp [State.setPc])⟩
    simpa [State.setPc] using hstep
  have h₂ : Next cs (s₁.setPc t (.pushWrite w h i (s.head w) new)) (s₂.setPc t (.pushCas w h i (s.head w) new)) := by
    have hstep : Step cs t (s₁.setPc t (.pushWrite w h i (s.head w) new)) _ :=
      .pushWrite _ w h i (s.head w) new (by simp [State.setPc])
    refine ⟨t, ?_, timely_of_ne (by simp [State.setPc])⟩
    simpa [State.setPc] using hstep
  have h₃ : Next cs (s₂.setPc t (.pushCas w h i (s.head w) new))
      (({ s₂ with head := Function.update s.head w new }.setHandle h .nothing).setPc t .idle) := by
    have hstep : Step cs t (s₂.setPc t (.pushCas w h i (s.head w) new)) _ :=
      .pushCasOk _ w h i (s.head w) new (by simp [State.setPc]) rfl
    refine ⟨t, ?_, timely_of_ne (by simp [State.setPc])⟩
    simpa [State.setPc, State.setHandle] using hstep
  exact ((Relation.ReflTransGen.single h₁).tail h₂).tail h₃

theorem get_steps (hidle : ∀ u, a.pool.pc u = .idle) (hh : a.pool.handle h = .nothing) :
    Relation.ReflTransGen (Next cs) a.pool (a.get cs t h).pool := by
  have hfree : a.pool.Free h := by
    intro u
    rw [hidle u]
    simp
  have htimely : Timely t a.pool := timely_of_ne (by simp [hidle])
  unfold Objects.get
  cases hc : a.pool.cache (cs.of t) with
  | cons i rest =>
    simp only [State.tryPop, hc]
    exact .single ⟨t, .getCached _ h i rest (hidle t) hh hfree hc, htimely⟩
  | nil =>
    have hstart : Next cs a.pool (a.pool.setPc t (.popLoad .market h)) :=
      ⟨t, .getPop _ h (hidle t) hh hfree hc, htimely⟩
    have hback : ∀ {s : State Tid Cache Handle} {o}, s.pc = a.pool.pc →
        (s.setHandle h o).setPc t .idle = s.setHandle h o := by
      intro s o hs
      exact setPc_idle (by simp [State.setHandle, hs, hidle])
    have hpc : ∀ {w i} {s : State Tid Cache Handle}, a.pool.popOneNode w = some (i, s) → s.pc = a.pool.pc := by
      intro w i s hs
      unfold State.popOneNode at hs
      split at hs
      · cases hs
      · cases hs
        rfl
    simp only [State.tryPop, hc]
    cases hm : a.pool.popOneNode .market with
    | some r =>
      have hpop := pop_steps cs t h hm
      rw [hback (hpc hm)] at hpop
      exact .head hstart hpop
    | none =>
      have hnext := Relation.ReflTransGen.head hstart (.single (pop_none_steps cs t h hm))
      cases hl : a.pool.popOneNode .collective with
      | some r =>
        have hpop := pop_steps cs t h hl
        rw [hback (hpc hl)] at hpop
        exact hnext.trans hpop
      | none =>
        have hpop := pop_none_steps cs t h hl
        rw [hback rfl] at hpop
        exact hnext.tail hpop

theorem beginRelease_steps {s : State Tid Cache Handle} {i : Nat} (hidle : s.pc t = .idle) (hh : s.handle h = .node i) :
    Relation.ReflTransGen (Next cs) (s.beginRelease cs t h) ((s.releaseNode cs t i).setHandle h .nothing) := by
  have hback : ∀ w, (((s.pushOneNode w i).setHandle h .nothing).setPc t .idle) =
    (s.pushOneNode w i).setHandle h .nothing :=
    fun w => setPc_idle hidle
  unfold State.beginRelease State.releaseNode
  simp only [hh]
  split
  · rw [← hback]
    exact push_steps s .collective i
  · split
    · rfl
    · rw [← hback]
      exact push_steps s .market i

theorem release_pool (hidle : a.pool.pc t = .idle) :
    Relation.ReflTransGen (Next cs) (a.pool.beginRelease cs t h) (a.release cs t h).pool := by
  unfold Objects.release
  split
  · rename_i hh
    rw [State.beginRelease]
    simp only [hh]
    rfl
  · rename_i i hh
    exact beginRelease_steps hidle hh
  · rename_i hh
    rw [State.beginRelease]
    simp only [hh]
    rfl

/-- Each operation is a run of the atomic steps of its thread. -/
theorem perform_steps (hidle : ∀ u, a.pool.pc u = .idle) {op : Op Handle} (hop : op.Ready a) :
    Relation.ReflTransGen (Next cs) a.pool (op.perform cs t a).pool := by
  have hfree : ∀ h, a.pool.Free h := by
    intro h u
    rw [hidle u]
    simp
  have htimely : Timely t a.pool := timely_of_ne (by simp [hidle])
  cases op with
  | get h => exact get_steps hidle hop
  | release h => exact .head ⟨t, .release _ h (hidle t) (hfree h), htimely⟩ (release_pool (hidle t))
  | moveConstruct h o => exact .single ⟨t, .moveConstruct _ h o (hidle t) hop (hfree h) (hfree o), htimely⟩
  | moveAssign h o =>
    exact .head ⟨t, .moveAssign _ h o (hidle t) (hfree h) (hfree o), htimely⟩ (release_pool (a := a.swap h o) (hidle t))
  | swap h o => exact .single ⟨t, .swap _ h o (hidle t) (hfree h) (hfree o), htimely⟩

end Steps

/-- Objects of `new T` are constructed once, and destroyed once their `PooledObject` is
released. -/
structure Tidy (num : Nat) (a : Objects Tid Cache Handle) : Prop where
  pooled : ∀ i, a.log.count (.construct (.pooled i)) = if i < num then 1 else 0
  heap : ∀ k, a.log.count (.construct (.heap k)) = if k < a.news then 1 else 0
  owned : ∀ h, a.pool.handle h = .created → a.heap h < a.news ∧ .destroy (.heap (a.heap h)) ∉ a.log
  apart : ∀ h o, a.pool.handle h = .created → a.pool.handle o = .created → a.heap h = a.heap o → h = o
  settled : ∀ k, k < a.news → (∀ h, a.pool.handle h = .created → a.heap h ≠ k) →
    a.log.count (.destroy (.heap k)) = 1
  fresh : ∀ k, a.news ≤ k → .destroy (.heap k) ∉ a.log

/-- As long as no node is released, the lists only get shorter. -/
structure Calm (num collectiveNum : Nat) (a : Objects Tid Cache Handle) : Prop where
  nodes : a.pool.nodes = constructedNode num collectiveNum
  head : ∀ w, a.pool.head w ≠ nullIndex → (getIndex (a.pool.head w)).toNat < num
  cache : ∀ c, a.pool.cache c = []
  kept : ∀ i, .destroy (.pooled i) ∉ a.log
  sound : Sound a.log

section Lifetimes

theorem Tidy.get (ha : Tidy num a) (hh : a.pool.handle h = .nothing) : Tidy num (a.get cs t h) := by
  unfold Objects.get
  split
  · rename_i i s hs
    have hhandle := tryPop_handle hs
    have hcreated : ∀ x, (s.setHandle h (.node i)).handle x = .created → a.pool.handle x = .created := by
      intro x hx
      by_cases hxh : x = h
      · simp [State.setHandle, hxh] at hx
      · simpa [State.setHandle, hxh, hhandle] using hx
    have hback : ∀ x, a.pool.handle x = .created → (s.setHandle h (.node i)).handle x = .created := by
      intro x hx
      have hxh : x ≠ h := by
        intro he
        rw [he, hh] at hx
        cases hx
      simpa [State.setHandle, hxh, hhandle] using hx
    constructor
    · simpa using ha.pooled
    · simpa using ha.heap
    · intro x hx
      simpa using ha.owned x (hcreated x hx)
    · intro x y hx hy
      exact ha.apart x y (hcreated x hx) (hcreated y hy)
    · intro k hk hno
      simpa using ha.settled k hk (fun x hx => hno x (hback x hx))
    · simpa using ha.fresh
  · have hcreated : ∀ x, x ≠ h → (a.pool.setHandle h .created).handle x = a.pool.handle x := by
      intro x hx
      simp [State.setHandle, hx]
    constructor
    · simpa using ha.pooled
    · intro k
      by_cases hk : k = a.news
      · simp [hk, ha.heap]
      · have hlt : k < a.news ↔ k < a.news + 1 := by omega
        simp [Ne.symm hk, ha.heap, hlt]
    · intro x hx
      by_cases hxh : x = h
      · simpa [hxh] using ha.fresh a.news le_rfl
      · rw [hcreated x hxh] at hx
        obtain ⟨hlt, hnot⟩ := ha.owned x hx
        simp only [Function.update_of_ne hxh]
        exact ⟨by omega, by simpa using hnot⟩
    · intro x y hx hy
      by_cases hxh : x = h <;> by_cases hyh : y = h
      · intro _
        rw [hxh, hyh]
      · rw [hcreated y hyh] at hy
        have hlt := (ha.owned y hy).1
        simp only [hxh, Function.update_self, Function.update_of_ne hyh]
        intro he
        omega
      · rw [hcreated x hxh] at hx
        have hlt := (ha.owned x hx).1
        simp only [hyh, Function.update_self, Function.update_of_ne hxh]
        intro he
        omega
      · rw [hcreated x hxh] at hx
        rw [hcreated y hyh] at hy
        simp only [Function.update_of_ne hxh, Function.update_of_ne hyh]
        exact ha.apart x y hx hy
    · intro k hk hno
      have hne : k ≠ a.news := by
        intro he
        exact hno h (by simp [State.setHandle]) (by simp [he])
      have hset := ha.settled k (by simp only at hk; omega) (fun x hx he => by
        have hxh : x ≠ h := by
          intro hxh
          rw [hxh, hh] at hx
          cases hx
        exact hno x (by rw [hcreated x hxh, hx]) (by simp only [Function.update_of_ne hxh, he]))
      simpa using hset
    · intro k hk
      simpa using ha.fresh k (by simp only at hk; omega)

omit [DecidableEq Cache] in
theorem Tidy.swap (ha : Tidy num a) : Tidy num (a.swap h o) := by
  have hhandle : ∀ x, (a.swap h o).pool.handle x = a.pool.handle (Equiv.swap h o x) := swap_handle a.pool h o
  constructor
  · exact ha.pooled
  · exact ha.heap
  · intro x hx
    rw [hhandle] at hx
    rw [swap_heap]
    exact ha.owned _ hx
  · intro x y hx hy he
    rw [hhandle] at hx hy
    rw [swap_heap, swap_heap] at he
    exact (Equiv.swap h o).injective (ha.apart _ _ hx hy he)
  · intro k hk hno
    apply ha.settled k hk
    intro x hx he
    have hx' := hno (Equiv.swap h o x)
    rw [hhandle, swap_heap, Equiv.swap_apply_self] at hx'
    exact hx' hx he
  · exact ha.fresh

theorem Tidy.release (ha : Tidy num a) : Tidy num (a.release cs t h) := by
  unfold Objects.release
  split
  · exact ha
  · rename_i i hi
    have hcreated : ∀ x, ((a.pool.releaseNode cs t i).setHandle h .nothing).handle x = .created ↔
        a.pool.handle x = .created := by
      intro x
      by_cases hxh : x = h
      · simp [State.setHandle, hxh, hi]
      · simp [State.setHandle, hxh, releaseNode_handle]
    constructor
    · simpa using ha.pooled
    · simpa using ha.heap
    · intro x hx
      simpa using ha.owned x ((hcreated x).1 hx)
    · intro x y hx hy
      exact ha.apart x y ((hcreated x).1 hx) ((hcreated y).1 hy)
    · intro k hk hno
      simpa using ha.settled k hk (fun x hx => hno x ((hcreated x).2 hx))
    · simpa using ha.fresh
  · rename_i hi
    have hcreated : ∀ x, (a.pool.setHandle h .nothing).handle x = .created ↔ x ≠ h ∧ a.pool.handle x = .created := by
      intro x
      by_cases hxh : x = h
      · simp [State.setHandle, hxh]
      · simp [State.setHandle, hxh]
    obtain ⟨hlt, hnot⟩ := ha.owned h hi
    constructor
    · simpa using ha.pooled
    · simpa using ha.heap
    · intro x hx
      obtain ⟨hxh, hx⟩ := (hcreated x).1 hx
      have hne : a.heap x ≠ a.heap h := fun he => hxh (ha.apart x h hx hi he)
      simpa [hne] using ha.owned x hx
    · intro x y hx hy
      exact ha.apart x y ((hcreated x).1 hx).2 ((hcreated y).1 hy).2
    · intro k hk hno
      by_cases hkh : k = a.heap h
      · simp [hkh, List.count_eq_zero_of_not_mem hnot]
      · have hset := ha.settled k hk (fun x hx he => by
          have hxh : x ≠ h := by
            intro hxh
            rw [hxh] at he
            exact hkh he.symm
          exact hno x ((hcreated x).2 ⟨hxh, hx⟩) he)
        simp [Ne.symm hkh, hset]
    · intro k hk
      have hne : k ≠ a.heap h := by
        intro he
        rw [he] at hk
        exact absurd hlt (by simp only at hk; omega)
      simpa [hne] using ha.fresh k hk

theorem Tidy.perform (ha : Tidy num a) {op : Op Handle} (hop : op.Ready a) : Tidy num (op.perform cs t a) := by
  cases op with
  | get h => exact ha.get hop
  | release h => exact ha.release
  | moveConstruct h o => exact ha.swap
  | moveAssign h o => exact ha.swap.release
  | swap h o => exact ha.swap

theorem getIndex_link_le (i k : Nat) : (getIndex (link i k)).toNat ≤ i := by
  by_cases hi : i < 2 ^ 32
  · rw [getIndex_link k hi]
  · have hh : (getIndex (link i k)).toNat ≤ 2 ^ 32 - 1 := by
      rw [getIndex, BitVec.toNat_and]
      exact Nat.and_le_right
    omega

theorem constructedNode_next_lt {i : Nat} (h : (constructedNode num collectiveNum i).next ≠ nullIndex) :
    (getIndex (constructedNode num collectiveNum i).next).toNat < num := by
  unfold constructedNode at h ⊢
  split
  · rename_i hi
    simp only [hi, if_true] at h ⊢
    by_cases hc : i + 1 < num ∧ i + 1 ≠ collectiveNum
    · rw [if_pos hc]
      exact (getIndex_link_le _ _).trans_lt hc.1
    · exact absurd (if_neg hc) h
  · rename_i hi
    rw [if_neg hi] at h
    exact absurd rfl h

omit [DecidableEq Handle] in
theorem Calm.pop (ha : Calm num collectiveNum a) {s : State Tid Cache Handle} {i : Nat}
    (hs : a.pool.tryPop cs t = some (i, s)) :
    i < num ∧ s.nodes = a.pool.nodes ∧ s.cache = a.pool.cache ∧
      ∀ w, s.head w ≠ nullIndex → (getIndex (s.head w)).toNat < num := by
  have hone : ∀ w, a.pool.popOneNode w = some (i, s) → i < num ∧ s.nodes = a.pool.nodes ∧ s.cache = a.pool.cache ∧
      ∀ w, s.head w ≠ nullIndex → (getIndex (s.head w)).toNat < num := by
    intro w hw
    unfold State.popOneNode at hw
    split at hw
    · cases hw
    · rename_i hnull
      cases hw
      refine ⟨ha.head w hnull, rfl, rfl, fun v => ?_⟩
      by_cases hv : v = w
      · rw [hv]
        simp only [Function.update_self, ha.nodes]
        exact constructedNode_next_lt
      · simp only [Function.update_of_ne hv]
        exact ha.head v
  unfold State.tryPop at hs
  rw [ha.cache] at hs
  rcases Option.or_eq_some_iff.1 hs with hw | ⟨-, hw⟩
  · exact hone _ hw
  · exact hone _ hw

theorem Calm.get (ha : Calm num collectiveNum a) (ht : Tidy num a) : Calm num collectiveNum (a.get cs t h) := by
  unfold Objects.get
  split
  · rename_i i s hs
    obtain ⟨hi, hnodes, hcache, hhead⟩ := ha.pop hs
    have hok : (Event.gave (.pooled i)).Ok a.log := by
      show _ = _ + 1
      rw [ht.pooled, if_pos hi, List.count_eq_zero_of_not_mem (ha.kept i)]
    exact ⟨hnodes.trans ha.nodes, hhead, fun c => by rw [← ha.cache c, ← hcache]; rfl, by simpa using ha.kept,
      hok, ha.sound⟩
  · have hnone := ht.fresh a.news le_rfl
    have hok : (Event.gave (.heap a.news)).Ok (.construct (.heap a.news) :: a.log) := by
      show _ = _ + 1
      simp [ht.heap, List.count_eq_zero_of_not_mem hnone]
    exact ⟨ha.nodes, ha.head, ha.cache, by simpa using ha.kept, hok, trivial, ha.sound⟩

theorem Calm.release (ha : Calm num collectiveNum a) (ht : Tidy num a) (hn : ∀ i, a.pool.handle h ≠ .node i) :
    Calm num collectiveNum (a.release cs t h) := by
  unfold Objects.release
  split
  · exact ha
  · rename_i i hi
    exact absurd hi (hn i)
  · rename_i hi
    obtain ⟨hlt, hnot⟩ := ht.owned h hi
    have hok : (Event.destroy (.heap (a.heap h))).Ok a.log := by
      show _ = _ + 1
      rw [ht.heap, if_pos hlt, List.count_eq_zero_of_not_mem hnot]
    exact ⟨ha.nodes, ha.head, ha.cache, by simpa using ha.kept, hok, ha.sound⟩

omit [DecidableEq Cache] in
theorem Calm.swap (ha : Calm num collectiveNum a) : Calm num collectiveNum (a.swap h o) :=
  ⟨ha.nodes, ha.head, ha.cache, ha.kept, ha.sound⟩

omit [DecidableEq Cache] in
theorem swap_owned (a : Objects Tid Cache Handle) (h o : Handle) : (a.swap h o).pool.handle o = a.pool.handle h := by
  show (a.pool.swap h o).handle o = _
  rw [swap_handle, Equiv.swap_apply_right]

theorem Calm.perform (ha : Calm num collectiveNum a) (ht : Tidy num a) {op : Op Handle} (hn : op.releases a = none) :
    Calm num collectiveNum (op.perform cs t a) := by
  have hnode : ∀ h, (match a.pool.handle h with | .node i => some i | _ => none) = none →
      ∀ i, a.pool.handle h ≠ .node i := by
    intro h hm i hi
    rw [hi] at hm
    cases hm
  cases op with
  | get h => exact ha.get ht
  | release h => exact ha.release ht (hnode h hn)
  | moveConstruct h o => exact ha.swap
  | moveAssign h o =>
    apply ha.swap.release ht.swap
    rw [swap_owned]
    exact hnode h hn
  | swap h o => exact ha.swap

theorem Tidy.run {ops : List (Op Handle)} (ha : Tidy num a) (hv : Valid cs t ops a) : Tidy num (run cs t ops a) := by
  induction ops generalizing a with
  | nil => exact ha
  | cons op ops ih => exact ih (ha.perform hv.1) hv.2

theorem Calm.run {ops : List (Op Handle)} (ha : Calm num collectiveNum a) (ht : Tidy num a) (hv : Valid cs t ops a)
    (hc : Clean cs t ops a) : Calm num collectiveNum (run cs t ops a) ∧
      ∀ h, (Pool.run cs t ops a).pool.handle h ≠ .created := by
  induction ops generalizing a with
  | nil => exact ⟨ha, hc⟩
  | cons op ops ih => exact ih (ha.perform ht hc.1) (ht.perform hv.1) hv.2 hc.2

omit [DecidableEq Cache] [DecidableEq Handle] in
/-- A loop over the pooled objects leaves one event for each of them. -/
theorem count_pooled {f : Obj → Event} (hf : Function.Injective f) (num : Nat) (o : Obj) :
    (((List.range num).map fun i => f (.pooled i)).reverse).count (f o) =
      match o with
      | .pooled i => if i < num then 1 else 0
      | .heap _ => 0 := by
  induction num with
  | zero => cases o <;> rfl
  | succ n ih =>
    rw [List.range_succ, List.map_append, List.reverse_append]
    simp only [List.map_cons, List.map_nil, List.reverse_singleton, List.singleton_append, List.count_cons, ih]
    cases o with
    | heap k => simp [hf.eq_iff]
    | pooled i =>
      simp only [beq_iff_eq, hf.eq_iff, Obj.pooled.injEq]
      split <;> split <;> split <;> omega

omit [DecidableEq Cache] [DecidableEq Handle] in
theorem count_constructs (num : Nat) (o : Obj) :
    (((List.range num).map fun i => Event.construct (.pooled i)).reverse).count (.construct o) =
      match o with
      | .pooled i => if i < num then 1 else 0
      | .heap _ => 0 :=
  count_pooled (fun _ _ => Event.construct.inj) num o

omit [DecidableEq Cache] [DecidableEq Handle] in
theorem sound_constructs (num : Nat) : Sound ((List.range num).map fun i => Event.construct (.pooled i)).reverse := by
  induction num with
  | zero => trivial
  | succ n ih =>
    rw [List.range_succ, List.map_append, List.reverse_append]
    exact ⟨trivial, ih⟩

omit [DecidableEq Cache] [DecidableEq Handle] in
theorem Objects.Init.tidy (ha : a.Init num collectiveNum) : Tidy num a := by
  have hnothing : ∀ h, a.pool.handle h ≠ .created := by
    intro h hh
    rw [ha.pool.2.2.1 h] at hh
    cases hh
  have hdestroy : ∀ o, .destroy o ∉ a.log := by
    intro o
    rw [ha.log]
    simp
  constructor
  · intro i
    rw [ha.log, count_constructs]
  · intro k
    rw [ha.log, count_constructs, ha.news]
    simp
  · intro h hh
    exact absurd hh (hnothing h)
  · intro h o hh
    exact absurd hh (hnothing h)
  · intro k hk
    rw [ha.news] at hk
    omega
  · intro k _
    exact hdestroy _

omit [DecidableEq Cache] [DecidableEq Handle] in
theorem Objects.Init.calm (ha : a.Init num collectiveNum) : Calm num collectiveNum a := by
  obtain ⟨hconstruct, hcache, -, -, -⟩ := ha.pool
  obtain ⟨hc, hn⟩ := construct_isSome hconstruct
  rw [construct_eq hc hn] at hconstruct
  obtain ⟨hnodes, hhead⟩ : constructedNode num collectiveNum = a.pool.nodes ∧
      constructedHead collectiveNum = a.pool.head := by simpa using hconstruct
  constructor
  · exact hnodes.symm
  · intro w _
    rw [← hhead]
    cases w with
    | market => exact (getIndex_link_le _ _).trans_lt hn
    | collective => exact (getIndex_link_le _ _).trans_lt (by omega)
  · exact hcache
  · intro i
    rw [ha.log]
    simp
  · rw [ha.log]
    exact sound_constructs num

theorem mem_release {e : Event} (he : e ∈ a.log) : e ∈ (a.release cs t h).log := by
  unfold Objects.release
  split
  · exact he
  · exact List.mem_cons_of_mem _ he
  · exact List.mem_cons_of_mem _ he

theorem mem_perform {op : Op Handle} {e : Event} (he : e ∈ a.log) : e ∈ (op.perform cs t a).log := by
  cases op with
  | get h =>
    show e ∈ (a.get cs t h).log
    unfold Objects.get
    split
    · exact List.mem_cons_of_mem _ he
    · exact List.mem_cons_of_mem _ (List.mem_cons_of_mem _ he)
  | release h => exact mem_release he
  | moveConstruct h o => exact he
  | moveAssign h o => exact mem_release (a := a.swap h o) he
  | swap h o => exact he

theorem mem_run {ops : List (Op Handle)} {e : Event} (he : e ∈ a.log) : e ∈ (run cs t ops a).log := by
  induction ops generalizing a with
  | nil => exact he
  | cons op ops ih => exact ih (mem_perform he)

/-- An operation that releases a node destroys its object. -/
theorem destroy_mem {op : Op Handle} {i : Nat} (hi : op.releases a = some i) :
    .destroy (.pooled i) ∈ (op.perform cs t a).log := by
  have hnode : ∀ h, (match a.pool.handle h with | .node i => some i | _ => none) = some i →
      a.pool.handle h = .node i := by
    intro h hm
    split at hm
    · rename_i j hj
      rw [hj, Option.some.inj hm]
    · cases hm
  have hrelease : ∀ (b : Objects Tid Cache Handle) h, b.pool.handle h = .node i →
      .destroy (.pooled i) ∈ (b.release cs t h).log := by
    intro b h hb
    unfold Objects.release
    rw [hb]
    exact List.mem_cons_self
  cases op with
  | release h => exact hrelease a h (hnode h hi)
  | moveAssign h o => exact hrelease (a.swap h o) o (by rw [swap_owned]; exact hnode h hi)
  | _ => cases hi

theorem destroyed_of_not_clean {ops : List (Op Handle)} (hc : ¬ Clean cs t ops a) :
    (∃ i, .destroy (.pooled i) ∈ (run cs t ops a).log) ∨ ∃ h, (run cs t ops a).pool.handle h = .created := by
  induction ops generalizing a with
  | nil =>
    simp only [Clean, not_forall, not_not] at hc
    exact .inr hc
  | cons op ops ih =>
    cases hop : op.releases a with
    | some i =>
      have hmem : .destroy (.pooled i) ∈ (op.perform cs t a).log := destroy_mem hop
      exact .inl ⟨i, mem_run (a := op.perform cs t a) hmem⟩
    | none => exact ih (fun hh => hc ⟨hop, hh⟩)

end Lifetimes

section Ends

omit [DecidableEq Cache] [DecidableEq Handle]

theorem count_construct_finalLog (num : Nat) (a : Objects Tid Cache Handle) (o : Obj) :
    (a.finalLog num).count (.construct o) = a.log.count (.construct o) := by
  have hnot : Event.construct o ∉ ((List.range num).map fun i => Event.destroy (.pooled i)).reverse := by simp
  rw [Objects.finalLog, List.count_append, List.count_eq_zero_of_not_mem hnot, Nat.zero_add]

theorem count_destroys (num : Nat) (o : Obj) :
    (((List.range num).map fun i => Event.destroy (.pooled i)).reverse).count (.destroy o) =
      match o with
      | .pooled i => if i < num then 1 else 0
      | .heap _ => 0 :=
  count_pooled (fun _ _ => Event.destroy.inj) num o

theorem Calm.sound_finalLog (ha : Calm num collectiveNum a) (ht : Tidy num a) : Sound (a.finalLog num) := by
  have hh : ∀ n, n ≤ num → Sound (((List.range n).map fun i => Event.destroy (.pooled i)).reverse ++ a.log) := by
    intro n hn
    induction n with
    | zero => exact ha.sound
    | succ n ih =>
      have hok : (Event.destroy (.pooled n)).Ok (((List.range n).map fun i => Event.destroy (.pooled i)).reverse ++
        a.log) := by
        have hone : a.log.count (.construct (.pooled n)) = 1 := by rw [ht.pooled, if_pos (by omega)]
        have hnot := List.count_eq_zero_of_not_mem (ha.kept n)
        have hpast := count_construct_finalLog n a (.pooled n)
        rw [Objects.finalLog] at hpast
        show _ = _ + 1
        rw [hpast, List.count_append, count_destroys, hone, hnot]
        simp
      rw [List.range_succ, List.map_append, List.reverse_append]
      exact ⟨hok, ih (by omega)⟩
  exact hh num le_rfl

theorem count_destroy_finalLog (a : Objects Tid Cache Handle) (o : Obj) :
    (a.finalLog num).count (.destroy o) =
      (match o with
      | .pooled i => if i < num then 1 else 0
      | .heap _ => 0) + a.log.count (.destroy o) := by
  rw [Objects.finalLog, List.count_append, count_destroys]

/-- With nothing of `new T` left, what was calm throughout ends balanced. -/
theorem Calm.balanced (ha : Calm num collectiveNum a) (ht : Tidy num a) (hc : ∀ h, a.pool.handle h ≠ .created) :
    Balanced (a.finalLog num) := by
  refine ⟨ha.sound_finalLog ht, fun o => ?_⟩
  rw [count_construct_finalLog, count_destroy_finalLog]
  cases o with
  | pooled i => rw [ht.pooled, List.count_eq_zero_of_not_mem (ha.kept i), Nat.add_zero]
  | heap k =>
    rw [ht.heap, Nat.zero_add]
    by_cases hk : k < a.news
    · rw [if_pos hk, ht.settled k hk (fun h hh => absurd hh (hc h))]
    · rw [if_neg hk, List.count_eq_zero_of_not_mem (ht.fresh k (by omega))]

theorem Tidy.not_balanced (ht : Tidy num a)
    (h : (∃ i, .destroy (.pooled i) ∈ a.log) ∨ ∃ h, a.pool.handle h = .created) : ¬ Balanced (a.finalLog num) := by
  intro hb
  rcases h with ⟨i, hi⟩ | ⟨h, hh⟩
  · have hm := hb.matched (.pooled i)
    have hpos := List.count_pos_iff.2 hi
    rw [count_construct_finalLog, count_destroy_finalLog, ht.pooled] at hm
    simp only at hm
    omega
  · obtain ⟨hlt, hnot⟩ := ht.owned h hh
    have hm := hb.matched (.heap (a.heap h))
    rw [count_construct_finalLog, count_destroy_finalLog, ht.heap, if_pos hlt, List.count_eq_zero_of_not_mem hnot] at hm
    simp at hm

end Ends

/-- Constructions and destructions balance exactly in the runs in which `release(Node*)`
is never called and every object of `new T` is released. -/
theorem objects_balanced_iff (ha : a.Init num collectiveNum) (ops : List (Op Handle)) (hv : Valid cs t ops a) :
    Balanced ((run cs t ops a).finalLog num) ↔ Clean cs t ops a := by
  have htidy := ha.tidy.run hv
  constructor
  · intro hb
    by_contra hc
    exact htidy.not_balanced (destroyed_of_not_clean hc) hb
  · intro hc
    obtain ⟨hcalm, hleft⟩ := ha.calm.run ha.tidy hv hc
    exact hcalm.balanced htidy hleft

section Twice

def smallCache : Caches Unit Unit := ⟨false, fun _ => (), fun _ => (), 10⟩

def smallObjects : Objects Unit Unit Bool where
  pool :=
    { nodes := constructedNode 3 1
      head := constructedHead 1
      cache := fun _ => []
      handle := fun _ => .nothing
      pc := fun _ => .idle
      pushes := fun i => if i < 3 then 1 else 0 }
  heap := fun _ => 0
  news := 0
  log := ((List.range 3).map fun i => .construct (.pooled i)).reverse

theorem smallObjects_init : smallObjects.Init 3 1 :=
  ⟨⟨construct_eq (by decide) (by decide), fun _ => rfl, fun _ => rfl, fun _ => rfl, fun _ => rfl⟩, rfl, rfl⟩

theorem objects_balanced_iff_get :
    Balanced ((run smallCache () [.get true] smallObjects).finalLog 3) :=
  (objects_balanced_iff smallObjects_init [.get true] ⟨rfl, trivial⟩).2 ⟨rfl, fun h => by cases h <;> decide⟩

/-- One `get` and one `release`: the object is destroyed by `release` and again by the
vector. -/
theorem object_destroyed_twice : ¬ ∀ ops : List (Op Bool), Valid smallCache () ops smallObjects →
    Balanced ((run smallCache () ops smallObjects).finalLog 3) := by
  intro h
  have hm := (h [.get true, .release true] ⟨rfl, trivial, trivial⟩).matched (.pooled 1)
  revert hm
  decide

end Twice

end Wizard.Pool
