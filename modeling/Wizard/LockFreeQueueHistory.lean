import Wizard.History
import Wizard.LockFreeQueueFifo

/-! Pushes and pops of `lock_free_queue.h` take effect at one moment between call and return: a
push when tail moves on from the node of its object, which another push may do for it, and a pop
when it moves head, or when it reads tail and finds the queue empty. -/

namespace Wizard.LockFreeQueue.Shared

/-- Calls, effects and returns. The objects are those of the pushes. -/
inductive Event
  | push (k : Nat)
  | link (k : Nat)
  | pushed
  | pop
  | take (k : Nat)
  | empty
  | popped (res : Option Nat)

/-- What a thread is doing. -/
inductive Phase
  | idle
  | pushing (k : Nat)
  | popping
  | took (res : Option Nat)

/-- A queue on which the operations are single steps, with all objects that have been in it. -/
@[ext] structure Atomic (Tid : Type*) where
  items : List Nat
  linked : List Nat
  phase : Tid → Phase

variable {T Tid : Type*}

def Atomic.start : Atomic Tid := ⟨[], [], fun _ => .idle⟩

/-- The events of a thread in a push. -/
def pushEvents : Pc → Pc → List Event
  | .idle, .load k _ => [.push k]
  | .idle, _ => []
  | _, .idle => [.pushed]
  | _, _ => []

def popEvents (s : State T Tid) : Pop → Pop → List Event
  | .idle, .load => [.pop]
  | .tail _, .empty _ => [.empty]
  | .head old _, .data _ _ => ((old.ptr.bind fun p => (s.queue.node p).data).map .take).toList
  | .returned res, .idle => [.popped res]
  | .empty _, .idle => [.popped none]
  | _, _ => []

/-- Tail moves on from the node of an object. -/
def linkEvents (s s' : State T Tid) : List Event :=
  if s'.queue.tail.ptr = s.queue.tail.ptr then []
  else ((s.queue.tail.ptr.bind fun p => (s.queue.node p).data).map .link).toList

def emitted (s s' : State T Tid) (t : Tid) : List Event :=
  pushEvents (s.queue.pc t) (s'.queue.pc t) ++ (linkEvents s s' ++ popEvents s (s.pop t) (s'.pop t))

/-- The phase of a thread whose push has come to a place. -/
def Phase.pushAt (ph : Phase) : Pc → Phase
  | .idle => .idle
  | .load k _ => .pushing k
  | _ => ph

def After.Shown (pushed : List Nat) (swung : Nat) (ph : Phase) : After → Prop
  | .done => ∃ i k : Nat, i < swung ∧ pushed[i]? = some k ∧ ph = .pushing k
  | .again k _ => ph = .pushing k

/-- How the place of a thread shows in its phase, in a push. -/
def Pc.Shown (seen pushed : List Nat) (swung : Nat) (ph : Phase) : Pc → Prop
  | .idle => ph = .idle
  | .load k _ | .increase k _ _ | .data k _ _ | .help k _ _ | .renew k _ _ _ | .swing _ _ _ (.again k _) =>
    ph = .pushing k
  | .next _ old => ∃ i k : Nat, i ≤ swung ∧ old.ptr = seen[i]? ∧ pushed[i]? = some k ∧ ph = .pushing k
  | .swing _ p _ .done => ∃ i k : Nat, i ≤ swung ∧ seen[i]? = some p ∧ pushed[i]? = some k ∧ ph = .pushing k
  | .freeLoad _ k | .freeCas _ _ k | .releaseLoad _ _ k | .releaseCas _ _ _ k => After.Shown pushed swung ph k

/-- The same in a pop. -/
def Pop.Shown (pushed : List Nat) (ph : Phase) : Pop → Prop
  | .idle => False
  | .data _ turn => ∃ k : Nat, pushed[turn]? = some k ∧ ph = .took (some k)
  | .freeLoad _ res | .freeCas _ _ res | .returned res => ph = .took res
  | .empty _ => ph = .took none
  | _ => ph = .popping

def Shown (s : State T Tid) (seen : List Nat) (ph : Phase) (t : Tid) : Prop :=
  s.pop t = .idle ∧ Pc.Shown seen s.pushed s.swung ph (s.queue.pc t) ∨
    s.queue.pc t = .idle ∧ (s.pop t).Shown s.pushed ph

section Does

variable [DecidableEq Tid]

def Atomic.setPhase (a : Atomic Tid) (t : Tid) (ph : Phase) : Atomic Tid :=
  { a with phase := Function.update a.phase t ph }

/-- What the events do to the queue; a push that is under way may take effect in a step of any thread. -/
inductive Does : Atomic Tid → Tid × Event → Atomic Tid → Prop
  | push (a t k) (h : a.phase t = .idle) (hp : ∀ u, a.phase u ≠ .pushing k) (hk : k ∉ a.linked) :
      Does a (t, .push k) (a.setPhase t (.pushing k))
  | link (a t u k) (h : a.phase u = .pushing k) (hk : k ∉ a.linked) :
      Does a (t, .link k) ⟨a.items ++ [k], a.linked ++ [k], a.phase⟩
  | pushed (a t k) (h : a.phase t = .pushing k) (hk : k ∈ a.linked) : Does a (t, .pushed) (a.setPhase t .idle)
  | pop (a t) (h : a.phase t = .idle) : Does a (t, .pop) (a.setPhase t .popping)
  | take (a t k l) (h : a.phase t = .popping) (hl : a.items = k :: l) :
      Does a (t, .take k) { a.setPhase t (.took (some k)) with items := l }
  | empty (a t) (h : a.phase t = .popping) (hl : a.items = []) : Does a (t, .empty) (a.setPhase t (.took none))
  | popped (a t res) (h : a.phase t = .took res) : Does a (t, .popped res) (a.setPhase t .idle)

def EventStep (s : State T Tid) (es : List (Tid × Event)) (s' : State T Tid) : Prop :=
  ∃ t, Step t s s' ∧ Steady t s s' ∧ es = (emitted s s' t).map fun e => (t, e)

end Does

/-- The queue holds what tail has left behind and no pop has won. -/
structure Shows (s : State T Tid) (a : Atomic Tid) : Prop where
  inv : ∃ b seen, Inv s b seen ∧ ∀ t, Shown s seen (a.phase t) t
  items : a.items = a.linked.drop s.popped.length
  linked : a.linked = s.pushed.take s.swung
  pending : ∀ k ∈ s.pushed, k ∉ a.linked → ∃ t, a.phase t = .pushing k
  fresh : ∀ t k, a.phase t = .pushing k → k < s.queue.values.length

variable {s s' : State T Tid} {q b b' : LockFreeQueue.State T Tid} {t u : Tid} {seen seen' : List Nat} {ph : Phase}
  {a : Atomic Tid} {pc pc' : Pc} {k : Nat}

theorem pushEvents_self (pc : Pc) : pushEvents pc pc = [] := by
  cases pc <;> rfl

section Facts

variable (h : Inv s b seen)
include h

theorem Inv.places (hs : seen <+: seen') (i : Nat) (hi : i ≤ s.swung) : seen'[i]? = seen[i]? := by
  obtain ⟨l, rfl⟩ := hs
  exact List.getElem?_append_left (Nat.lt_of_succ_le (h.swung ▸ Nat.succ_le_succ hi))

/-- Where tail is at the node of a push, the push moves it. -/
theorem Inv.swing_ne {old new : CountedNodePtr} {p : Nat} {k : After} (ht : s.queue.pc t = .swing old p new k)
    (hp : s.queue.tail.ptr = some p) : new.ptr ≠ some p := by
  obtain ⟨front, last, rest, hseen, hq⟩ := h.pushes
  have hb : b.pc t = .swing old p new k := (h.shadow.pc t).trans (congrArg blur ht)
  obtain ⟨rfl, x, rfl, hx⟩ := hq.swung hb (by rwa [h.shadow.tail])
  rw [hx]
  intro he
  exact hq.rest_ne (a := p) (by simp) rfl (Option.some.inj he)

end Facts

theorem Pc.Shown.mono {l : List Nat} {swung swung' : Nat} {pushed : List Nat} (h : Pc.Shown seen pushed swung ph pc)
    (hseen : ∀ i ≤ swung, seen'[i]? = seen[i]?) (hle : swung ≤ swung') :
    Pc.Shown seen' (pushed ++ l) swung' ph pc := by
  have hafter : ∀ k : After, After.Shown pushed swung ph k → After.Shown (pushed ++ l) swung' ph k := by
    intro k hk
    cases k with
    | done =>
      obtain ⟨i, k, hi, hk, hph⟩ := hk
      exact ⟨i, k, hi.trans_le hle, getElem?_append_some hk l, hph⟩
    | again k n => exact hk
  cases pc with
  | next n old =>
    obtain ⟨i, k, hi, ho, hk, hph⟩ := h
    exact ⟨i, k, hi.trans hle, ho.trans (hseen i hi).symm, getElem?_append_some hk l, hph⟩
  | swing old p new k =>
    cases k with
    | done =>
      obtain ⟨i, k, hi, ho, hk, hph⟩ := h
      exact ⟨i, k, hi.trans hle, (hseen i hi).trans ho, getElem?_append_some hk l, hph⟩
    | again k n => exact h
  | freeLoad old k => exact hafter k h
  | freeCas old c k => exact hafter k h
  | releaseLoad p old k => exact hafter k h
  | releaseCas p old c k => exact hafter k h
  | _ => exact h

section Pushes

variable [DecidableEq Tid]

theorem pushStep_pc_of_ne (hs : LockFreeQueue.Step t q b) (hu : u ≠ t) : b.pc u = q.pc u := by
  cases hs <;> exact Function.update_of_ne hu _ _

omit [DecidableEq Tid] in
theorem shown_ite {c : Prop} [Decidable c] {p swung : Nat} {old : CountedNodePtr} {k : After} {pushed : List Nat}
    (h : After.Shown pushed swung ph k) :
    Pc.Shown seen pushed swung (ph.pushAt (if c then .freeLoad old k else .releaseLoad p old k))
      (if c then .freeLoad old k else .releaseLoad p old k) := by
  split <;> exact h

omit [DecidableEq Tid] in
theorem shown_swing {p swung : Nat} {old new : CountedNodePtr} {k : After} {pushed : List Nat}
    (hpc : pc = .swing old p new k) (h : Pc.Shown seen pushed swung ph (.swing old p new k)) :
    Pc.Shown seen pushed swung (ph.pushAt pc) pc := by
  rw [hpc]
  exact h

/-- The thread goes on with its push. -/
theorem Inv.shown_push (h : Inv s b seen) (hs : LockFreeQueue.Step t s.queue q) (hsteady : Steady t s (s.push t q))
    (h' : Inv (s.push t q) b' seen') (hseen : ∀ i ≤ s.swung, seen'[i]? = seen[i]?) (hle : s.swung ≤ (s.push t q).swung)
    (hph : Pc.Shown seen s.pushed s.swung ph (s.queue.pc t)) :
    Pc.Shown seen' (s.push t q).pushed (s.push t q).swung (ph.pushAt (q.pc t)) (q.pc t) := by
  have hmono := Pc.Shown.mono (l := (filled? (s.queue.pc t) (q.pc t)).toList) hph hseen hle
  change Pc.Shown seen' (s.push t q).pushed (s.push t q).swung ph (s.queue.pc t) at hmono
  have hafter : ∀ {k : After} {old : CountedNodePtr}, After.Shown (s.push t q).pushed (s.push t q).swung ph k →
      Pc.Shown seen' (s.push t q).pushed (s.push t q).swung (ph.pushAt (k.pc old)) (k.pc old) := by
    intro k old hk
    cases k with
    | done => rfl
    | again k n => exact hk
  have hcare := hsteady.careful
  have hmore : q.tail.ptr ≠ s.queue.tail.ptr → s.swung < (s.push t q).swung := fun hne => by
    rw [show (s.push t q).swung = s.swung + 1 from if_neg hne]
    exact Nat.lt_succ_self _
  cases hs with
  | push v n ht hn =>
    rw [setPc_pc]
    rfl
  | load k n ht | increaseOk k n old ht he | increaseFail k n old ht he | dataFail k n old p ht hp he
    | helpOk k n old p ht hp he | helpFail k n old p ht hp he | renew k old p new n ht hn | freeLoad old k p ht hp
    | freeCasFail old c k p ht hp he | releaseLoad p old k ht | releaseCasFail p old c k ht he =>
    rw [ht] at hmono
    rw [setPc_pc]
    exact hmono
  | dataOk k n old p ht hp he =>
    rw [ht] at hph
    have htail : s.queue.tail.ptr = some p := hsteady.data k n old p ht hp he
    have hplace := h'.tail_ptr
    have hself : ((s.queue.setNode p { s.queue.node p with data := some k }).node p).data = some k := by
      simp [LockFreeQueue.State.setNode]
    have hdata : (b'.node p).data = some k := by
      refine (h'.shadow.data p (.inl ?_)).trans hself
      exact fun hnone => Option.some_ne_none k (hself.symm.trans hnone)
    rw [setPc_pc]
    refine ⟨_, k, le_rfl, hp.trans (htail.symm.trans hplace), ?_, hph⟩
    exact (h'.cells _ p (hplace.symm.trans htail)).symm.trans hdata
  | nextOk n old p ht hp he | nextFail n old p ht hp he =>
    rw [ht] at hmono
    obtain ⟨i, k, hi, ho, hk, hpk⟩ := hmono
    rw [setPc_pc]
    exact ⟨i, k, hi, ho.symm.trans hp, hk, hpk⟩
  | swingOk old p new k ht he =>
    rw [ht] at hmono hph
    rw [setPc_pc]
    refine shown_ite ?_
    cases k with
    | again k n => exact hmono
    | done =>
      obtain ⟨i, k, hi, hplace, hk, hpk⟩ := hph
      rcases hi.lt_or_eq with hi | rfl
      · exact ⟨i, k, hi.trans_le hle, getElem?_append_some hk _, hpk⟩
      · have htail : s.queue.tail.ptr = some p := h.tail_ptr.trans hplace
        exact ⟨_, k, hmore fun he => h.swing_ne ht htail (he.trans htail), getElem?_append_some hk _, hpk⟩
  | swingFail old p new k ht =>
    rw [ht] at hmono
    rw [setPc_pc]
    have htail : s.queue.tail.ptr ≠ some p := by
      intro htail
      have hfirst := congrArg CountedNodePtr.ptr (hcare.first old p new k ht htail)
      exact h.swing_ne ht htail (hfirst.symm.trans htail)
    refine shown_swing (if_neg htail) ?_
    cases k <;> exact hmono
  | freeCasOk old c k p ht hp he | releaseCasOk p old c k ht he =>
    rw [ht] at hmono
    rw [setPc_pc]
    exact hafter hmono

omit [DecidableEq Tid] in
theorem mem_take_iff {l : List Nat} {n : Nat} : k ∈ l.take n ↔ ∃ i < n, l[i]? = some k := by
  rw [List.mem_iff_getElem?]
  refine exists_congr fun i => ?_
  rw [List.getElem?_take]
  split <;> simp [*]

omit [DecidableEq Tid] in
theorem Pop.Shown.mono {p : Pop} {pushed : List Nat} (h : p.Shown pushed ph) (l : List Nat) :
    p.Shown (pushed ++ l) ph := by
  cases p with
  | data old turn =>
    obtain ⟨k, hk, hph⟩ := h
    exact ⟨k, getElem?_append_some hk l, hph⟩
  | _ => exact h

/-- A step of a push is its call, its return or one between them. -/
inductive Kind (q q' : LockFreeQueue.State T Tid) (t : Tid) : Prop
  | call (n : Nat) (h : q.pc t = .idle) (h' : q'.pc t = .load q.values.length n) (ht : q'.tail = q.tail)
      (hv : q'.values.length = q.values.length + 1)
  | back (h : q.pc t ≠ .idle) (h' : q'.pc t = .idle) (ht : q'.tail = q.tail) (hv : q'.values = q.values)
      (hdone : ∀ seen pushed swung ph, Pc.Shown seen pushed swung ph (q.pc t) → After.Shown pushed swung ph .done)
  | inside (h : q.pc t ≠ .idle) (h' : q'.pc t ≠ .idle) (hl : ∀ k n, q'.pc t ≠ .load k n) (hv : q'.values = q.values)

theorem pushStep_kind (hs : LockFreeQueue.Step t q b) : Kind q b t := by
  cases hs with
  | push v n ht hn => exact .call n ht (setPc_pc ..) rfl (by simp [LockFreeQueue.State.setPc])
  | swingOk old p new k ht he =>
    refine .inside (by simp [ht]) ?_ ?_ rfl <;> rw [setPc_pc] <;> split <;> simp
  | swingFail old p new k ht =>
    refine .inside (by simp [ht]) ?_ ?_ rfl <;> rw [setPc_pc] <;> split <;> simp
  | freeCasOk old c k p ht hp he =>
    cases k with
    | done => exact .back (by simp [ht]) (setPc_pc ..) rfl rfl fun _ _ _ _ h => by rwa [ht] at h
    | again k n => exact .inside (by simp [ht]) (by simp [setPc_pc, After.pc]) (by simp [setPc_pc, After.pc]) rfl
  | releaseCasOk p old c k ht he =>
    cases k with
    | done => exact .back (by simp [ht]) (setPc_pc ..) rfl rfl fun _ _ _ _ h => by rwa [ht] at h
    | again k n => exact .inside (by simp [ht]) (by simp [setPc_pc, After.pc]) (by simp [setPc_pc, After.pc]) rfl
  | load k n ht | increaseOk k n old ht | increaseFail k n old ht | dataOk k n old p ht | dataFail k n old p ht
    | nextOk n old p ht | nextFail n old p ht | helpOk k n old p ht | helpFail k n old p ht | renew k old p new n ht
    | freeLoad old k p ht | freeCasFail old c k p ht | releaseLoad p old k ht | releaseCasFail p old c k ht =>
    exact .inside (by simp [ht]) (by simp [setPc_pc]) (by simp [setPc_pc]) rfl

omit [DecidableEq Tid] in
theorem Phase.pushAt_inside (h : pc ≠ .idle) (hl : ∀ k n, pc ≠ .load k n) : ph.pushAt pc = ph := by
  cases pc with
  | idle => exact absurd rfl h
  | load k n => exact absurd rfl (hl k n)
  | _ => rfl

omit [DecidableEq Tid] in
theorem pushEvents_inside (h : pc ≠ .idle) (h' : pc' ≠ .idle) : pushEvents pc pc' = [] := by
  cases pc with
  | idle => exact absurd rfl h
  | _ =>
    cases pc' with
    | idle => exact absurd rfl h'
    | _ => rfl

omit [DecidableEq Tid] in
theorem pushEvents_back (h : pc ≠ .idle) : pushEvents pc .idle = [.pushed] := by
  cases pc with
  | idle => exact absurd rfl h
  | _ => rfl

omit [DecidableEq Tid] in
theorem linkEvents_same (h : s'.queue.tail.ptr = s.queue.tail.ptr) : linkEvents s s' = [] := if_pos h

omit [DecidableEq Tid] in
theorem Shown.of_idle {seen : List Nat} (h : Shown s seen ph t) (hp : s.pop t = .idle) :
    Pc.Shown seen s.pushed s.swung ph (s.queue.pc t) := by
  rcases h with ⟨-, h⟩ | ⟨-, h⟩
  · exact h
  · rw [hp] at h
    exact h.elim

omit [DecidableEq Tid] in
/-- An object is put into a node by a push of it. -/
theorem shown_filled {seen pushed : List Nat} {swung : Nat} (h : Pc.Shown seen pushed swung ph pc)
    (hf : k ∈ filled? pc pc') : ph = .pushing k ∧ pc' ≠ .idle ∧ ∀ k n, pc' ≠ .load k n := by
  unfold filled? at hf
  split at hf
  · cases hf
    exact ⟨h, by simp, by simp⟩
  · cases hf

/-- The queue after a step of a push. -/
def Atomic.push (a : Atomic Tid) (s : State T Tid) (t : Tid) : Atomic Tid :=
  ⟨(s.pushed.take s.swung).drop s.popped.length, s.pushed.take s.swung,
    Function.update a.phase t ((a.phase t).pushAt (s.queue.pc t))⟩

theorem Atomic.push_self (a : Atomic Tid) (s : State T Tid) (t : Tid) :
    (a.push s t).phase t = (a.phase t).pushAt (s.queue.pc t) := Function.update_self ..

theorem Atomic.push_of_ne (a : Atomic Tid) (s : State T Tid) (hu : u ≠ t) : (a.push s t).phase u = a.phase u :=
  Function.update_of_ne hu ..

/-- What a step of a push does to the objects that tail has left behind. -/
theorem Inv.push_linked (h : Inv s b seen) (hs : LockFreeQueue.Step t s.queue q) (hsteady : Steady t s (s.push t q)) :
    q.tail.ptr = s.queue.tail.ptr ∧ (s.push t q).pushed.take (s.push t q).swung = s.pushed.take s.swung ∨
    q.tail.ptr ≠ s.queue.tail.ptr ∧ ∃ k : Nat, s.pushed[s.swung]? = some k ∧
      linkEvents s (s.push t q) = [.link k] ∧
      (s.push t q).pushed.take (s.push t q).swung = s.pushed.take s.swung ++ [k] := by
  have hswung := h.swung_le
  have htake : (s.push t q).pushed.take s.swung = s.pushed.take s.swung := List.take_append_of_le_length hswung
  by_cases he : q.tail.ptr = s.queue.tail.ptr
  · refine .inl ⟨he, ?_⟩
    rw [show (s.push t q).swung = s.swung from if_pos he, htake]
  · obtain ⟨b', seen', h', hg⟩ := h.push hs hsteady
    have hmore : (s.push t q).swung = s.swung + 1 := if_neg he
    have hmove : b'.tail.ptr ≠ b.tail.ptr := by
      rw [h'.shadow.tail, h.shadow.tail]
      exact he
    obtain ⟨last, hlast, hdata⟩ : ∃ last, s.queue.tail.ptr = some last ∧ (b.node last).data ≠ none := by
      generalize filled? (s.queue.pc t) (q.pc t) = o at hg
      cases hg with
      | same hb => exact absurd hb hmove
      | fill _ _ hb => exact absurd hb hmove
      | swing last next hb hlast hsome => exact ⟨last, h.shadow.tail ▸ hlast, hsome⟩
    have hcell := h.cells _ _ (h.tail_ptr.symm.trans hlast)
    obtain ⟨k, hk⟩ := Option.ne_none_iff_exists'.1 (hcell ▸ hdata)
    have hnode : (s.queue.node last).data = some k :=
      (h.shadow.data last (.inr (h.tail_not_taken hlast))).symm.trans (hcell.trans hk)
    refine .inr ⟨he, k, hk, ?_, ?_⟩
    · refine (if_neg he).trans ?_
      rw [hlast, Option.bind_some, hnode]
      rfl
    · rw [hmore, List.take_add_one, htake]
      congr 1
      rw [show (s.push t q).pushed[s.swung]? = some k from getElem?_append_some hk _]
      rfl

omit [DecidableEq Tid] in
theorem Shows.not_linked (h : Shows s a) (hk : s.pushed[s.swung]? = some k) : k ∉ a.linked := by
  obtain ⟨b, seen, hi, -⟩ := h.inv
  rw [h.linked]
  intro hmem
  obtain ⟨i, hlt, hk'⟩ := mem_take_iff.1 hmem
  have hlen := (List.getElem?_eq_some_iff.1 hk').1
  exact hlt.ne ((List.getElem?_inj hlen hi.pushed_nodup_lt.1).1 (hk'.trans hk.symm))

/-- The objects in nodes that tail has not left belong to pushes under way. -/
theorem Shows.push_pending (h : Shows s a) (hp : s.pop t = .idle) (hs : LockFreeQueue.Step t s.queue q)
    (hk : k ∈ (s.push t q).pushed) (hkl : k ∉ a.linked) : ∃ u, (a.push (s.push t q) t).phase u = .pushing k := by
  obtain ⟨b, seen, hi, hshown⟩ := h.inv
  have hmine := (hshown t).of_idle hp
  rcases List.mem_append.1 hk with hk | hk
  · obtain ⟨u, hu⟩ := h.pending k hk hkl
    refine ⟨u, ?_⟩
    by_cases hut : u = t
    · subst hut
      rw [Atomic.push_self]
      cases pushStep_kind hs with
      | call n hc =>
        rw [hc] at hmine
        cases hu.symm.trans hmine
      | back hc hc' _ _ hdone =>
        obtain ⟨i, k', hi, hk', hph⟩ := hdone _ _ _ _ hmine
        cases hu.symm.trans hph
        rw [h.linked] at hkl
        exact absurd (mem_take_iff.2 ⟨i, hi, hk'⟩) hkl
      | inside hc hc' hl => exact (Phase.pushAt_inside hc' hl).trans hu
    · rw [Atomic.push_of_ne a _ hut]
      exact hu
  · obtain ⟨hph, hc', hl⟩ := shown_filled hmine (Option.mem_toList.1 hk)
    refine ⟨t, ?_⟩
    rw [Atomic.push_self]
    exact (Phase.pushAt_inside hc' hl).trans hph

theorem Shows.push_fresh (h : Shows s a) (hs : LockFreeQueue.Step t s.queue q)
    (hu : (a.push (s.push t q) t).phase u = .pushing k) : k < q.values.length := by
  by_cases hut : u = t
  · subst hut
    rw [Atomic.push_self, show (s.push u q).queue.pc u = q.pc u from rfl] at hu
    cases pushStep_kind hs with
    | call n hc hc' _ hv =>
      rw [hc'] at hu
      cases hu
      rw [hv]
      exact Nat.lt_succ_self _
    | back hc hc' =>
      rw [hc'] at hu
      cases hu
    | inside hc hc' hl hv =>
      rw [hv]
      exact h.fresh u k ((Phase.pushAt_inside hc' hl).symm.trans hu)
  · rw [Atomic.push_of_ne a _ hut] at hu
    have hlt := h.fresh u k hu
    cases pushStep_kind hs with
    | call n _ _ _ hv =>
      rw [hv]
      exact Nat.lt_succ_of_lt hlt
    | back _ _ _ hv | inside _ _ _ hv => rwa [hv]

/-- A step of a push shows. -/
theorem Shows.push (h : Shows s a) (hp : s.pop t = .idle) (hs : LockFreeQueue.Step t s.queue q)
    (hsteady : Steady t s (s.push t q)) : Shows (s.push t q) (a.push (s.push t q) t) := by
  obtain ⟨b, seen, hi, hshown⟩ := h.inv
  obtain ⟨b', seen', hi', hseen⟩ := hi.step (.push s q hp hs) hsteady
  have hplaces := hi.places hseen
  have hle : s.swung ≤ (s.push t q).swung := by
    change _ ≤ ite _ _ _
    split
    · exact le_rfl
    · exact Nat.le_succ _
  have hlinked : ∀ k ∈ a.linked, k ∈ (s.push t q).pushed.take (s.push t q).swung := by
    intro k hk
    rw [h.linked] at hk
    rcases hi.push_linked hs hsteady with ⟨-, he⟩ | ⟨-, _, -, -, he⟩
    · rwa [he]
    · rw [he]
      exact List.mem_append_left _ hk
  refine ⟨⟨b', seen', hi', fun u => ?_⟩, rfl, rfl,
    fun k hk hkl => h.push_pending hp hs hk fun hk' => hkl (hlinked k hk'), fun u k hu => h.push_fresh hs hu⟩
  by_cases hu : u = t
  · subst hu
    refine .inl ⟨hp, ?_⟩
    rw [Atomic.push_self]
    exact hi.shown_push hs hsteady hi' hplaces hle ((hshown u).of_idle hp)
  · rw [Atomic.push_of_ne a _ hu]
    have hpc : q.pc u = s.queue.pc u := pushStep_pc_of_ne hs hu
    rcases hshown u with ⟨hidle, hsh⟩ | ⟨hidle, hsh⟩
    · refine .inl ⟨hidle, ?_⟩
      rw [show (s.push t q).queue.pc u = s.queue.pc u from hpc]
      exact Pc.Shown.mono hsh hplaces hle
    · exact .inr ⟨hpc.trans hidle, Pop.Shown.mono hsh _⟩

/-- The events of a step of a push lead there. -/
theorem Shows.push_replay (h : Shows s a) (hp : s.pop t = .idle) (hs : LockFreeQueue.Step t s.queue q)
    (hsteady : Steady t s (s.push t q)) :
    Replay Does a ((emitted s (s.push t q) t).map fun e => (t, e)) (a.push (s.push t q) t) := by
  obtain ⟨b, seen, hi, hshown⟩ := h.inv
  have hmine := (hshown t).of_idle hp
  have hnone : popEvents s (s.pop t) ((s.push t q).pop t) = [] := by
    rw [show (s.push t q).pop t = s.pop t from rfl, hp]
    rfl
  have hsame : q.tail.ptr = s.queue.tail.ptr →
      (s.push t q).pushed.take (s.push t q).swung = a.linked ∧ linkEvents s (s.push t q) = [] := by
    intro he
    rcases hi.push_linked hs hsteady with ⟨-, hl⟩ | ⟨hne, -⟩
    · exact ⟨hl.trans h.linked.symm, linkEvents_same he⟩
    · exact absurd he hne
  have hstay : (s.push t q).pushed.take (s.push t q).swung = a.linked →
      a.push (s.push t q) t = a.setPhase t ((a.phase t).pushAt (q.pc t)) := by
    intro hl
    refine Atomic.ext ?_ hl rfl
    exact (congrArg (List.drop _) hl).trans h.items.symm
  rw [emitted, hnone, List.append_nil]
  cases pushStep_kind hs with
  | call n hc hc' ht =>
    obtain ⟨hl, he⟩ := hsame (congrArg CountedNodePtr.ptr ht)
    rw [hstay hl, he, show (s.push t q).queue.pc t = q.pc t from rfl, hc, hc']
    rw [hc] at hmine
    refine .single (.push a t _ hmine (fun u hu => (h.fresh u _ hu).false) fun hk => ?_)
    rw [h.linked] at hk
    exact (hi.pushed_nodup_lt.2 _ (List.mem_of_mem_take hk)).false
  | back hc hc' ht _ hdone =>
    obtain ⟨hl, he⟩ := hsame (congrArg CountedNodePtr.ptr ht)
    rw [hstay hl, he, show (s.push t q).queue.pc t = q.pc t from rfl, hc', pushEvents_back hc]
    obtain ⟨i, k, hlt, hk, hph⟩ := hdone _ _ _ _ hmine
    refine .single (.pushed a t k hph ?_)
    rw [h.linked]
    exact mem_take_iff.2 ⟨i, hlt, hk⟩
  | inside hc hc' hl =>
    rw [show (s.push t q).queue.pc t = q.pc t from rfl, pushEvents_inside hc hc', List.nil_append]
    have hphase : Function.update a.phase t ((a.phase t).pushAt (q.pc t)) = a.phase := by
      rw [Phase.pushAt_inside hc' hl, Function.update_eq_self]
    rcases hi.push_linked hs hsteady with ⟨ht, he⟩ | ⟨-, k, hk, hev, he⟩
    · have ha : a.push (s.push t q) t = a :=
        (hstay (he.trans h.linked.symm)).trans (Atomic.ext rfl rfl hphase)
      rw [ha, linkEvents_same ht]
      exact .nil
    · have hnot := h.not_linked hk
      obtain ⟨u, hu⟩ := h.pending k (List.mem_of_getElem? hk) hnot
      have ha : a.push (s.push t q) t = ⟨a.items ++ [k], a.linked ++ [k], a.phase⟩ := by
        have hlinked : (s.push t q).pushed.take (s.push t q).swung = a.linked ++ [k] := by
          rw [he, h.linked]
        refine Atomic.ext ((congrArg (List.drop _) hlinked).trans ?_) hlinked hphase
        have hlen : s.popped.length ≤ a.linked.length := by
          rw [h.linked, List.length_take, Nat.min_eq_left hi.swung_le]
          exact hi.popped
        rw [h.items]
        exact List.drop_append_of_le_length hlen
      rw [ha, hev]
      exact .single (.link a t u k hu hnot)

end Pushes

section Pops

/-- A step of a pop leaves what pushes do. -/
structure Frame (s s' : State T Tid) (t : Tid) : Prop where
  pc : s'.queue.pc = s.queue.pc
  values : s'.queue.values = s.queue.values
  tail : s'.queue.tail = s.queue.tail
  pushed : s'.pushed = s.pushed
  swung : s'.swung = s.swung
  pop : ∀ u, u ≠ t → s'.pop u = s.pop u

theorem Frame.emitted (hf : Frame s s' t) : emitted s s' t = popEvents s (s.pop t) (s'.pop t) := by
  rw [Shared.emitted, hf.pc, pushEvents_self, linkEvents_same (congrArg CountedNodePtr.ptr hf.tail)]
  rfl

theorem Pop.Shown.ne_pushing {p : Pop} {pushed : List Nat} (h : p.Shown pushed ph) (k : Nat) : ph ≠ .pushing k := by
  rintro rfl
  cases p with
  | idle => exact h
  | data old turn =>
    obtain ⟨k, -, hph⟩ := h
    cases hph
  | _ => cases h

theorem Shown.of_pop (h : Shown s seen ph t) (hp : s.pop t ≠ .idle) :
    s.queue.pc t = .idle ∧ (s.pop t).Shown s.pushed ph := h.resolve_left fun hidle => hp hidle.1

variable [DecidableEq Tid]

theorem Step.frame (hs : Step t s s') :
    (∃ q, s.pop t = .idle ∧ LockFreeQueue.Step t s.queue q ∧ s' = s.push t q) ∨ Frame s s' t := by
  cases hs with
  | push q ht hq => exact .inl ⟨q, ht, hq, rfl⟩
  | _ => exact .inr ⟨rfl, rfl, rfl, rfl, rfl, fun u hu => Function.update_of_ne hu _ _⟩

/-- The queue after a step of a pop, where `ph` is the new phase. -/
def Atomic.popped (a : Atomic Tid) (s : State T Tid) (t : Tid) (ph : Phase) : Atomic Tid :=
  { a.setPhase t ph with items := a.linked.drop s.popped.length }

theorem Atomic.popped_self (a : Atomic Tid) (s : State T Tid) (t : Tid) (ph : Phase) :
    (a.popped s t ph).phase t = ph := Function.update_self ..

theorem Atomic.popped_of_ne (a : Atomic Tid) (s : State T Tid) (ph : Phase) (hu : u ≠ t) :
    (a.popped s t ph).phase u = a.phase u := Function.update_of_ne hu ..

/-- A step of a pop shows. -/
theorem Shows.goOn (h : Shows s a) (hs : Step t s s') (hsteady : Steady t s s') (hf : Frame s s' t)
    (hidle : s.queue.pc t = .idle) (hold : ∀ k, a.phase t ≠ .pushing k)
    (hph : s'.pop t = .idle ∧ ph = .idle ∨ (s'.pop t).Shown s.pushed ph) : Shows s' (a.popped s' t ph) := by
  obtain ⟨b, seen, hi, hshown⟩ := h.inv
  obtain ⟨b', seen', hi', hseen⟩ := hi.step hs hsteady
  have hnew : ∀ k, ph ≠ .pushing k := by
    rcases hph with ⟨-, rfl⟩ | hph
    · intro k
      simp
    · exact hph.ne_pushing
  have hphase : ∀ {u k}, (a.popped s' t ph).phase u = .pushing k ↔ a.phase u = .pushing k := by
    intro u k
    by_cases hu : u = t
    · subst hu
      rw [Atomic.popped_self]
      exact iff_of_false (hnew k) (hold k)
    · rw [Atomic.popped_of_ne a _ _ hu]
  refine ⟨⟨b', seen', hi', fun u => ?_⟩, rfl, ?_, fun k hk hkl => ?_, fun u k hu => ?_⟩
  · rw [Shown, hf.pc, hf.pushed, hf.swung]
    by_cases hu : u = t
    · subst hu
      rw [Atomic.popped_self, hidle]
      exact hph.imp_right fun hph => ⟨rfl, hph⟩
    · rw [Atomic.popped_of_ne a _ _ hu, hf.pop u hu]
      refine (hshown u).imp_left fun ⟨hp, hpc⟩ => ⟨hp, ?_⟩
      have hmono := Pc.Shown.mono (l := []) hpc (hi.places hseen) le_rfl
      rwa [List.append_nil] at hmono
  · rw [hf.pushed, hf.swung]
    exact h.linked
  · rw [hf.pushed] at hk
    obtain ⟨u, hu⟩ := h.pending k hk hkl
    exact ⟨u, hphase.2 hu⟩
  · rw [hf.values]
    exact h.fresh u k (hphase.1 hu)

theorem Shows.popped_eq (h : Shows s a) (hlen : s'.popped.length = s.popped.length) :
    a.popped s' t ph = a.setPhase t ph :=
  Atomic.ext ((congrArg (a.linked.drop ·) hlen).trans h.items.symm) rfl rfl

/-- A step of a pop without an event. -/
theorem Shows.stay (h : Shows s a) (hs : Step t s s') (hsteady : Steady t s s') (hf : Frame s s' t)
    (hp : s.pop t ≠ .idle) (hev : popEvents s (s.pop t) (s'.pop t) = []) (hlen : s'.popped.length = s.popped.length)
    (hph : (s.pop t).Shown s.pushed (a.phase t) → (s'.pop t).Shown s.pushed (a.phase t)) :
    ∃ a', Replay Does a ((emitted s s' t).map fun e => (t, e)) a' ∧ Shows s' a' := by
  obtain ⟨b, seen, hi, hshown⟩ := h.inv
  obtain ⟨hidle, hsh⟩ := (hshown t).of_pop hp
  have ha : a.popped s' t (a.phase t) = a :=
    (h.popped_eq hlen).trans (Atomic.ext rfl rfl (Function.update_eq_self ..))
  refine ⟨a, ?_, ?_⟩
  · rw [hf.emitted, hev]
    exact .nil
  · have hgo := h.goOn hs hsteady hf hidle hsh.ne_pushing (.inr (hph hsh))
    rwa [ha] at hgo

/-- A step of a pop with an event. -/
theorem Shows.does (h : Shows s a) (ph : Phase) (hs : Step t s s') (hsteady : Steady t s s') (hf : Frame s s' t)
    {e : Event} (hev : popEvents s (s.pop t) (s'.pop t) = [e]) (hd : Does a (t, e) (a.popped s' t ph))
    (hidle : s.queue.pc t = .idle) (hold : ∀ k, a.phase t ≠ .pushing k)
    (hph : s'.pop t = .idle ∧ ph = .idle ∨ (s'.pop t).Shown s.pushed ph) :
    ∃ a', Replay Does a ((emitted s s' t).map fun e => (t, e)) a' ∧ Shows s' a' := by
  refine ⟨_, ?_, h.goOn hs hsteady hf hidle hold hph⟩
  rw [hf.emitted, hev]
  exact .single hd

/-- The same where the queue stays. -/
theorem Shows.says (h : Shows s a) (ph : Phase) (hs : Step t s s') (hsteady : Steady t s s') (hf : Frame s s' t)
    {e : Event} (hev : popEvents s (s.pop t) (s'.pop t) = [e]) (hlen : s'.popped.length = s.popped.length)
    (hd : Does a (t, e) (a.setPhase t ph)) (hidle : s.queue.pc t = .idle) (hold : ∀ k, a.phase t ≠ .pushing k)
    (hph : s'.pop t = .idle ∧ ph = .idle ∨ (s'.pop t).Shown s.pushed ph) :
    ∃ a', Replay Does a ((emitted s s' t).map fun e => (t, e)) a' ∧ Shows s' a' := by
  rw [← h.popped_eq hlen] at hd
  exact h.does ph hs hsteady hf hev hd hidle hold hph

omit [DecidableEq Tid] in
/-- Where head is, a pop finds the first object. -/
theorem Inv.head_data (h : Inv s b seen) {old next : CountedNodePtr} (ht : s.pop t = .head old next)
    (he : s.queue.head = old) : ∃ p k : Nat, old.ptr = some p ∧ (s.queue.node p).data = some k ∧
      s.popped.length < s.swung ∧ s.pushed[s.popped.length]? = some k := by
  have hok := h.pops t
  rw [ht] at hok
  obtain ⟨i, hi, hlt, ho, -⟩ := hok
  obtain ⟨p, hp⟩ := h.exists_seen hlt.le
  have hplace : seen[s.popped.length]? = some p := by rw [← h.head, he, ho, hp]
  obtain rfl : i = s.popped.length := h.index hp hplace
  obtain ⟨k, hk⟩ : ∃ k, s.pushed[s.popped.length]? = some k :=
    ⟨_, List.getElem?_eq_getElem (hlt.trans_le h.swung_le)⟩
  refine ⟨p, k, ho.trans hp, ?_, hlt, hk⟩
  rw [← h.shadow.data p (.inr (h.not_taken hp fun r hr => ?_)), h.cells _ p hp, hk]
  exact (List.getElem?_eq_some_iff.1 hr).1.false

/-- Each step does its events. -/
theorem Shows.step (h : Shows s a) (hs : Step t s s') (hsteady : Steady t s s') :
    ∃ a', Replay Does a ((emitted s s' t).map fun e => (t, e)) a' ∧ Shows s' a' := by
  rcases hs.frame with ⟨q, hp, hq, rfl⟩ | hf
  · exact ⟨_, h.push_replay hp hq hsteady, h.push hp hq hsteady⟩
  obtain ⟨b, seen, hi, hshown⟩ := h.inv
  have hmine := hshown t
  have hstep := hs
  cases hs with
  | push q ht hq => exact ⟨_, h.push_replay ht hq hsteady, h.push ht hq hsteady⟩
  | pop ht hq =>
    have hph := hmine.of_idle ht
    rw [hq] at hph
    refine h.says .popping hstep hsteady hf (e := .pop) ?_ rfl (.pop a t hph) hq ?_ (.inr ?_)
    · rw [ht, setPop_self]
      rfl
    · intro k hk
      cases hph.symm.trans hk
    · rw [setPop_self]
      rfl
  | load ht | increaseOk old ht he | increaseFail old ht he | next old p ht hp | headFail old next p ht hp he
    | freeLoad old res p ht hp | freeCasOk old c res p ht hp he | freeCasFail old c res p ht hp he
    | releaseLoad p old ht | releaseCasOk p old c ht he | releaseCasFail p old c ht he =>
    refine h.stay hstep hsteady hf (by simp [ht]) (by rw [ht, setPop_self]; rfl) rfl fun hsh => ?_
    rw [ht] at hsh
    rw [setPop_self]
    exact hsh
  | tail old ht =>
    by_cases he : old.ptr = s.queue.tail.ptr
    · have hp' : ∀ p p', (s.setPop t (if old.ptr = s.queue.tail.ptr then p else p')).pop t = p := fun p p' => by
        rw [setPop_self, if_pos he]
      obtain ⟨hidle, hsh⟩ := hmine.of_pop (by simp [ht])
      refine h.says (.took none) hstep hsteady hf (e := .empty) ?_ rfl ?_ hidle hsh.ne_pushing (.inr ?_)
      · rw [ht, hp']
        rfl
      · rw [ht] at hsh
        refine .empty a t hsh ?_
        rw [h.items, h.linked, ← hi.drained ht he]
        exact List.drop_take_self
      · rw [hp']
        rfl
    · have hp' : ∀ p p', (s.setPop t (if old.ptr = s.queue.tail.ptr then p else p')).pop t = p' := fun p p' => by
        rw [setPop_self, if_neg he]
      refine h.stay hstep hsteady hf (by simp [ht]) (by rw [ht, hp']; rfl) rfl fun hsh => ?_
      rw [ht] at hsh
      rw [hp']
      exact hsh
  | headOk old next ht he =>
    obtain ⟨p, k, hp, hdata, hlt, hk⟩ := hi.head_data ht he
    obtain ⟨hidle, hsh⟩ := hmine.of_pop (by simp [ht])
    refine h.does (.took (some k)) hstep hsteady hf (e := .take k) ?_ ?_ hidle hsh.ne_pushing (.inr ?_)
    · rw [ht, setPop_self, popEvents, hp, Option.bind_some, hdata]
      rfl
    · rw [ht] at hsh
      refine .take a t k _ hsh ?_
      have hplace : a.linked[s.popped.length]? = some k := by
        rw [h.linked, List.getElem?_take_of_lt hlt, hk]
      obtain ⟨hlen, hget⟩ := List.getElem?_eq_some_iff.1 hplace
      rw [h.items, List.drop_eq_getElem_cons hlen, hget]
      simp [State.setPop, State.setHead]
    · rw [setPop_self]
      exact ⟨k, hk, rfl⟩
  | data old turn p ht hp =>
    refine h.stay hstep hsteady hf (by simp [ht]) (by rw [ht, setPop_self]; rfl) (List.length_set ..) fun hsh => ?_
    rw [ht] at hsh
    rw [setPop_self]
    obtain ⟨k, hk, hph⟩ := hsh
    rw [← (hi.takeData ht hp).1] at hk
    rw [hk]
    exact hph
  | return_ res ht =>
    obtain ⟨hidle, hsh⟩ := hmine.of_pop (by simp [ht])
    refine h.says .idle hstep hsteady hf (e := .popped res) ?_ rfl ?_ hidle hsh.ne_pushing (.inl ⟨setPop_self .., rfl⟩)
    · rw [ht, setPop_self]
      rfl
    · rw [ht] at hsh
      exact .popped a t res hsh
  | returnEmpty drained ht =>
    obtain ⟨hidle, hsh⟩ := hmine.of_pop (by simp [ht])
    refine h.says .idle hstep hsteady hf (e := .popped none) ?_ rfl ?_ hidle hsh.ne_pushing (.inl ⟨setPop_self .., rfl⟩)
    · rw [ht, setPop_self]
      rfl
    · rw [ht] at hsh
      exact .popped a t none hsh

end Pops

section Runs

variable [DecidableEq Tid] {es : List (Tid × Event)}

omit [DecidableEq Tid] in
theorem shows_make (dummy : Nat) : Shows (.make dummy : State T Tid) .start where
  inv := ⟨_, _, inv_make dummy, fun _ => .inl ⟨rfl, rfl⟩⟩
  items := rfl
  linked := rfl
  pending _ hk := (List.not_mem_nil hk).elim
  fresh _ _ h := by cases h

/-- Every run is one of the queue on which the operations are single steps, each between its call
and its return, and when no call is under way the nodes hold what that queue holds. -/
theorem fifo_linearizable {dummy : Nat} (h : EventRun EventStep (.make dummy : State T Tid) es s) :
    ∃ a, Replay Does .start es a ∧ ((∀ t, s.queue.pc t = .idle) → (∀ t, s.pop t = .idle) →
      (∀ t, a.phase t = .idle) ∧ a.linked = s.pushed ∧ ∃ l last,
        Segment (fun p => (s.queue.node p).next.ptr) s.queue.head.ptr (l ++ [last]) none ∧
        s.queue.tail.ptr = some last ∧ s.queue.held (l ++ [last]) = a.items) := by
  obtain ⟨a, ha, hshows⟩ := h.replay (fun s _ a => Shows s a) (shows_make dummy)
    fun s s' _ es' a hs ⟨t, hstep, hsteady, he⟩ => he ▸ hs.step hstep hsteady
  refine ⟨a, ha, fun hpush hpop => ?_⟩
  obtain ⟨b, seen, hi, hshown⟩ := hshows.inv
  have hidle : ∀ t, a.phase t = .idle := fun t => by
    have hph := (hshown t).of_idle (hpop t)
    rw [hpush t] at hph
    exact hph
  have hlinked : a.linked = s.pushed := by
    rw [hshows.linked]
    refine List.take_of_length_le ?_
    by_contra hlt
    obtain ⟨k, hk⟩ : ∃ k, s.pushed[s.swung]? = some k := ⟨_, List.getElem?_eq_getElem (Nat.lt_of_not_le hlt)⟩
    obtain ⟨t, ht⟩ := hshows.pending k (List.mem_of_getElem? hk) (hshows.not_linked hk)
    cases (hidle t).symm.trans ht
  obtain ⟨-, l, last, hl, htail, hheld⟩ := hi.at_rest hpush
  refine ⟨hidle, hlinked, l, last, hl, htail, ?_⟩
  rw [hheld, hshows.items, hlinked]

theorem exists_events (h : Reachable Init SteadyStep s) : ∃ dummy es, EventRun EventStep (.make dummy) es s := by
  apply h.invariant
  · rintro s ⟨dummy, rfl⟩
    exact ⟨dummy, [], .start⟩
  · rintro s s' - ⟨dummy, es, h⟩ ⟨t, hs, hsteady⟩
    exact ⟨dummy, _, h.tail ⟨t, hs, hsteady, rfl⟩⟩

end Runs

theorem fifo_linearizable_two : ∃ (s : State Nat Bool) (es : List (Bool × Event)) (dummy : Nat) (a : Atomic Bool),
    EventRun EventStep (.make dummy) es s ∧ s.popped = [some (some 0), some (some 1)] ∧ Replay Does .start es a ∧
      a.linked = [0, 1] := by
  obtain ⟨-, s, -, hs, hpush, hpop, hpushed, hpopped⟩ := exists_popped
  obtain ⟨dummy, es, h⟩ := exists_events hs
  obtain ⟨a, ha, hrest⟩ := fifo_linearizable h
  exact ⟨s, es, dummy, a, h, hpopped, ha, (hrest hpush hpop).2.1.trans hpushed⟩

end Wizard.LockFreeQueue.Shared
