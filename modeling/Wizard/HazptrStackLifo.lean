import Wizard.HazptrStack
import Wizard.History

/-! The stack of `hazptr_stack.h` is last in, first out, in the runs in which no pop meets a
deleted node or one that has come back. A call takes effect at its compare-exchange. -/

namespace Wizard.HazptrStack

inductive Event (T : Type*)
  | push (v : T)
  | pop (v : T)
  | empty

/-- What the calls do to a stack. -/
inductive Does {T : Type*} : List T → Event T → List T → Prop
  | push (l v) : Does l (.push v) (v :: l)
  | pop (l v) : Does (v :: l) (.pop v) l
  | empty : Does [] .empty []

variable {Tid A T : Type*}

/-- The event of a step that leads a thread from one place to another. -/
def emitted (s : State Tid A T) : Pc A T → Pc A T → List (Event T)
  | .pushCas a, .idle => [.push (s.node a).data]
  | .popCas a _, .popData _ => [.pop (s.node a).data]
  | .idle, .idle | .popCas _ _, .idle => [.empty]
  | _, _ => []

variable [DecidableEq Tid] [DecidableEq A]

def EventStep (s : State Tid A T) (es : List (Tid × Event T)) (s' : State Tid A T) : Prop :=
  ∃ t, Step t s s' ∧ Careful t s s' ∧ es = (emitted s (s.pc t) (s'.pc t)).map fun e => (t, e)

/-- A pop that has unlinked its node returns what its event says. -/
def Recent (s : State Tid A T) (es : List (Tid × Event T)) : Prop :=
  ∀ t, (∀ a, s.pc t = .popData a → lastOf t es = some (.pop (s.node a).data)) ∧
    ∀ a k v, s.pc t = .popDelete a k v → lastOf t es = some (.pop v)

variable {s s' : State Tid A T} {l : List A} {t : Tid} {a : A} {es : List (Tid × Event T)}

def contents (s : State Tid A T) (l : List A) : List T := l.map fun a => (s.node a).data

omit [DecidableEq Tid] [DecidableEq A] in
theorem contents_congr (h : ∀ a ∈ l, (s'.node a).data = (s.node a).data) : contents s' l = contents s l :=
  List.map_congr_left h

/-- The data of a node that is in use stay, and a step is that of one thread. -/
theorem Step.frame (hs : Step t s s') :
    (∀ a, s.live a → (s'.node a).data = (s.node a).data) ∧ ∀ u, u ≠ t → s'.pc u = s.pc u := by
  have hpop : ∀ p u, u ≠ t → (s.popLoop t p).pc u = s.pc u := by
    intro p u hu
    cases p <;> exact Function.update_of_ne hu _ _
  have hnode : ∀ p a, ((s.popLoop t p).node a).data = (s.node a).data := by
    intro p a
    cases p <;> rfl
  cases hs with
  | push v a ht ha =>
    refine ⟨fun b hb => ?_, fun u hu => Function.update_of_ne hu _ _⟩
    refine congrArg Node.data (Function.update_of_ne ?_ _ _)
    rintro rfl
    exact ha hb
  | loadHead a ht => exact ⟨fun b _ => setNext_data s a b _, fun u hu => Function.update_of_ne hu _ _⟩
  | pushCasFail a ht => exact ⟨fun b _ => setNext_data s a b _, fun u _ => rfl⟩
  | pop ht => exact ⟨fun b _ => hnode _ b, hpop _⟩
  | popCasFail a p ht => exact ⟨fun b _ => hnode _ b, hpop _⟩
  | _ => exact ⟨fun b _ => rfl, fun u hu => Function.update_of_ne hu _ _⟩

theorem Recent.step (hr : Recent s es) (h : Inv s l) (hs : Step t s s') :
    Recent s' (es ++ (emitted s (s.pc t) (s'.pc t)).map fun e => (t, e)) := by
  intro u
  by_cases hu : u = t
  · subst hu
    have hpop : ∀ p pc, (s.popLoop u p).pc u = pc → pc = .idle ∨ ∃ a, pc = .popRead a := by
      rintro p pc rfl
      cases p with
      | none => exact .inl (Function.update_self ..)
      | some a => exact .inr ⟨a, Function.update_self ..⟩
    have hno : (∀ a, s'.pc u ≠ .popData a) → (∀ a k v, s'.pc u ≠ .popDelete a k v) →
        (∀ a, s'.pc u = .popData a → lastOf u (es ++ (emitted s (s.pc u) (s'.pc u)).map fun e => (u, e)) =
          some (.pop (s'.node a).data)) ∧ ∀ a k v, s'.pc u = .popDelete a k v →
            lastOf u (es ++ (emitted s (s.pc u) (s'.pc u)).map fun e => (u, e)) = some (.pop v) :=
      fun h₁ h₂ => ⟨fun a h => absurd h (h₁ a), fun a k v h => absurd h (h₂ a k v)⟩
    cases hs with
    | pop ht | popCasFail a p ht =>
      refine hno (fun a h => ?_) (fun a k v h => ?_)
      · rcases hpop _ _ h with h | ⟨b, h⟩ <;> cases h
      · rcases hpop _ _ h with h | ⟨b, h⟩ <;> cases h
    | popCasOk a p ht he =>
      refine ⟨fun b hb => ?_, fun b k v hb => ?_⟩
      · rw [setPc_pc, Function.update_self] at hb ⊢
        cases hb
        rw [ht]
        exact lastOf_concat _
      · rw [setPc_pc, Function.update_self] at hb
        cases hb
    | popData a ht =>
      refine ⟨fun b hb => ?_, fun b k v hb => ?_⟩
      · rw [setPc_pc, Function.update_self] at hb
        cases hb
      · rw [setPc_pc, Function.update_self] at hb ⊢
        cases hb
        have hlast := (hr u).1 a ht
        rw [ht]
        simpa [emitted] using hlast
    | pushCasFail a ht =>
      have hpc : (s.setNext a s.head).pc u = .pushCas a := ht
      refine hno (fun b hb => ?_) (fun b k v hb => ?_)
      · cases hpc.symm.trans hb
      · cases hpc.symm.trans hb
    | _ => exact hno (by simp) (by simp)
  · obtain ⟨hdata, hpc⟩ := hs.frame
    rw [hpc u hu, lastOf_append hu]
    refine ⟨fun a ha => ?_, (hr u).2⟩
    rw [hdata a (h.live_own (t := u) (by rw [ha]; rfl))]
    exact (hr u).1 a ha

omit [DecidableEq Tid] [DecidableEq A] in
theorem Inv.live_mem (h : Inv s l) (ha : a ∈ l) : s.live a := h.place.mem a .stack ha

/-- A step with its event does to the contents what the event says. -/
theorem Inv.does (h : Inv s l) (hs : Step t s s') (hc : Careful t s s') :
    ∃ l', Inv s' l' ∧ Replay Does (contents s l) (emitted s (s.pc t) (s'.pc t)) (contents s' l') := by
  have hdata := hs.frame.1
  have hsame : contents s' l = contents s l := contents_congr fun b hb => hdata b (h.live_mem hb)
  have hquiet : Inv s' l → emitted s (s.pc t) (s'.pc t) = [] →
      ∃ l', Inv s' l' ∧ Replay Does (contents s l) (emitted s (s.pc t) (s'.pc t)) (contents s' l') := by
    intro hi he
    refine ⟨l, hi, ?_⟩
    rw [he, hsame]
    exact .nil
  have hloop : Inv (s.popLoop t s.head) l → s' = s.popLoop t s.head →
      (s.head = none → emitted s (s.pc t) .idle = [.empty]) → (∀ a, emitted s (s.pc t) (.popRead a) = []) →
      ∃ l', Inv s' l' ∧ Replay Does (contents s l) (emitted s (s.pc t) (s'.pc t)) (contents s' l') := by
    rintro hi rfl hnone hsome
    cases hh : s.head with
    | none =>
      have hl : l = [] := by
        have hlinked := h.linked
        rw [hh] at hlinked
        exact hlinked.eq_nil
      subst hl
      rw [hh] at hi
      refine ⟨[], hi, ?_⟩
      have hpc : (s.popLoop t none).pc t = .idle := Function.update_self ..
      rw [hpc, hnone hh]
      exact .single .empty
    | some a =>
      rw [hh] at hi hquiet
      have hpc : (s.popLoop t (some a)).pc t = .popRead a := Function.update_self ..
      refine ⟨l, hi, ?_⟩
      rw [hpc, hsome a]
      exact .nil
  obtain ⟨l', hi'⟩ := h.step hs hc
  cases hs with
  | push v a ht ha =>
    refine hquiet (h.make v ht ha) ?_
    have hpc : Function.update s.pc t (.loadHead a) t = .loadHead a := Function.update_self ..
    rw [ht]
    exact congrArg (emitted s .idle) hpc
  | loadHead a ht =>
    have ho : (s.pc t).own? = some a := by
      rw [ht]
      rfl
    refine hquiet ((h.setNext ho s.head).goOn ho.symm trivial) ?_
    rw [ht]
    rfl
  | pushCasOk a ht he =>
    have ho : (s.pc t).own? = some a := by
      rw [ht]
      rfl
    refine ⟨a :: l, h.link ho he, ?_⟩
    rw [ht, setPc_pc, Function.update_self]
    exact .single (.push _ _)
  | pushCasFail a ht =>
    refine hquiet (h.setNext (t := t) ?_ s.head) ?_
    · rw [ht]
      rfl
    · have hpc : (s.setNext a s.head).pc t = .pushCas a := ht
      rw [ht, hpc]
      rfl
  | pop ht =>
    refine hloop (h.popLoop ?_) rfl (fun _ => ?_) fun a => ?_
    · rw [ht]
      rfl
    · rw [ht]
      rfl
    · rw [ht]
      rfl
  | popRead a ht =>
    refine hquiet (h.goOn ?_ trivial) ?_
    · rw [ht]
      rfl
    · rw [ht]
      rfl
  | popCasOk a p ht he =>
    obtain rfl := hc.reuse a p ht (Function.update_self _ _ _)
    have hl : l = a :: l' := by
      have hlinked : Segment (fun b => (s.node b).next) s.head (a :: l') none := ⟨he, hi'.linked⟩
      exact h.linked.unique hlinked
    refine ⟨l', hi', ?_⟩
    rw [ht, setPc_pc, Function.update_self, hl]
    exact .single (.pop _ _)
  | popCasFail a p ht =>
    refine hloop (h.popLoop ?_) rfl (fun _ => ?_) fun a => ?_
    · rw [ht]
      rfl
    · rw [ht]
      rfl
    · rw [ht]
      rfl
  | popData a ht =>
    refine hquiet (h.goOn ?_ ⟨rfl, rfl⟩) ?_
    · rw [ht]
      rfl
    · rw [ht]
      rfl
  | popDelete a k v ht =>
    refine hquiet (h.delete ht (hc.delete a k v ht)) ?_
    rw [ht]
    rfl

/-- The nodes from the head hold `c`. -/
def Shows (s : State Tid A T) (es : List (Tid × Event T)) (c : List T) : Prop :=
  (∃ l, Inv s l ∧ contents s l = c) ∧ Recent s es

theorem Shows.step {c : List T} {es' : List (Tid × Event T)} (h : Shows s es c) (hs : EventStep s es' s') :
    ∃ c', Replay (fun c e c' => Does c e.2 c') c es' c' ∧ Shows s' (es ++ es') c' := by
  obtain ⟨⟨l, hi, rfl⟩, hr⟩ := h
  obtain ⟨t, hs, hcare, rfl⟩ := hs
  obtain ⟨l', hi', hdo⟩ := hi.does hs hcare
  exact ⟨_, hdo.map _ fun _ _ _ h => h, ⟨l', hi', rfl⟩, hr.step hi hs⟩

/-- In the order of their events the calls do what they would do to a stack, the nodes from the
head hold what is on it in the end, and a pop that is about to return returns what its event
says. -/
theorem lifo {s₀ : State Tid A T} (h₀ : Init s₀) (h : EventRun EventStep s₀ es s) :
    ∃ l, Segment (fun a => (s.node a).next) s.head l none ∧
      Replay (fun c e c' => Does c e.2 c') [] es (contents s l) ∧
      ∀ t a k v, s.pc t = .popDelete a k v → lastOf t es = some (.pop v) := by
  have hrecent : Recent s₀ [] := by
    intro t
    simp [h₀.pc t]
  obtain ⟨c, hc, ⟨l, hi, rfl⟩, hr⟩ := h.replay Shows ⟨⟨[], .init h₀, rfl⟩, hrecent⟩ fun _ _ _ _ _ hr hs => hr.step hs
  exact ⟨l, hi.linked, hc, fun t => (hr t).2⟩

omit [DecidableEq Tid] [DecidableEq A] in
theorem careful_of (pc : Pc A T) (h : s.pc t = pc) (hd : ∀ a k v, pc ≠ .popDelete a k v)
    (hp : ∀ a p, pc ≠ .popCas a p) : Careful t s s' :=
  ⟨fun a k v h' => absurd (h.symm.trans h') (hd a k v), fun a p h' => absurd (h.symm.trans h') (hp a p)⟩

def fresh : State Unit Bool Nat := ⟨none, fun _ => ⟨0, none⟩, fun _ => False, fun _ => .idle, fun _ => 0, [], []⟩

/-- Two values are pushed, and the second is popped first. -/
theorem lifo_two : ∃ (s : State Unit Bool Nat) (es : List (Unit × Event Nat)) (l : List Bool),
    EventRun EventStep fresh es s ∧ es = [((), .push 1), ((), .push 2), ((), .pop 2)] ∧
      Replay (fun c e c' => Does c e.2 c') [] es (contents s l) := by
  have h₀ : Init fresh := ⟨rfl, fun _ => id, fun _ => rfl, rfl, rfl⟩
  have hcare : ∀ s s' : State Unit Bool Nat, s.pc () = .popCas true (some false) → (s.node true).next = some false →
      Careful () s s' := by
    intro s s' hpc hn
    refine ⟨fun a k v h => ?_, fun a p h _ => ?_⟩
    · cases hpc.symm.trans h
    · cases hpc.symm.trans h
      exact hn
  have r₀ : EventRun EventStep fresh [] fresh := .start
  have r₁ := r₀.tail ⟨(), .push _ 1 false rfl id, careful_of .idle rfl (by simp) (by simp), rfl⟩
  have r₂ := r₁.tail ⟨(), .loadHead _ false rfl, careful_of (.loadHead false) rfl (by simp) (by simp), rfl⟩
  have r₃ := r₂.tail ⟨(), .pushCasOk _ false rfl rfl, careful_of (.pushCas false) rfl (by simp) (by simp), rfl⟩
  have r₄ := r₃.tail ⟨(), .push _ 2 true rfl (fun h => by rcases h with h | h <;> cases h),
    careful_of .idle rfl (by simp) (by simp), rfl⟩
  have r₅ := r₄.tail ⟨(), .loadHead _ true rfl, careful_of (.loadHead true) rfl (by simp) (by simp), rfl⟩
  have r₆ := r₅.tail ⟨(), .pushCasOk _ true rfl rfl, careful_of (.pushCas true) rfl (by simp) (by simp), rfl⟩
  have r₇ := r₆.tail ⟨(), .pop _ rfl, careful_of .idle rfl (by simp) (by simp), rfl⟩
  have r₈ := r₇.tail ⟨(), .popRead _ true rfl, careful_of (.popRead true) rfl (by simp) (by simp), rfl⟩
  have r₉ := r₈.tail ⟨(), .popCasOk _ true (some false) rfl rfl, hcare _ _ rfl rfl, rfl⟩
  obtain ⟨l, -, hl, -⟩ := lifo h₀ r₉
  exact ⟨_, _, l, r₉, rfl, hl⟩

end Wizard.HazptrStack
