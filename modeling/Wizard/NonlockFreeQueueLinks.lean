import Wizard.Segment
import Wizard.NonlockFreeQueue

/-! How the nodes are linked while no data CAS succeeds on a node that tail has
left. Addresses may be used again once nothing refers to them. -/

namespace Wizard.NonlockFreeQueue

variable {T Tid : Type} {s t : State T Tid} {p p' : Pc T} {i j : Tid} {a b n : Nat}

/-- Between the data CAS and the exchange. -/
def Pc.linking : Pc T → Bool
  | .pushNext _ _ => true
  | .pushExchange _ _ => true
  | _ => false

/-- The external counter that the thread has still to give up. -/
def Pc.owed : Pc T → Option CountedNodePtr
  | .popData old _ => some old
  | .freeLoad old _ => some old
  | .freeCas old _ _ => some old
  | _ => none

def After.saw : After T → Option Bool
  | .empty drained => some drained
  | _ => none

/-- What a pop that will return empty saw. -/
def Pc.saw : Pc T → Option Bool
  | .freeLoad _ k => k.saw
  | .freeCas _ _ k => k.saw
  | .releaseLoad _ k => k.saw
  | .releaseCas _ _ k => k.saw
  | _ => none

/-- The place of the pop in the order of the head CAS, while its value is not taken. -/
def Pc.turn : Pc T → Option Nat
  | .popData _ turn => some turn
  | _ => none

/-- New nodes have one owner each, who alone refers to them, and one thread at a
time links a node. -/
structure Apart (pc : Tid → Pc T) : Prop where
  once : ∀ i j n, (pc i).newNode = some n → (pc j).newNode = some n → i = j
  apart : ∀ i j n, (pc i).newNode = some n → (pc j).held ≠ some n
  linking : ∀ i j, (pc i).linking = true → (pc j).linking = true → i = j

theorem Apart.update [DecidableEq Tid] {pc : Tid → Pc T} (h : Apart pc)
    (hnew : ∀ n, p.newNode = some n → (pc i).newNode = some n ∨
      ∀ j, (pc j).newNode ≠ some n ∧ (pc j).held ≠ some n)
    (hheld : ∀ n, p.held = some n → (pc i).held = some n ∨ p.newNode ≠ some n ∧ ∀ j, (pc j).newNode ≠ some n)
    (hlink : p.linking = true → (pc i).linking = true ∨ ∀ j, (pc j).linking = false) :
    Apart (Function.update pc i p) := by
  have hself : Function.update pc i p i = p := Function.update_self ..
  have hother : ∀ j, j ≠ i → Function.update pc i p j = pc j := fun j hj => Function.update_of_ne hj ..
  refine ⟨fun j k n hj hk => ?_, fun j k n hj hk => ?_, fun j k hj hk => ?_⟩
  · by_cases hji : j = i <;> by_cases hki : k = i
    · rw [hji, hki]
    · rw [hji, hself] at hj
      rw [hother k hki] at hk
      obtain hh | hh := hnew n hj
      · rw [hji]
        exact h.once i k n hh hk
      · exact absurd hk (hh k).1
    · rw [hki, hself] at hk
      rw [hother j hji] at hj
      obtain hh | hh := hnew n hk
      · rw [hki]
        exact h.once j i n hj hh
      · exact absurd hj (hh j).1
    · rw [hother j hji] at hj
      rw [hother k hki] at hk
      exact h.once j k n hj hk
  · by_cases hji : j = i <;> by_cases hki : k = i
    · rw [hji, hself] at hj
      rw [hki, hself] at hk
      obtain hh | hh := hheld n hk
      · obtain hn | hn := hnew n hj
        · exact h.apart i i n hn hh
        · exact (hn i).2 hh
      · exact hh.1 hj
    · rw [hji, hself] at hj
      rw [hother k hki] at hk
      obtain hn | hn := hnew n hj
      · exact h.apart i k n hn hk
      · exact (hn k).2 hk
    · rw [hki, hself] at hk
      rw [hother j hji] at hj
      obtain hh | hh := hheld n hk
      · exact h.apart j i n hj hh
      · exact hh.2 j hj
    · rw [hother j hji] at hj
      rw [hother k hki] at hk
      exact h.apart j k n hj hk
  · by_cases hji : j = i <;> by_cases hki : k = i
    · rw [hji, hki]
    · rw [hji, hself] at hj
      rw [hother k hki] at hk
      obtain hh | hh := hlink hj
      · rw [hji]
        exact h.linking i k hh hk
      · rw [hh k] at hk
        cases hk
    · rw [hki, hself] at hk
      rw [hother j hji] at hj
      obtain hh | hh := hlink hk
      · rw [hki]
        exact h.linking j i hj hh
      · rw [hh j] at hj
        cases hj
    · rw [hother j hji] at hj
      rw [hother k hki] at hk
      exact h.linking j k hj hk

namespace State

/-- Head has not left the node, and it is linked. -/
def Listed (s : State T Tid) (a : Nat) : Prop := a ∈ s.front ∨ s.tail.ptr = some a

/-- The queue or a thread refers to the node. -/
def InUse (s : State T Tid) (a : Nat) : Prop :=
  s.Listed a ∨ (∃ i, (s.pc i).newNode = some a) ∨ ∃ i, (s.pc i).held = some a

/-- What the place of a thread says about the nodes. -/
def Stands (s : State T Tid) : Pc T → Prop
  | .pushExchange n old => ∀ a, old.ptr = some a → (s.node a).next = .first n
  | .popTail old => ∀ a, old.ptr = some a → s.Listed a → s.head.ptr = some a
  | .popHead old => ∀ a, old.ptr = some a → s.Listed a → s.head.ptr = some a ∧ s.tail.ptr ≠ some a
  | .popData old _ => ∀ a, old.ptr = some a → ¬ s.Listed a
  | _ => True

/-- The nodes from head to tail. -/
structure Chain (s : State T Tid) : Prop where
  segment : Segment (fun a => (s.node a).next.ptr) s.head.ptr s.front s.tail.ptr
  counts : ∀ a ∈ s.front, (s.node a).next.externalCount = 1
  nodup : s.front.Nodup
  tail : ∃ a, s.tail.ptr = some a ∧ a ∉ s.front

/-- What an access can do, and the node that it allocates. -/
inductive Effect [DecidableEq Tid] (s : State T Tid) (i : Tid) : Option Nat → State T Tid → Prop
  | move (p : Pc T) (hnew : p.newNode = (s.pc i).newNode) (hheld : p.held = (s.pc i).held)
      (howed : p.owed = (s.pc i).owed) (hsaw : p.saw = (s.pc i).saw) (hturn : p.turn = (s.pc i).turn)
      (hlink : p.linking = false) (hstands : s.Stands (s.pc i) → s.Stands p) : Effect s i none (s.go i p)
  | look (old : CountedNodePtr) (a : Nat) (hi : s.pc i = .popTail old) (ha : old.ptr = some a)
      (hat : s.tail.ptr = some a) : Effect s i none (s.go i (.releaseLoad a (.empty s.drained)))
  | push (v : T) (n : Nat) (hi : s.pc i = .idle) : Effect s i (some n) { s with
      node := Function.update s.node n .make
      made := bump s.made (some n)
      pc := Function.update s.pc i (.pushLoad v n) }
  | increaseTail (v : T) (n : Nat) (hi : s.pc i = .pushIncrease v n s.tail) :
      Effect s i none ({ s with tail := s.tail.increase }.go i (.pushData v n s.tail.increase))
  | increaseHead (hi : s.pc i = .popIncrease s.head) :
      Effect s i none ({ s with head := s.head.increase }.go i (.popTail s.head.increase))
  | fill (v : T) (n : Nat) (old : CountedNodePtr) (a : Nat) (hi : s.pc i = .pushData v n old)
      (ha : old.ptr = some a) (hdata : (s.node a).data = none) : Effect s i none ({ s with
        node := Function.update s.node a { s.node a with data := some v }
        pushed := s.pushed ++ [v] }.go i (.pushNext n old))
  | writeNext (n : Nat) (old : CountedNodePtr) (a : Nat) (hi : s.pc i = .pushNext n old) (ha : old.ptr = some a) :
      Effect s i none ({ s with
        node := Function.update s.node a { s.node a with next := .first n } }.go i (.pushExchange n old))
  | exchange (n : Nat) (old : CountedNodePtr) (hi : s.pc i = .pushExchange n old) : Effect s i none ({ s with
        tail := .first n
        tailLeft := bump s.tailLeft s.tail.ptr
        front := s.front ++ s.tail.ptr.toList
        exchanged := s.exchanged + 1 }.go i (.freeLoad s.tail .done))
  | takeHead (a : Nat) (hi : s.pc i = .popHead s.head) (ha : s.head.ptr = some a) : Effect s i none ({ s with
        head := (s.node a).next
        headLeft := bump s.headLeft s.head.ptr
        front := s.front.tail
        popped := s.popped ++ [none] }.go i (.popData s.head s.popped.length))
  | takeData (old : CountedNodePtr) (turn a : Nat) (hi : s.pc i = .popData old turn) (ha : old.ptr = some a) :
      Effect s i none ({ s with
        node := Function.update s.node a { s.node a with data := none }
        popped := s.popped.set turn (some (s.node a).data) }.go i (.freeLoad old .done))
  | free (old : CountedNodePtr) (a : Nat) (k : After T) (hi : s.pc i = .freeCas old (s.node a).count k)
      (ha : old.ptr = some a) : Effect s i none ((s.setCount a ((s.node a).count.free old)).go i k.pc)
  | release (a : Nat) (k : After T) (hi : s.pc i = .releaseCas a (s.node a).count k) :
      Effect s i none ((s.setCount a (s.node a).count.release).go i k.pc)

section Effects

variable [DecidableEq Tid]

theorem goes {q : Pc T} (hi : s.pc i = q) (p : Pc T) (hnew : p.newNode = q.newNode) (hheld : p.held = q.held)
    (howed : p.owed = q.owed) (hsaw : p.saw = q.saw) (hturn : p.turn = q.turn) (hlink : p.linking = false)
    (hstands : s.Stands q → s.Stands p) : s.Effect i none (s.go i p) := by
  subst hi
  exact .move p hnew hheld howed hsaw hturn hlink hstands

theorem push_effect {v : T} (h : s.push i v n = some t) : s.Effect i (some n) t := by
  rw [State.push] at h
  split at h
  · cases h
    exact .push v n (by assumption)
  · cases h

theorem pop_effect (h : s.pop i = some t) : s.Effect i none t := by
  rw [State.pop] at h
  split at h
  case h_1 hi =>
    cases h
    exact goes hi _ rfl rfl rfl rfl rfl rfl (fun _ => trivial)
  case h_2 => cases h

theorem next_effect (h : s.next i = some t) : s.Effect i none t := by
  rw [State.next] at h
  cases hi : s.pc i with
  | idle => simp [hi] at h
  | pushLoad v n =>
    simp only [hi, Option.some.injEq] at h
    subst h
    exact goes hi _ rfl rfl rfl rfl rfl rfl (fun _ => trivial)
  | pushIncrease v n old =>
    simp only [hi] at h
    split at h
    case isTrue hat =>
      subst hat
      cases h
      exact .increaseTail v n hi
    case isFalse =>
      cases h
      exact goes hi _ rfl rfl rfl rfl rfl rfl (fun _ => trivial)
  | pushData v n old =>
    simp only [hi, Option.map_eq_some_iff] at h
    obtain ⟨a, ha, h⟩ := h
    split at h
    case isTrue hdata =>
      subst h
      exact .fill v n old a hi ha (Option.isNone_iff_eq_none.1 hdata)
    case isFalse =>
      subst h
      exact goes hi _ rfl ha.symm rfl rfl rfl rfl (fun _ => trivial)
  | pushNext n old =>
    simp only [hi, Option.map_eq_some_iff] at h
    obtain ⟨a, ha, h⟩ := h
    subst h
    exact .writeNext n old a hi ha
  | pushExchange n old =>
    simp only [hi, Option.some.injEq] at h
    subst h
    exact .exchange n old hi
  | popLoad =>
    simp only [hi, Option.some.injEq] at h
    subst h
    exact goes hi _ rfl rfl rfl rfl rfl rfl (fun _ => trivial)
  | popIncrease old =>
    simp only [hi] at h
    split at h
    case isTrue hat =>
      subst hat
      cases h
      exact .increaseHead hi
    case isFalse =>
      cases h
      exact goes hi _ rfl rfl rfl rfl rfl rfl (fun _ => trivial)
  | popTail old =>
    simp only [hi] at h
    split at h
    case isTrue hat =>
      rw [Option.map_eq_some_iff] at h
      obtain ⟨a, ha, h⟩ := h
      subst h
      exact .look old a hi ha (hat.symm.trans ha)
    case isFalse hat =>
      cases h
      refine goes hi _ rfl rfl rfl rfl rfl rfl (fun hst => ?_)
      exact fun a ha hl => ⟨hst a ha hl, fun he => hat (ha.trans he.symm)⟩
  | popHead old =>
    simp only [hi, Option.map_eq_some_iff] at h
    obtain ⟨a, ha, h⟩ := h
    split at h
    case isTrue hat =>
      subst hat
      subst h
      exact .takeHead a hi ha
    case isFalse =>
      subst h
      exact goes hi _ rfl ha.symm rfl rfl rfl rfl (fun _ => trivial)
  | popData old turn =>
    simp only [hi, Option.map_eq_some_iff] at h
    obtain ⟨a, ha, h⟩ := h
    subst h
    exact .takeData old turn a hi ha
  | freeLoad old k =>
    simp only [hi, Option.map_eq_some_iff] at h
    obtain ⟨a, ha, h⟩ := h
    subst h
    exact goes hi _ rfl rfl rfl rfl rfl rfl (fun _ => trivial)
  | freeCas old c k =>
    simp only [hi, Option.map_eq_some_iff] at h
    obtain ⟨a, ha, h⟩ := h
    split at h
    case isTrue hc =>
      subst hc
      subst h
      exact .free old a k hi ha
    case isFalse =>
      subst h
      exact goes hi _ rfl rfl rfl rfl rfl rfl (fun _ => trivial)
  | releaseLoad a k =>
    simp only [hi, Option.some.injEq] at h
    subst h
    exact goes hi _ rfl rfl rfl rfl rfl rfl (fun _ => trivial)
  | releaseCas a c k =>
    simp only [hi] at h
    split at h
    case isTrue hc =>
      subst hc
      cases h
      exact .release a k hi
    case isFalse =>
      cases h
      exact goes hi _ rfl rfl rfl rfl rfl rfl (fun _ => trivial)

theorem act_effect {x : Action T} (h : s.act i x = some t) : s.Effect i x.node t := by
  cases x with
  | push v n => exact push_effect h
  | pop => exact pop_effect h
  | next => exact next_effect h

end Effects

structure Linked (s : State T Tid) : Prop where
  chain : s.Chain
  threads : Apart s.pc
  fresh : ∀ i n, (s.pc i).newNode = some n → (s.node n).data = none ∧ ¬ s.Listed n
  filled : ∀ i, (s.pc i).linking = true → (s.pc i).held = s.tail.ptr ∧
    ∀ a, s.tail.ptr = some a → (s.node a).data ≠ none
  stands : ∀ i, s.Stands (s.pc i)

/-- What a thread at `q` relies on is the same in `t`. -/
structure Kept (s t : State T Tid) (q : Pc T) : Prop where
  fresh : ∀ n, q.newNode = some n → (t.node n).data = (s.node n).data ∧ (t.Listed n → s.Listed n)
  filled : q.linking = true → t.tail.ptr = s.tail.ptr ∧
    ∀ a, s.tail.ptr = some a → (t.node a).data = (s.node a).data
  next : q.linking = true → ∀ a, q.held = some a → (t.node a).next = (s.node a).next
  listed : ∀ a, q.held = some a → t.Listed a → s.Listed a ∧ (s.head.ptr = some a → t.head.ptr = some a) ∧
    (s.tail.ptr ≠ some a → t.tail.ptr ≠ some a)

theorem Kept.stands {q : Pc T} (h : s.Kept t q) (hs : s.Stands q) : t.Stands q := by
  cases q with
  | pushExchange n old =>
    intro a ha
    rw [h.next rfl a ha]
    exact hs a ha
  | popTail old =>
    intro a ha hl
    obtain ⟨hl', hhead, -⟩ := h.listed a ha hl
    exact hhead (hs a ha hl')
  | popHead old =>
    intro a ha hl
    obtain ⟨hl', hhead, htail⟩ := h.listed a ha hl
    exact ⟨hhead (hs a ha hl').1, htail (hs a ha hl').2⟩
  | popData old k =>
    intro a ha hl
    exact hs a ha (h.listed a ha hl).1
  | _ => trivial

theorem Chain.head_listed (h : s.Chain) (ha : s.head.ptr = some a) : s.Listed a := by
  have hs := h.segment
  cases hf : s.front with
  | nil =>
    rw [hf] at hs
    exact .inr (hs.symm.trans ha)
  | cons b l =>
    rw [hf] at hs
    have hab : a = b := Option.some.inj (ha.symm.trans hs.1)
    exact .inl (by rw [hf, hab]; exact List.mem_cons_self)

theorem Chain.congr (h : s.Chain) (hhead : t.head.ptr = s.head.ptr) (htail : t.tail.ptr = s.tail.ptr)
    (hfront : t.front = s.front) (hnext : ∀ a ∈ s.front, (t.node a).next = (s.node a).next) : t.Chain := by
  refine ⟨?_, ?_, hfront ▸ h.nodup, ?_⟩
  · rw [hhead, htail, hfront]
    exact h.segment.congr (fun a ha => by rw [hnext a ha])
  · intro a ha
    rw [hfront] at ha
    rw [hnext a ha]
    exact h.counts a ha
  · rw [htail, hfront]
    exact h.tail

theorem listed_congr (htail : t.tail.ptr = s.tail.ptr) (hfront : t.front = s.front) : t.Listed a ↔ s.Listed a := by
  rw [Listed, Listed, hfront, htail]

namespace Linked

theorem unlisted (h : s.Linked) (ha : s.Listed a) (j : Tid) : (s.pc j).newNode ≠ some a :=
  fun hj => (h.fresh j a hj).2 ha

theorem frame [DecidableEq Tid] (h : s.Linked) (hpc : t.pc = Function.update s.pc i p) (hchain : t.Chain)
    (hthreads : Apart (Function.update s.pc i p))
    (hfresh : ∀ n, p.newNode = some n → (t.node n).data = none ∧ ¬ t.Listed n)
    (hfilled : p.linking = true → p.held = t.tail.ptr ∧ ∀ a, t.tail.ptr = some a → (t.node a).data ≠ none)
    (hstands : t.Stands p) (hkept : ∀ j, j ≠ i → s.Kept t (s.pc j)) : t.Linked := by
  have hself : t.pc i = p := by rw [hpc, Function.update_self]
  have hother : ∀ j, j ≠ i → t.pc j = s.pc j := fun j hj => by rw [hpc, Function.update_of_ne hj]
  refine ⟨hchain, hpc ▸ hthreads, ?_, ?_, ?_⟩
  · intro j n hj
    by_cases hji : j = i
    · rw [hji, hself] at hj
      exact hfresh n hj
    · rw [hother j hji] at hj
      obtain ⟨hdata, hlisted⟩ := (hkept j hji).fresh n hj
      obtain ⟨hnone, hun⟩ := h.fresh j n hj
      exact ⟨hdata.trans hnone, fun hl => hun (hlisted hl)⟩
  · intro j hj
    by_cases hji : j = i
    · rw [hji, hself] at hj ⊢
      exact hfilled hj
    · rw [hother j hji] at hj ⊢
      obtain ⟨htail, hdata⟩ := (hkept j hji).filled hj
      obtain ⟨hheld, hsome⟩ := h.filled j hj
      rw [htail]
      exact ⟨hheld, fun a ha => by rw [hdata a ha]; exact hsome a ha⟩
  · intro j
    by_cases hji : j = i
    · rw [hji, hself]
      exact hstands
    · rw [hother j hji]
      exact (hkept j hji).stands (h.stands j)

variable [DecidableEq Tid]

theorem move (h : s.Linked) (hpc : t.pc = Function.update s.pc i p) (hhead : t.head.ptr = s.head.ptr)
    (htail : t.tail.ptr = s.tail.ptr) (hfront : t.front = s.front)
    (hnode : ∀ a, (t.node a).data = (s.node a).data ∧ (t.node a).next = (s.node a).next)
    (hnew : ∀ n, p.newNode = some n → (s.pc i).newNode = some n)
    (hheld : ∀ a, p.held = some a → (s.pc i).held = some a ∨ s.Listed a) (hlink : p.linking = false)
    (hstands : s.Stands p) : t.Linked := by
  have hlisted : ∀ a, t.Listed a ↔ s.Listed a := fun a => listed_congr htail hfront
  have hkept : ∀ q, s.Kept t q := fun q =>
    ⟨fun n _ => ⟨(hnode n).1, (hlisted n).1⟩, fun _ => ⟨htail, fun a _ => (hnode a).1⟩, fun _ a _ => (hnode a).2,
      fun a _ hl => ⟨(hlisted a).1 hl, fun hh => hhead.trans hh, fun hh => htail ▸ hh⟩⟩
  refine h.frame hpc (h.chain.congr hhead htail hfront (fun a _ => (hnode a).2)) ?_ (fun n hn => ?_) (fun hl => ?_)
    ((hkept p).stands hstands) (fun j _ => hkept _)
  · refine h.threads.update (fun n hn => .inl (hnew n hn)) (fun n hn => ?_) (fun hl => ?_)
    · obtain hh | hh := hheld n hn
      · exact .inl hh
      · exact .inr ⟨fun hp => h.unlisted hh i (hnew n hp), h.unlisted hh⟩
    · rw [hlink] at hl
      cases hl
  · rw [(hnode n).1, hlisted]
    exact h.fresh i n (hnew n hn)
  · rw [hlink] at hl
    cases hl

theorem push {v : T} (h : s.Linked) (hn : ¬ s.InUse n)
    (hpc : t.pc = Function.update s.pc i (.pushLoad v n)) (hhead : t.head = s.head) (htail : t.tail = s.tail)
    (hfront : t.front = s.front) (hnode : t.node = Function.update s.node n .make) : t.Linked := by
  have hlisted : ∀ a, t.Listed a ↔ s.Listed a := fun a => listed_congr (by rw [htail]) hfront
  have hne : ∀ a, s.InUse a → t.node a = s.node a := by
    intro a ha
    have hne : a ≠ n := fun he => hn (he ▸ ha)
    rw [hnode, Function.update_of_ne hne]
  have hun : ¬ s.Listed n := fun hl => hn (.inl hl)
  refine h.frame hpc (h.chain.congr (by rw [hhead]) (by rw [htail]) hfront (fun a ha => ?_)) ?_ (fun m hm => ?_)
    (fun hl => ?_) trivial (fun j _ => ⟨fun m hm => ?_, fun _ => ?_, fun _ a ha => ?_, fun a _ hl => ?_⟩)
  · rw [hne a (.inl (.inl ha))]
  · refine h.threads.update (fun m hm => .inr (fun j => ?_)) (fun m hm => ?_) (fun hl => ?_)
    · cases hm
      exact ⟨fun hj => hn (.inr (.inl ⟨j, hj⟩)), fun hj => hn (.inr (.inr ⟨j, hj⟩))⟩
    · cases hm
    · cases hl
  · cases hm
    rw [hlisted, hnode, Function.update_self]
    exact ⟨rfl, hun⟩
  · cases hl
  · rw [hne m (.inr (.inl ⟨j, hm⟩))]
    exact ⟨rfl, (hlisted m).1⟩
  · refine ⟨by rw [htail], fun a ha => ?_⟩
    rw [hne a (.inl (.inr ha))]
  · rw [hne a (.inr (.inr ⟨j, ha⟩))]
  · exact ⟨(hlisted a).1 hl, fun hh => by rwa [hhead], fun hh => by rwa [htail]⟩

/-- The data CAS succeeds where tail is. -/
theorem fill {v : T} {old : CountedNodePtr} (h : s.Linked) (hi : s.pc i = .pushData v n old)
    (ha : old.ptr = some a) (hat : s.tail.ptr = some a) (hdata : (s.node a).data = none)
    (hpc : t.pc = Function.update s.pc i (.pushNext n old)) (hhead : t.head = s.head) (htail : t.tail = s.tail)
    (hfront : t.front = s.front) (hnode : t.node = Function.update s.node a { s.node a with data := some v }) :
    t.Linked := by
  have hlisted : ∀ b, t.Listed b ↔ s.Listed b := fun b => listed_congr (by rw [htail]) hfront
  have hnone : ∀ j, (s.pc j).linking = false := by
    intro j
    by_contra hj
    exact (h.filled j (by simpa using hj)).2 a hat hdata
  have hnext : ∀ b, (t.node b).next = (s.node b).next := by
    intro b
    by_cases hb : b = a
    · rw [hnode, hb, Function.update_self]
    · rw [hnode, Function.update_of_ne hb]
  have hnew : ∀ j m, (s.pc j).newNode = some m → t.node m = s.node m := by
    intro j m hm
    have hma : m ≠ a := fun he => h.unlisted (.inr (he ▸ hat)) j hm
    rw [hnode, Function.update_of_ne hma]
  have hself : (s.pc i).newNode = some n := by rw [hi]; rfl
  refine h.frame hpc (h.chain.congr (by rw [hhead]) (by rw [htail]) hfront (fun b _ => hnext b)) ?_ (fun m hm => ?_)
    (fun _ => ⟨ha.trans (by rw [htail, hat]), fun b hb => ?_⟩) trivial
    (fun j _ => ⟨fun m hm => ?_, fun hl => ?_, fun _ b _ => hnext b, fun b _ hl => ?_⟩)
  · exact h.threads.update (fun m hm => .inl (hi ▸ hm)) (fun m hm => .inl (hi ▸ hm)) (fun _ => .inr hnone)
  · cases hm
    rw [hnew i n hself, hlisted]
    exact h.fresh i n hself
  · have hba : b = a := Option.some.inj (hb.symm.trans (by rw [htail, hat]))
    rw [hba, hnode, Function.update_self]
    exact Option.some_ne_none v
  · rw [hnew j m hm]
    exact ⟨rfl, (hlisted m).1⟩
  · rw [hnone j] at hl
    cases hl
  · exact ⟨(hlisted b).1 hl, fun hh => by rwa [hhead], fun hh => by rwa [htail]⟩

theorem writeNext {old : CountedNodePtr} (h : s.Linked) (hi : s.pc i = .pushNext n old) (ha : old.ptr = some a)
    (hpc : t.pc = Function.update s.pc i (.pushExchange n old)) (hhead : t.head = s.head) (htail : t.tail = s.tail)
    (hfront : t.front = s.front) (hnode : t.node = Function.update s.node a { s.node a with next := .first n }) :
    t.Linked := by
  have hlisted : ∀ b, t.Listed b ↔ s.Listed b := fun b => listed_congr (by rw [htail]) hfront
  have hlink : (s.pc i).linking = true := by rw [hi]; rfl
  obtain ⟨hheld, hfilled⟩ := h.filled i hlink
  have hat : s.tail.ptr = some a := by rw [← hheld, hi]; exact ha
  have hdata : ∀ b, (t.node b).data = (s.node b).data := by
    intro b
    by_cases hb : b = a
    · rw [hnode, hb, Function.update_self]
    · rw [hnode, Function.update_of_ne hb]
  have hnext : ∀ b, b ≠ a → (t.node b).next = (s.node b).next := by
    intro b hb
    rw [hnode, Function.update_of_ne hb]
  obtain ⟨z, hz, hout⟩ := h.chain.tail
  have hza : z = a := Option.some.inj (hz.symm.trans hat)
  subst hza
  refine h.frame hpc (h.chain.congr (by rw [hhead]) (by rw [htail]) hfront
    (fun b hb => hnext b (ne_of_mem_of_not_mem hb hout))) ?_ (fun m hm => ?_)
    (fun _ => ⟨ha.trans (by rw [htail, hat]), fun b hb => ?_⟩) ?_
    (fun j hj => ⟨fun m _ => ⟨hdata m, (hlisted m).1⟩, fun _ => ⟨by rw [htail], fun b _ => hdata b⟩,
      fun hl => absurd (h.threads.linking j i hl hlink) hj, fun b _ hl => ?_⟩)
  · exact h.threads.update (fun m hm => .inl (hi ▸ hm)) (fun m hm => .inl (hi ▸ hm)) (fun _ => .inl hlink)
  · cases hm
    rw [hdata, hlisted]
    exact h.fresh i n (by rw [hi]; rfl)
  · rw [hdata]
    exact hfilled b (by rwa [htail] at hb)
  · intro b hb
    have hba : b = z := Option.some.inj (hb.symm.trans ha)
    rw [hba, hnode, Function.update_self]
  · exact ⟨(hlisted b).1 hl, fun hh => by rwa [hhead], fun hh => by rwa [htail]⟩

theorem exchange {old : CountedNodePtr} (h : s.Linked) (hi : s.pc i = .pushExchange n old)
    (hpc : t.pc = Function.update s.pc i (.freeLoad s.tail .done)) (hhead : t.head = s.head) (htail : t.tail = .first n)
    (hfront : t.front = s.front ++ s.tail.ptr.toList) (hnode : t.node = s.node) : t.Linked := by
  have hlink : (s.pc i).linking = true := by rw [hi]; rfl
  have hnew : (s.pc i).newNode = some n := by rw [hi]; rfl
  obtain ⟨a, hat, hout⟩ := h.chain.tail
  have hold : old.ptr = some a := by
    have hheld := (h.filled i hlink).1
    rw [hi, hat] at hheld
    exact hheld
  have hnext : (s.node a).next = .first n := by
    have hst := h.stands i
    rw [hi] at hst
    exact hst a hold
  have hn : ¬ s.Listed n := (h.fresh i n hnew).2
  have hfront' : t.front = s.front ++ [a] := by rw [hfront, hat]; rfl
  have hlisted : ∀ b, t.Listed b ↔ s.Listed b ∨ b = n := by
    intro b
    rw [Listed, Listed, hfront', htail, hat, List.mem_append, List.mem_singleton]
    simp only [CountedNodePtr.first, Option.some.injEq]
    grind
  have hchain : t.Chain := by
    refine ⟨?_, fun b hb => ?_, ?_, n, by rw [htail]; rfl, ?_⟩
    · rw [hhead, htail, hfront', hnode]
      refine h.chain.segment.append ⟨hat, ?_⟩
      dsimp only
      rw [hnext]
      rfl
    · rw [hfront', List.mem_append, List.mem_singleton] at hb
      rw [hnode]
      obtain hb | hb := hb
      · exact h.chain.counts b hb
      · rw [hb, hnext]
        rfl
    · rw [hfront', List.nodup_append]
      refine ⟨h.chain.nodup, List.nodup_singleton a, fun b hb c hc he => ?_⟩
      rw [List.mem_singleton] at hc
      exact hout (hc ▸ he ▸ hb)
    · rw [hfront', List.mem_append, List.mem_singleton]
      rintro (hb | hb)
      · exact hn (.inl hb)
      · exact hn (.inr (hb ▸ hat))
  refine h.frame hpc hchain ?_ (fun m hm => ?_) (fun hl => ?_) trivial
    (fun j hj => ⟨fun m hm => ⟨by rw [hnode], fun hl => ?_⟩, fun hl => absurd (h.threads.linking j i hl hlink) hj,
      fun hl => absurd (h.threads.linking j i hl hlink) hj, fun b hb hl => ?_⟩)
  · refine h.threads.update (fun m hm => ?_) (fun m hm => .inl ?_) (fun hl => ?_)
    · cases hm
    · rw [hi]
      exact hold.trans (hat.symm.trans hm)
    · cases hl
  · cases hm
  · cases hl
  · obtain hl | hl := (hlisted m).1 hl
    · exact hl
    · exact absurd (h.threads.once j i m hm (hl ▸ hnew)) hj
  · have hbn : b ≠ n := fun he => h.threads.apart i j n hnew (he ▸ hb)
    refine ⟨((hlisted b).1 hl).resolve_right hbn, fun hh => by rwa [hhead], fun _ he => ?_⟩
    rw [htail] at he
    exact hbn (Option.some.inj he).symm

theorem takeHead {old : CountedNodePtr} {k : Nat} (h : s.Linked) (hi : s.pc i = .popHead old) (ha : old.ptr = some a)
    (hat : s.head = old) (hpc : t.pc = Function.update s.pc i (.popData old k)) (hhead : t.head = (s.node a).next)
    (htail : t.tail = s.tail) (hfront : t.front = s.front.tail) (hnode : t.node = s.node) :
    s.front = a :: t.front ∧ t.Linked := by
  have hha : s.head.ptr = some a := by rw [hat, ha]
  have hne : s.tail.ptr ≠ some a := by
    have hst := h.stands i
    rw [hi] at hst
    exact (hst a ha (h.chain.head_listed hha)).2
  have hcons : s.front = a :: t.front := by
    have hs := h.chain.segment
    cases hf : s.front with
    | nil =>
      rw [hf] at hs
      exact absurd (hs.symm.trans hha) hne
    | cons b l =>
      rw [hf] at hs
      have hba : a = b := Option.some.inj (hha.symm.trans hs.1)
      rw [hfront, hf, hba]
      rfl
  have hnd := h.chain.nodup
  rw [hcons, List.nodup_cons] at hnd
  have hlisted : ∀ b, t.Listed b → s.Listed b ∧ b ≠ a := by
    intro b hb
    obtain hb | hb := hb
    · exact ⟨.inl (by rw [hcons]; exact List.mem_cons_of_mem a hb), ne_of_mem_of_not_mem hb hnd.1⟩
    · rw [htail] at hb
      exact ⟨.inr hb, fun he => hne (he ▸ hb)⟩
  have hchain : t.Chain := by
    have hs := h.chain.segment
    rw [hcons] at hs
    refine ⟨?_, fun b hb => ?_, hnd.2, ?_⟩
    · rw [hhead, htail, hnode]
      exact hs.2
    · rw [hnode]
      exact h.chain.counts b (by rw [hcons]; exact List.mem_cons_of_mem a hb)
    · obtain ⟨z, hz, hout⟩ := h.chain.tail
      exact ⟨z, htail ▸ hz, fun hm => hout (by rw [hcons]; exact List.mem_cons_of_mem a hm)⟩
  refine ⟨hcons, h.frame hpc hchain ?_ (fun m hm => ?_) (fun hl => ?_) (fun b hb hl => ?_)
    (fun j hj => ⟨fun m _ => ⟨by rw [hnode], fun hl => (hlisted m hl).1⟩,
      fun _ => ⟨by rw [htail], fun b _ => by rw [hnode]⟩,
      fun _ b _ => by rw [hnode], fun b hb hl => ?_⟩)⟩
  · refine h.threads.update (fun m hm => ?_) (fun m hm => .inl (hi ▸ hm)) (fun hl => ?_)
    · cases hm
    · cases hl
  · cases hm
  · cases hl
  · exact (hlisted b hl).2 (Option.some.inj (hb.symm.trans ha))
  · obtain ⟨hl', hba⟩ := hlisted b hl
    refine ⟨hl', fun hh => absurd (Option.some.inj (hh.symm.trans hha)) hba, fun hh => by rwa [htail]⟩

theorem takeData {old : CountedNodePtr} {k : Nat} (h : s.Linked) (hi : s.pc i = .popData old k) (ha : old.ptr = some a)
    (hpc : t.pc = Function.update s.pc i (.freeLoad old .done)) (hhead : t.head = s.head) (htail : t.tail = s.tail)
    (hfront : t.front = s.front) (hnode : t.node = Function.update s.node a { s.node a with data := none }) :
    t.Linked := by
  have hlisted : ∀ b, t.Listed b ↔ s.Listed b := fun b => listed_congr (by rw [htail]) hfront
  have hout : ¬ s.Listed a := by
    have hst := h.stands i
    rw [hi] at hst
    exact hst a ha
  have hnext : ∀ b, (t.node b).next = (s.node b).next := by
    intro b
    by_cases hb : b = a
    · rw [hnode, hb, Function.update_self]
    · rw [hnode, Function.update_of_ne hb]
  have hdata : ∀ b, b ≠ a → (t.node b).data = (s.node b).data := by
    intro b hb
    rw [hnode, Function.update_of_ne hb]
  refine h.frame hpc (h.chain.congr (by rw [hhead]) (by rw [htail]) hfront (fun b _ => hnext b)) ?_ (fun m hm => ?_)
    (fun hl => ?_) trivial (fun j _ => ⟨fun m hm => ⟨hdata m ?_, (hlisted m).1⟩,
      fun _ => ⟨by rw [htail], fun b hb => hdata b ?_⟩,
      fun _ b _ => hnext b, fun b _ hl => ?_⟩)
  · refine h.threads.update (fun m hm => ?_) (fun m hm => .inl (hi ▸ hm)) (fun hl => ?_)
    · cases hm
    · cases hl
  · cases hm
  · cases hl
  · intro he
    refine h.threads.apart j i m hm ?_
    rw [hi, he]
    exact ha
  · exact fun he => hout (.inr (he ▸ hb))
  · exact ⟨(hlisted b).1 hl, fun hh => by rwa [hhead], fun hh => by rwa [htail]⟩

omit [DecidableEq Tid] in
theorem make (dummy : Nat) : (make dummy : State T Tid).Linked where
  chain := ⟨rfl, fun a ha => absurd ha List.not_mem_nil, List.nodup_nil, dummy, rfl, List.not_mem_nil⟩
  threads := by
    constructor
    · intro i j n hi
      cases hi
    · intro i j n hi
      cases hi
    · intro i j hi
      cases hi
  fresh i n hi := by cases hi
  filled i hi := by cases hi
  stands _ := trivial

omit [DecidableEq Tid] in
theorem setCount_node (s : State T Tid) (a b : Nat) (c : NodeCounter) :
    ((s.setCount a c).node b).data = (s.node b).data ∧ ((s.setCount a c).node b).next = (s.node b).next := by
  rw [setCount]
  by_cases hb : b = a
  · subst hb
    simp
  · simp [hb]

theorem counted {k : After T} {c : NodeCounter} (h : s.Linked) (hnew : (s.pc i).newNode = k.newNode) :
    ((s.setCount a c).go i k.pc).Linked :=
  h.move rfl rfl rfl rfl (fun b => setCount_node s a b c)
    (fun n hn => by rw [hnew]; cases k <;> exact hn) (fun b hb => by cases k <;> cases hb)
    (by cases k <;> rfl) (by cases k <;> trivial)

omit [DecidableEq Tid] in
theorem fill_tail {v : T} {old : CountedNodePtr} (hold : s.stale i = false) (hi : s.pc i = .pushData v n old)
    (ha : old.ptr = some a) (hdata : (s.node a).data = none) : s.tail.ptr = some a := by
  by_contra hat
  simp [stale, hi, ha, hdata, hat] at hold

/-- Every access keeps the links. -/
theorem effect {o : Option Nat} (h : s.Linked) (he : s.Effect i o t) (hold : s.stale i = false)
    (hnew : ∀ n, o = some n → ¬ s.InUse n) : t.Linked := by
  cases he with
  | move p hn hh _ _ _ hlink hst =>
    exact h.move rfl rfl rfl rfl (fun _ => ⟨rfl, rfl⟩) (fun n hp => hn ▸ hp) (fun a ha => .inl (hh ▸ ha)) hlink
      (hst (h.stands i))
  | look old a hi ha hat =>
    exact h.move rfl rfl rfl rfl (fun _ => ⟨rfl, rfl⟩) (fun n hp => by cases hp)
      (fun b hb => .inl (by rw [hi]; exact ha.trans hb)) rfl trivial
  | push v n hi => exact h.push (hnew n rfl) rfl rfl rfl rfl rfl
  | increaseTail v n hi =>
    exact h.move rfl rfl rfl rfl (fun _ => ⟨rfl, rfl⟩) (fun m hm => by rw [hi]; exact hm) (fun a ha => .inr (.inr ha))
      rfl trivial
  | increaseHead hi =>
    exact h.move rfl rfl rfl rfl (fun _ => ⟨rfl, rfl⟩) (fun m hm => by cases hm)
      (fun a ha => .inr (h.chain.head_listed ha))
      rfl (fun a ha _ => ha)
  | fill v n old a hi ha hdata =>
    exact h.fill hi ha (fill_tail hold hi ha hdata) hdata rfl rfl rfl rfl rfl
  | writeNext n old a hi ha => exact h.writeNext hi ha rfl rfl rfl rfl rfl
  | exchange n old hi => exact h.exchange hi rfl rfl rfl rfl rfl
  | takeHead a hi ha =>
    exact And.right (h.takeHead (k := s.popped.length) hi ha rfl rfl rfl rfl rfl rfl)
  | takeData old turn a hi ha => exact h.takeData hi ha rfl rfl rfl rfl rfl
  | free old a k hi ha => exact h.counted (by rw [hi]; rfl)
  | release a k hi => exact h.counted (by rw [hi]; rfl)

theorem uses (ha : t.InUse a) (hpc : t.pc = Function.update s.pc i p) {P : Prop} (hlisted : t.Listed a → s.InUse a)
    (hnew : p.newNode = some a → s.InUse a ∨ P) (hheld : p.held = some a → s.InUse a) : s.InUse a ∨ P := by
  obtain ha | ⟨j, hj⟩ | ⟨j, hj⟩ := ha
  · exact .inl (hlisted ha)
  · by_cases hji : j = i
    · rw [hji, hpc, Function.update_self] at hj
      exact hnew hj
    · rw [hpc, Function.update_of_ne hji] at hj
      exact .inl (.inr (.inl ⟨j, hj⟩))
  · by_cases hji : j = i
    · rw [hji, hpc, Function.update_self] at hj
      exact .inl (hheld hj)
    · rw [hpc, Function.update_of_ne hji] at hj
      exact .inl (.inr (.inr ⟨j, hj⟩))

theorem inUse {o : Option Nat} (h : s.Linked) (he : s.Effect i o t) (ha : t.InUse a) : s.InUse a ∨ o = some a := by
  cases he with
  | move p hn hh _ _ _ _ _ =>
    exact uses (s := s) ha rfl (fun hl => .inl hl) (fun hp => .inl (.inr (.inl ⟨i, hn ▸ hp⟩)))
      (fun hp => .inr (.inr ⟨i, hh ▸ hp⟩))
  | look old b hi hb hat =>
    refine uses (s := s) ha rfl (fun hl => .inl hl) (fun hp => by cases hp) (fun hp => ?_)
    exact .inr (.inr ⟨i, by rw [hi]; exact hb.trans hp⟩)
  | push v n hi => exact uses (s := s) ha rfl (fun hl => .inl hl) (fun hp => .inr hp) (fun hp => by cases hp)
  | increaseTail v n hi =>
    refine uses (s := s) ha rfl (fun hl => .inl hl) (fun hp => .inl (.inr (.inl ⟨i, ?_⟩))) (fun hp => .inl (.inr hp))
    rw [hi]
    exact hp
  | increaseHead hi =>
    exact uses (s := s) ha rfl (fun hl => .inl hl) (fun hp => by cases hp) (fun hp => .inl (h.chain.head_listed hp))
  | fill v n old b hi hb hdata =>
    exact uses (s := s) ha rfl (fun hl => .inl hl) (fun hp => .inl (.inr (.inl ⟨i, by rw [hi]; exact hp⟩)))
      (fun hp => .inr (.inr ⟨i, by rw [hi]; exact hp⟩))
  | writeNext n old b hi hb =>
    exact uses (s := s) ha rfl (fun hl => .inl hl) (fun hp => .inl (.inr (.inl ⟨i, by rw [hi]; exact hp⟩)))
      (fun hp => .inr (.inr ⟨i, by rw [hi]; exact hp⟩))
  | exchange n old hi =>
    refine uses (s := s) ha rfl (fun hl => ?_) (fun hp => by cases hp) (fun hp => .inl (.inr hp))
    obtain hl | hl := hl
    · obtain hl | hl := List.mem_append.1 hl
      · exact .inl (.inl hl)
      · exact .inl (.inr (Option.mem_toList.1 hl))
    · exact .inr (.inl ⟨i, by rw [hi]; exact hl⟩)
  | takeHead b hi hb =>
    refine uses (s := s) ha rfl (fun hl => ?_) (fun hp => by cases hp) (fun hp => .inl (h.chain.head_listed hp))
    obtain hl | hl := hl
    · exact .inl (.inl (List.mem_of_mem_tail hl))
    · exact .inl (.inr hl)
  | takeData old turn b hi hb =>
    exact uses (s := s) ha rfl (fun hl => .inl hl) (fun hp => by cases hp)
      (fun hp => .inr (.inr ⟨i, by rw [hi]; exact hp⟩))
  | free old b k hi hb =>
    refine uses (s := s) ha rfl (fun hl => .inl hl) (fun hp => .inl (.inr (.inl ⟨i, ?_⟩))) (fun hp => ?_)
    · rw [hi]
      cases k <;> exact hp
    · cases k <;> cases hp
  | release b k hi =>
    refine uses (s := s) ha rfl (fun hl => .inl hl) (fun hp => .inl (.inr (.inl ⟨i, ?_⟩))) (fun hp => ?_)
    · rw [hi]
      cases k <;> exact hp
    · cases k <;> cases hp

theorem made_effect {o : Option Nat} (he : s.Effect i o t) (b : Nat) :
    t.made b = s.made b + hit o b := by
  cases he with
  | push v n hi => rfl
  | _ => simp [go, setCount]

end Linked

end State

end Wizard.NonlockFreeQueue
