import Mathlib.Tactic
import Wizard.Places
import Wizard.Runs
import Wizard.Segment

/-! The queue with one producer and one consumer. The node that the tail points to is a
dummy: the producer fills it, links a new dummy after it and moves the tail. -/

namespace Wizard.SpscQueue

structure Node (T : Type*) where
  data : Option T
  next : Option Nat

/-- Where `push` stands. -/
inductive ProducerPc (T : Type*)
  | idle
  | swap (v : T) (oldTail : Nat)
  | alloc (v : T) (oldTail : Nat)
  | link (v : T) (oldTail dummy : Nat)
  | store (v : T) (dummy : Nat)

/-- Where `pop` stands, with the pointer `old_head`. -/
inductive ConsumerPc (T : Type*)
  | idle
  | compare (oldHead : Option Nat)
  | next (oldHead : Option Nat)
  | store (oldHead : Nat) (next : Option Nat)
  | data (oldHead : Nat)
  | delete (oldHead : Nat) (res : Option T)

/-- Nodes are numbered as they are made. `pushed` are the values whose `push` has stored
the tail, `popped` the results of the calls of `pop` that have found a node. -/
structure State (T : Type*) where
  node : Nat → Node T
  made : Nat
  head : Option Nat
  tail : Nat
  producer : ProducerPc T
  consumer : ConsumerPc T
  pushed : List T
  popped : List (Option T)
  deleted : List Nat

variable {T : Type*}

structure Init (s : State T) : Prop where
  made : s.made = 1
  head : s.head = some 0
  tail : s.tail = 0
  producer : s.producer = .idle
  consumer : s.consumer = .idle
  pushed : s.pushed = []
  popped : s.popped = []
  deleted : s.deleted = []

def State.setData (s : State T) (a : Nat) (v : Option T) : State T :=
  { s with node := Function.update s.node a { s.node a with data := v } }

def State.setNext (s : State T) (a : Nat) (p : Option Nat) : State T :=
  { s with node := Function.update s.node a { s.node a with next := p } }

inductive ProducerStep : State T → State T → Prop
  | loadTail (s v) (hp : s.producer = .idle) : ProducerStep s { s with producer := .swap v s.tail }
  | swap (s v t) (hp : s.producer = .swap v t) : ProducerStep s { s.setData t (some v) with producer := .alloc v t }
  | alloc (s v t) (hp : s.producer = .alloc v t) :
      ProducerStep s { s with
        node := Function.update s.node s.made ⟨none, none⟩
        made := s.made + 1
        producer := .link v t s.made }
  | link (s v t d) (hp : s.producer = .link v t d) : ProducerStep s { s.setNext t (some d) with producer := .store v d }
  | store (s v d) (hp : s.producer = .store v d) :
      ProducerStep s { s with tail := d, pushed := s.pushed ++ [v], producer := .idle }

inductive ConsumerStep : State T → State T → Prop
  | loadHead (s) (hc : s.consumer = .idle) : ConsumerStep s { s with consumer := .compare s.head }
  | loadTail (s h) (hc : s.consumer = .compare h) :
      ConsumerStep s { s with consumer := if h = some s.tail then .idle else .next h }
  | readNext (s a) (hc : s.consumer = .next (some a)) : ConsumerStep s { s with consumer := .store a (s.node a).next }
  | storeHead (s a p) (hc : s.consumer = .store a p) : ConsumerStep s { s with head := p, consumer := .data a }
  | readData (s a) (hc : s.consumer = .data a) : ConsumerStep s { s with consumer := .delete a (s.node a).data }
  | delete (s a v) (hc : s.consumer = .delete a v) :
      ConsumerStep s { s with popped := s.popped ++ [v], deleted := a :: s.deleted, consumer := .idle }

def Step (s s' : State T) : Prop := ProducerStep s s' ∨ ConsumerStep s s'

/-- The pointers that `pop` goes through in its next step. -/
def ConsumerPc.Uses (p : Option Nat) : ConsumerPc T → Prop
  | .next h => p = h
  | .data a | .delete a _ => p = some a
  | _ => False

/-- The node that `push` still has to write. -/
def ProducerPc.Writes (a : Nat) : ProducerPc T → Prop
  | .swap _ t | .alloc _ t | .link _ t _ => a = t
  | _ => False

/-- The node that `pop` has taken out and not deleted yet. -/
def ConsumerPc.taken? : ConsumerPc T → Option Nat
  | .data a | .delete a _ => some a
  | _ => none

/-- The dummy that `push` has made and not shown yet. -/
def ProducerPc.fresh? : ProducerPc T → Option Nat
  | .link _ _ d | .store _ d => some d
  | _ => none

inductive Place
  | chain
  | taken
  | fresh
  | deleted

/-- Where a node is when `l` are the nodes from the head up to the tail. -/
def At (s : State T) (l : List Nat) (a : Nat) : Place → Prop
  | .chain => a ∈ l ∨ a = s.tail
  | .taken => s.consumer.taken? = some a
  | .fresh => s.producer.fresh? = some a
  | .deleted => a ∈ s.deleted

/-- The value that `pop` is about to return. -/
def ConsumerPc.held (node : Nat → Node T) : ConsumerPc T → List (Option T)
  | .data a => [(node a).data]
  | .delete _ v => [v]
  | _ => []

/-- What the producer has done to the dummy at the tail. -/
def ProducerPc.Ok (s : State T) : ProducerPc T → Prop
  | .idle => True
  | .swap _ t => t = s.tail
  | .alloc v t | .link v t _ => t = s.tail ∧ (s.node t).data = some v
  | .store v d => (s.node s.tail).data = some v ∧ (s.node s.tail).next = some d

def ConsumerPc.Ok (s : State T) (l : List Nat) : ConsumerPc T → Prop
  | .idle | .data _ => True
  | .compare h => h = s.head
  | .next h => ∃ a rest, h = some a ∧ l = a :: rest
  | .store a p => ∃ rest, l = a :: rest ∧ p = (s.node a).next
  | .delete a v => v = (s.node a).data

/-- `l` are the filled nodes, from the head up to the tail. -/
structure Inv (s : State T) (l : List Nat) : Prop where
  chain : Segment (fun a => (s.node a).next) s.head l (some s.tail)
  place : OnePlace (fun a => a < s.made) (At s l)
  nodup : l.Nodup
  tail : s.tail ∉ l
  once : s.deleted.Nodup
  values : s.popped ++ s.consumer.held s.node ++ l.map (fun a => (s.node a).data) = s.pushed.map some
  count : s.popped.length = s.deleted.length
  producer : s.producer.Ok s
  consumer : s.consumer.Ok s l

variable {s s' : State T} {l : List Nat}

/-- A queue that looks empty is empty. -/
theorem Inv.eq_nil (h : Inv s l) (ht : s.head = some s.tail) : l = [] := by
  cases l with
  | nil => rfl
  | cons a rest =>
    obtain ⟨ha, -⟩ := h.chain
    rw [ht] at ha
    cases ha
    exact absurd List.mem_cons_self h.tail

theorem Inv.eq_cons (h : Inv s l) (ht : s.head ≠ some s.tail) : ∃ a rest, s.head = some a ∧ l = a :: rest := by
  cases l with
  | nil => exact absurd h.chain ht
  | cons a rest => exact ⟨a, rest, h.chain.1, rfl⟩

/-- The producer writes nothing that the consumer reads. -/
theorem Inv.write (h : Inv s l) {node : Nat → Node T} {made : Nat} {pc : ProducerPc T}
    (hplace : OnePlace (fun a => a < made) (At { s with node := node, made := made, producer := pc } l))
    (hnode : ∀ a < s.made, a ≠ s.tail → node a = s.node a)
    (hok : pc.Ok { s with node := node, made := made, producer := pc }) :
    Inv { s with node := node, made := made, producer := pc } l := by
  have hlist : ∀ a ∈ l, node a = s.node a := fun a ha =>
    hnode a (h.place.mem a .chain (.inl ha)) (ne_of_mem_of_not_mem ha h.tail)
  have htaken : ∀ a, s.consumer.taken? = some a → node a = s.node a := by
    intro a ha
    apply hnode a (h.place.mem a .taken ha)
    rintro rfl
    cases h.place.unique s.tail .taken .chain ha (.inr rfl)
  have hheld : s.consumer.held node = s.consumer.held s.node := by
    cases hc : s.consumer with
    | data a =>
      rw [hc] at htaken
      simp only [ConsumerPc.held, htaken a rfl]
    | _ => rfl
  constructor
  · exact h.chain.congr fun a ha => congrArg Node.next (hlist a ha)
  · exact hplace
  · exact h.nodup
  · exact h.tail
  · exact h.once
  · have hmap : l.map (fun a => (node a).data) = l.map (fun a => (s.node a).data) :=
      List.map_congr_left fun a ha => congrArg Node.data (hlist a ha)
    have hvalues := h.values
    rw [← hheld, ← hmap] at hvalues
    exact hvalues
  · exact h.count
  · exact hok
  · have hconsumer := h.consumer
    change s.consumer.Ok { s with node := node, made := made, producer := pc } l
    cases hc : s.consumer with
    | store a p =>
      rw [hc] at hconsumer
      obtain ⟨rest, hl, hp⟩ := hconsumer
      refine ⟨rest, hl, ?_⟩
      rw [hp]
      exact (congrArg Node.next (hlist a (by rw [hl]; exact List.mem_cons_self))).symm
    | delete a v =>
      rw [hc] at hconsumer htaken
      rw [ConsumerPc.Ok] at hconsumer ⊢
      rw [hconsumer]
      exact (congrArg Node.data (htaken a rfl)).symm
    | _ =>
      rw [hc] at hconsumer
      exact hconsumer

theorem Inv.place_congr (h : Inv s l) {node : Nat → Node T} {pc : ProducerPc T}
    (hfresh : pc.fresh? = s.producer.fresh?) :
    OnePlace (fun a => a < s.made) (At { s with node := node, producer := pc } l) := by
  apply h.place.congr
  intro a pl
  cases pl with
  | fresh => simp only [At, hfresh]
  | _ => rfl

theorem Inv.produce (h : Inv s l) (hs : ProducerStep s s') : ∃ l', Inv s' l' := by
  have hproducer := h.producer
  cases hs with
  | loadTail v hp =>
    refine ⟨l, h.write (h.place_congr ?_) (fun a _ _ => rfl) rfl⟩
    rw [hp]
    rfl
  | swap v t hp =>
    rw [hp] at hproducer
    obtain rfl : t = s.tail := hproducer
    refine ⟨l, h.write (h.place_congr ?_) (fun a _ ha => Function.update_of_ne ha _ _) ⟨rfl, ?_⟩⟩
    · rw [hp]
      rfl
    · simp [State.setData]
  | alloc v t hp =>
    rw [hp] at hproducer
    obtain ⟨rfl, hdata⟩ := hproducer
    have htail : s.tail < s.made := h.place.mem s.tail .chain (.inr rfl)
    have hlt : ∀ a pl, At s l a pl → a ≠ s.made := fun a pl ha => (h.place.mem a pl ha).ne
    refine ⟨l, h.write ?_ (fun a ha _ => Function.update_of_ne ha.ne _ _) ⟨rfl, ?_⟩⟩
    · apply h.place.insert s.made .fresh
      · intro a
        rw [Nat.lt_succ_iff_lt_or_eq, or_comm]
      · intro pl
        cases pl with
        | fresh => simp [At, ProducerPc.fresh?]
        | chain => exact ⟨fun ha => absurd rfl (hlt _ .chain ha), nofun⟩
        | taken => exact ⟨fun ha => absurd rfl (hlt _ .taken ha), nofun⟩
        | deleted => exact ⟨fun ha => absurd rfl (hlt _ .deleted ha), nofun⟩
      · intro a pl ha
        cases pl with
        | fresh => simpa [At, ProducerPc.fresh?, hp] using ha.symm
        | _ => rfl
    · rw [← hdata]
      exact congrArg Node.data (Function.update_of_ne htail.ne _ _)
  | link v t d hp =>
    rw [hp] at hproducer
    obtain ⟨rfl, hdata⟩ := hproducer
    refine ⟨l, h.write (h.place_congr ?_) (fun a _ ha => Function.update_of_ne ha _ _) ⟨?_, ?_⟩⟩
    · rw [hp]
      rfl
    · simpa [State.setNext] using hdata
    · simp [State.setNext]
  | store v d hp =>
    rw [hp] at hproducer
    obtain ⟨hdata, hnext⟩ := hproducer
    have hd : At s l d .fresh := by
      rw [At, hp]
      rfl
    have hdl : d ∉ l := by
      intro hm
      cases h.place.unique d .chain .fresh (.inl hm) hd
    have hdt : d ≠ s.tail := by
      intro he
      cases h.place.unique d .chain .fresh (.inr he) hd
    refine ⟨l ++ [s.tail], ?_⟩
    constructor
    · refine h.chain.append ⟨rfl, ?_⟩
      exact hnext
    · apply h.place.move .chain hd
      · intro pl
        cases pl with
        | chain => simp [At]
        | taken =>
          refine ⟨fun ht => ?_, nofun⟩
          cases h.place.unique d .taken .fresh ht hd
        | fresh => exact ⟨nofun, nofun⟩
        | deleted =>
          refine ⟨fun ht => ?_, nofun⟩
          cases h.place.unique d .deleted .fresh ht hd
      · intro a pl ha
        cases pl with
        | chain => simp [At, ha]
        | fresh => simpa [At, ProducerPc.fresh?, hp] using ha.symm
        | _ => rfl
    · rw [List.nodup_append]
      refine ⟨h.nodup, List.nodup_singleton _, fun a ha b hb => ?_⟩
      rw [List.mem_singleton.1 hb]
      exact ne_of_mem_of_not_mem ha h.tail
    · simpa using ⟨hdl, hdt⟩
    · exact h.once
    · have hvalues := h.values
      change s.popped ++ s.consumer.held s.node ++ (l ++ [s.tail]).map (fun a => (s.node a).data) =
        (s.pushed ++ [v]).map some
      rw [List.map_append, List.map_append, ← hvalues, List.map_singleton, List.map_singleton, hdata]
      simp
    · exact h.count
    · trivial
    · have hconsumer := h.consumer
      change s.consumer.Ok { s with tail := d, pushed := s.pushed ++ [v], producer := .idle } (l ++ [s.tail])
      cases hc : s.consumer with
      | next p =>
        rw [hc] at hconsumer
        obtain ⟨a, rest, hp', hl⟩ := hconsumer
        exact ⟨a, rest ++ [s.tail], hp', by rw [hl]; rfl⟩
      | store a p =>
        rw [hc] at hconsumer
        obtain ⟨rest, hl, hp'⟩ := hconsumer
        exact ⟨rest ++ [s.tail], by rw [hl]; rfl, hp'⟩
      | _ =>
        rw [hc] at hconsumer
        exact hconsumer

theorem Inv.goOn (h : Inv s l) {pc : ConsumerPc T} (ht : pc.taken? = s.consumer.taken?)
    (hh : pc.held s.node = s.consumer.held s.node) (hok : pc.Ok s l) : Inv { s with consumer := pc } l := by
  refine ⟨h.chain, ?_, h.nodup, h.tail, h.once, ?_, h.count, h.producer, ?_⟩
  · apply h.place.congr
    intro a pl
    cases pl with
    | taken => simp only [At, ht]
    | _ => rfl
  · have hvalues := h.values
    rw [← hh] at hvalues
    exact hvalues
  · cases pc <;> exact hok

theorem Inv.consume (h : Inv s l) (hs : ConsumerStep s s') : ∃ l', Inv s' l' := by
  have hconsumer := h.consumer
  cases hs with
  | loadHead hc =>
    refine ⟨l, h.goOn ?_ ?_ rfl⟩
    · rw [hc]
      rfl
    · rw [hc]
      rfl
  | loadTail p hc =>
    rw [hc] at hconsumer
    have hp : p = s.head := hconsumer
    by_cases he : p = some s.tail
    · rw [if_pos he]
      refine ⟨l, h.goOn ?_ ?_ trivial⟩
      · rw [hc]
        rfl
      · rw [hc]
        rfl
    · rw [if_neg he]
      obtain ⟨a, rest, ha, hl⟩ := h.eq_cons (hp ▸ he)
      refine ⟨l, h.goOn ?_ ?_ ⟨a, rest, hp.trans ha, hl⟩⟩
      · rw [hc]
        rfl
      · rw [hc]
        rfl
  | readNext a hc =>
    rw [hc] at hconsumer
    obtain ⟨b, rest, hb, hl⟩ := hconsumer
    cases hb
    refine ⟨l, h.goOn ?_ ?_ ⟨rest, hl, rfl⟩⟩
    · rw [hc]
      rfl
    · rw [hc]
      rfl
  | storeHead a p hc =>
    rw [hc] at hconsumer
    obtain ⟨rest, rfl, rfl⟩ := hconsumer
    have ha : At s (a :: rest) a .chain := .inl List.mem_cons_self
    obtain ⟨hnotin, hnodup⟩ := List.nodup_cons.1 h.nodup
    have htail : a ≠ s.tail := fun he => h.tail (he ▸ List.mem_cons_self)
    refine ⟨rest, ?_, ?_, hnodup, fun hm => h.tail (List.mem_cons_of_mem a hm), h.once, ?_, h.count,
      h.producer, trivial⟩
    · exact h.chain.2
    · apply h.place.move .taken ha
      · intro pl
        cases pl with
        | taken => simp [At, ConsumerPc.taken?]
        | chain =>
          refine ⟨fun hm => ?_, nofun⟩
          exact (hm.elim hnotin htail).elim
        | fresh =>
          refine ⟨fun hm => ?_, nofun⟩
          cases h.place.unique a .fresh .chain hm ha
        | deleted =>
          refine ⟨fun hm => ?_, nofun⟩
          cases h.place.unique a .deleted .chain hm ha
      · intro b pl hb
        cases pl with
        | taken => simpa [At, ConsumerPc.taken?, hc] using hb.symm
        | chain => simp [At, hb]
        | _ => rfl
    · have hvalues := h.values
      have hheld : s.consumer.held s.node = [] := by
        rw [hc]
        rfl
      rw [hheld, List.append_nil, List.map_cons] at hvalues
      change s.popped ++ [(s.node a).data] ++ rest.map (fun b => (s.node b).data) = s.pushed.map some
      rw [← hvalues, List.append_assoc, List.singleton_append]
  | readData a hc =>
    refine ⟨l, h.goOn ?_ ?_ rfl⟩
    · rw [hc]
      rfl
    · rw [hc]
      rfl
  | delete a v hc =>
    rw [hc] at hconsumer
    have hv : v = (s.node a).data := hconsumer
    have ha : At s l a .taken := by
      rw [At, hc]
      rfl
    refine ⟨l, h.chain, ?_, h.nodup, h.tail, ?_, ?_, ?_, h.producer, trivial⟩
    · apply h.place.move .deleted ha
      · intro pl
        cases pl with
        | deleted => simp [At]
        | taken => exact ⟨nofun, nofun⟩
        | chain =>
          refine ⟨fun hm => ?_, nofun⟩
          cases h.place.unique a .chain .taken hm ha
        | fresh =>
          refine ⟨fun hm => ?_, nofun⟩
          cases h.place.unique a .fresh .taken hm ha
      · intro b pl hb
        cases pl with
        | taken => simpa [At, ConsumerPc.taken?, hc] using hb.symm
        | deleted => simp [At, hb]
        | _ => rfl
    · refine List.nodup_cons.2 ⟨fun hm => ?_, h.once⟩
      cases h.place.unique a .deleted .taken hm ha
    · have hvalues := h.values
      rw [hc, ConsumerPc.held] at hvalues
      change s.popped ++ [v] ++ [] ++ l.map (fun b => (s.node b).data) = s.pushed.map some
      rw [List.append_nil, hvalues]
    · change (s.popped ++ [v]).length = s.deleted.length + 1
      rw [List.length_append, h.count, List.length_singleton]

theorem Init.inv (h : Init s) : Inv s [] := by
  obtain ⟨hmade, hhead, htail, hp, hc, hpushed, hpopped, hdeleted⟩ := h
  constructor
  · rw [hhead, htail]
    rfl
  · have hchain : ∀ a pl, At s [] a pl → pl = .chain := by
      intro a pl ha
      cases pl with
      | chain => rfl
      | taken =>
        rw [At, hc] at ha
        cases ha
      | fresh =>
        rw [At, hp] at ha
        cases ha
      | deleted =>
        rw [At, hdeleted] at ha
        cases ha
    constructor
    · intro a pl ha
      cases hchain a pl ha
      rw [hmade]
      rcases ha with ha | ha
      · cases ha
      · rw [ha, htail]
        exact Nat.one_pos
    · intro a ha
      rw [hmade] at ha
      refine ⟨.chain, .inr ?_⟩
      omega
    · intro a pl pl' ha ha'
      rw [hchain a pl ha, hchain a pl' ha']
  · exact List.nodup_nil
  · exact List.not_mem_nil
  · rw [hdeleted]
    exact List.nodup_nil
  · rw [hc, hpopped, hpushed]
    rfl
  · rw [hpopped, hdeleted]
    rfl
  · rw [hp]
    trivial
  · rw [hc]
    trivial

theorem inv_of_reachable (h : Reachable Init Step s) : ∃ l, Inv s l := by
  apply h.invariant
  · intro s hi
    exact ⟨[], hi.inv⟩
  · rintro s s' - ⟨l, hl⟩ (hs | hs)
    · exact hl.produce hs
    · exact hl.consume hs

/-- The consumer uses nodes that are there and that the producer is done with. -/
theorem Inv.uses (h : Inv s l) {p : Option Nat} (hp : s.consumer.Uses p) :
    ∃ a, p = some a ∧ a ∉ s.deleted ∧ a ≠ s.tail ∧ ¬ s.producer.Writes a := by
  have hconsumer := h.consumer
  obtain ⟨a, rfl, hdel, htail⟩ : ∃ a, p = some a ∧ a ∉ s.deleted ∧ a ≠ s.tail := by
    have htaken : ∀ a, s.consumer.taken? = some a → a ∉ s.deleted ∧ a ≠ s.tail := by
      intro a ha
      constructor
      · intro hm
        cases h.place.unique a .deleted .taken hm ha
      · intro he
        cases h.place.unique a .chain .taken (.inr he) ha
    cases hc : s.consumer with
    | next q =>
      rw [hc] at hp hconsumer
      obtain ⟨a, rest, hq, hl⟩ := hconsumer
      have ha : At s l a .chain := .inl (by rw [hl]; exact List.mem_cons_self)
      refine ⟨a, hp.trans hq, ?_, ?_⟩
      · intro hm
        cases h.place.unique a .deleted .chain hm ha
      · rintro rfl
        exact h.tail (by rw [hl]; exact List.mem_cons_self)
    | data a =>
      rw [hc] at hp htaken
      exact ⟨a, hp, htaken a rfl⟩
    | delete a v =>
      rw [hc] at hp htaken
      exact ⟨a, hp, htaken a rfl⟩
    | _ =>
      rw [hc] at hp
      exact hp.elim
  refine ⟨a, rfl, hdel, htail, fun hw => ?_⟩
  have hproducer := h.producer
  cases hpc : s.producer with
  | swap v t =>
    rw [hpc] at hw hproducer
    exact htail (hw.trans hproducer)
  | alloc v t =>
    rw [hpc] at hw hproducer
    exact htail (hw.trans hproducer.1)
  | link v t d =>
    rw [hpc] at hw hproducer
    exact htail (hw.trans hproducer.1)
  | _ =>
    rw [hpc] at hw
    exact hw.elim

/-- First in, first out; nodes are deleted once, and not while somebody needs them; and
what looks empty is empty. -/
theorem values_in_order (h : Reachable Init Step s) :
    s.popped <+: s.pushed.map some ∧
    (∃ l, OnePlace (fun a => a < s.made) (At s l) ∧ Segment (fun a => (s.node a).next) s.head l (some s.tail)) ∧
    s.deleted.Nodup ∧ s.popped.length = s.deleted.length ∧
    (∀ p, s.consumer.Uses p → ∃ a, p = some a ∧ a ∉ s.deleted ∧ a ≠ s.tail ∧ ¬ s.producer.Writes a) ∧
    (s.consumer = .compare (some s.tail) → s.popped = s.pushed.map some) := by
  obtain ⟨l, hl⟩ := inv_of_reachable h
  refine ⟨?_, ⟨l, hl.place, hl.chain⟩, hl.once, hl.count, fun p => hl.uses, fun hc => ?_⟩
  · rw [← hl.values, List.append_assoc]
    exact List.prefix_append _ _
  · have hconsumer := hl.consumer
    have hvalues := hl.values
    rw [hc] at hconsumer hvalues
    have hnil := hl.eq_nil (Eq.symm hconsumer)
    rw [hnil] at hvalues
    simpa [ConsumerPc.held] using hvalues

/-- The first value is popped while the second is pushed. The second is popped after that. -/
theorem exists_popped_two : ∃ s : State Nat, Reachable Init Step s ∧ s.pushed = [7, 8] ∧ s.popped = [some 7, some 8] ∧
    s.deleted = [1, 0] := by
  have h₀ : Reachable Init Step (⟨fun _ => ⟨none, none⟩, 1, some 0, 0, .idle, .idle, [], [], []⟩ : State Nat) :=
    .of_init ⟨rfl, rfl, rfl, rfl, rfl, rfl, rfl, rfl⟩
  have h₁ := ((h₀.tail (.inl (.loadTail _ 7 rfl))).tail (.inl (.swap _ 7 0 rfl))).tail (.inl (.alloc _ 7 0 rfl))
  have h₂ := (h₁.tail (.inl (.link _ 7 0 1 rfl))).tail (.inl (.store _ 7 1 rfl))
  have h₃ := (h₂.tail (.inl (.loadTail _ 8 rfl))).tail (.inr (.loadHead _ rfl))
  have h₄ := (h₃.tail (.inl (.swap _ 8 1 rfl))).tail (.inr (.loadTail _ (some 0) rfl))
  have h₅ := (h₄.tail (.inr (.readNext _ 0 rfl))).tail (.inl (.alloc _ 8 1 rfl))
  have h₆ := (h₅.tail (.inr (.storeHead _ 0 (some 1) rfl))).tail (.inl (.link _ 8 1 2 rfl))
  have h₇ := (h₆.tail (.inr (.readData _ 0 rfl))).tail (.inl (.store _ 8 2 rfl))
  have h₈ := (h₇.tail (.inr (.delete _ 0 (some 7) rfl))).tail (.inr (.loadHead _ rfl))
  have h₉ := (h₈.tail (.inr (.loadTail _ (some 1) rfl))).tail (.inr (.readNext _ 1 rfl))
  have h₁₀ := (h₉.tail (.inr (.storeHead _ 1 (some 2) rfl))).tail (.inr (.readData _ 1 rfl))
  exact ⟨_, h₁₀.tail (.inr (.delete _ 1 (some 8) rfl)), rfl, rfl, rfl⟩

theorem values_in_order_two : ∃ s : State Nat, Reachable Init Step s ∧ s.pushed = [7, 8] ∧
    s.popped = [some 7, some 8] ∧ s.popped <+: s.pushed.map some ∧ s.deleted.Nodup := by
  obtain ⟨s, h, hpushed, hpopped, -⟩ := exists_popped_two
  obtain ⟨horder, -, honce, -⟩ := values_in_order h
  exact ⟨s, h, hpushed, hpopped, horder, honce⟩

end Wizard.SpscQueue
