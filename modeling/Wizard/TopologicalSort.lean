import Wizard.OffCycle
import Wizard.RingBuffer

/-! The topological sorts of a graph. The counter `deps` of a node serves both directions; it
is an `int`, and so is the index of the loop. -/

namespace Wizard

/-- The lists of the nodes are written by `add_output` alone. -/
structure Graph (V : Type) [DecidableEq V] where
  deps : V → Int
  inputs : V → List V
  outputs : V → List V
  vertexs : List V
  linked : ∀ u v, (outputs u).count v = (inputs v).count u

namespace Graph

open OffCycle RingBuffer

variable {V : Type} [DecidableEq V]

def empty : Graph V := ⟨fun _ => 0, fun _ => [], fun _ => [], [], fun _ _ => rfl⟩

def addOutput (u v : V) (g : Graph V) : Graph V where
  deps := g.deps
  inputs := Function.update g.inputs v (g.inputs v ++ [u])
  outputs := Function.update g.outputs u (g.outputs u ++ [v])
  vertexs := g.vertexs
  linked := by
    intro a b
    have h := g.linked a b
    by_cases ha : a = u <;> by_cases hb : b = v <;>
      simp_all [List.count_append, eq_comm]

def addVertex (v : V) (g : Graph V) : Graph V := { g with vertexs := g.vertexs ++ [v] }

/-- The counters and the vector `sorted` of a sort. -/
structure State (V : Type) where
  deps : V → Int
  sorted : List V

/-- A node waits for the nodes in `needs`. -/
def State.start (needs : V → List V) (s : State V) (node : V) : State V :=
  let deps := Function.update s.deps node (toInt (needs node).length)
  ⟨deps, if deps node = 0 then s.sorted ++ [node] else s.sorted⟩

/-- `o->deps--` and the check behind it. -/
def State.visit (s : State V) (o : V) : Option (State V) :=
  if s.deps o - 1 < -2 ^ 31 then none else
    let deps := Function.update s.deps o (s.deps o - 1)
    some ⟨deps, if deps o = 0 then s.sorted ++ [o] else s.sorted⟩

def loop (feeds : V → List V) : Nat → Nat → State V → Option (State V)
  | 0, _, _ => none
  | fuel + 1, i, s =>
    match s.sorted[i]? with
    | none => some s
    | some node => if i + 1 < 2 ^ 31 then (feeds node).foldlM State.visit s >>= loop feeds fuel (i + 1) else none

section Model

variable (fuel : Nat) (g : Graph V)

def toplogicalSort (needs feeds : V → List V) : Option (Graph V × List V) := do
  let s ← loop feeds fuel 0 (g.vertexs.foldl (State.start needs) ⟨g.deps, []⟩)
  return ({ g with deps := s.deps }, s.sorted)

def toplogicalSortForward : Option (Graph V × List V) := g.toplogicalSort fuel g.inputs g.outputs

def toplogicalSortBackward : Option (Graph V × List V) := g.toplogicalSort fuel g.outputs g.inputs

inductive Direction where
  | forward
  | backward

def sort : Direction → Option (Graph V × List V)
  | .forward => g.toplogicalSortForward fuel
  | .backward => g.toplogicalSortBackward fuel

def sorts (g : Graph V) : List Direction → Option (List (List V))
  | [] => some []
  | d :: ds => do
    let (g, out) ← g.sort fuel d
    return out :: (← sorts g ds)

end Model

section Spec

variable (g : Graph V)

def needs : Direction → V → List V
  | .forward => g.inputs
  | .backward => g.outputs

def feeds : Direction → V → List V
  | .forward => g.outputs
  | .backward => g.inputs

/-- The edges of the graph, or of the reversed graph. -/
def Edge (d : Direction) (u v : V) : Prop := u ∈ g.needs d v

/-- Each direction has one topological order, whatever sorts come before. -/
def Right : Prop :=
  ∃ out : Direction → List V, (∀ d, Topological (g.Edge d) (out d)) ∧ ∀ ds, ∃ fuel, g.sorts fuel ds = some (ds.map out)

open Classical in
/-- The nodes of `l` to which no cycle leads. -/
noncomputable def free (d : Direction) (l : List V) : List V := l.filter fun v => ¬ Behind (g.Edge d) v

/-- Nodes to which no cycle leads have few edges and are few. The counter of any other node
does not come to zero over the edges from them and does not pass the least `int`. -/
structure Careful (d : Direction) : Prop where
  few : ∀ v, ¬ Behind (g.Edge d) v → (g.needs d v).length < 2 ^ 31
  apart : ∀ v, Behind (g.Edge d) v → (g.free d (g.needs d v)).length < toInt (g.needs d v).length ∨
    toInt (g.needs d v).length < 0 ∧ -2 ^ 31 ≤ toInt (g.needs d v).length - (g.free d (g.needs d v)).length
  short : (g.free d g.vertexs).length < 2 ^ 31

end Spec

section Loop

variable {needs feeds : V → List V} {s t : State V} {seen l : List V} {o v : V} {fuel i : Nat}

/-- What holds after the edges to `seen` were followed. The counter of a listed node ran out
over the edges of the nodes before it. -/
structure Counted (needs feeds : V → List V) (seen : List V) (s : State V) : Prop where
  deps : ∀ v, s.deps v = toInt (needs v).length - seen.count v
  floor : ∀ v, -2 ^ 31 ≤ toInt (needs v).length - seen.count v
  nodup : s.sorted.Nodup
  mem : ∀ v, v ∈ s.sorted ↔ 0 ≤ toInt (needs v).length ∧ toInt (needs v).length ≤ seen.count v
  order : ∀ l v r, s.sorted = l ++ v :: r → toInt (needs v).length ≤ (l.flatMap feeds).count v

theorem foldl_start (needs : V → List V) (vs : List V) (s : State V) :
    vs.foldl (State.start needs) s =
      ⟨fun v => if v ∈ vs then toInt (needs v).length else s.deps v,
        s.sorted ++ vs.filter fun v => toInt (needs v).length = 0⟩ := by
  induction vs generalizing s with
  | nil => simp
  | cons u vs ih =>
    rw [List.foldl_cons, ih]
    congr 1
    · funext v
      by_cases hv : v ∈ vs
      · simp [hv]
      · by_cases hu : v = u <;> simp [State.start, hv, hu]
    · by_cases hu : toInt (needs u).length = 0 <;> simp [State.start, hu]

/-- A sort starts with the nodes that wait for none, whatever their counters were. -/
def initial (needs : V → List V) (vs : List V) : State V :=
  ⟨fun v => toInt (needs v).length, vs.filter fun v => toInt (needs v).length = 0⟩

theorem Counted.initial {vs : List V} (hn : vs.Nodup) (hv : ∀ v, v ∈ vs) :
    Counted needs feeds [] (initial needs vs) := by
  have hmem (v : V) : v ∈ (Graph.initial needs vs).sorted ↔ toInt (needs v).length = 0 := by
    simp [Graph.initial, hv]
  constructor
  · simp [Graph.initial]
  · intro v
    simpa using le_toInt _
  · exact hn.filter _
  · intro v
    rw [hmem, List.count_nil]
    omega
  · intro l v r hl
    have := (hmem v).1 (hl ▸ by simp)
    omega

theorem Counted.visit_eq (h : Counted needs feeds seen s) (o : V) :
    s.visit o = if toInt (needs o).length - (seen.count o + 1) < -2 ^ 31 then none else
      some ⟨Function.update s.deps o (toInt (needs o).length - (seen.count o + 1)),
        if toInt (needs o).length = seen.count o + 1 then s.sorted ++ [o] else s.sorted⟩ := by
  have ho : s.deps o - 1 = toInt (needs o).length - (seen.count o + 1) := by
    rw [h.deps]
    omega
  simp only [State.visit, ho, Function.update_self, Int.sub_eq_zero]

theorem Counted.visit (h : Counted needs feeds seen s) (hseen : seen ++ [o] <+: s.sorted.flatMap feeds)
    (ht : s.visit o = some t) : Counted needs feeds (seen ++ [o]) t ∧ s.sorted <+: t.sorted := by
  have hcount (v : V) : (seen ++ [o]).count v = seen.count v + if v = o then 1 else 0 := by
    rw [List.count_append, List.count_singleton]
    simp only [beq_iff_eq, @eq_comm _ o]
  by_cases hf : toInt (needs o).length - (seen.count o + 1) < -2 ^ 31
  · rw [h.visit_eq, if_pos hf] at ht
    cases ht
  rw [h.visit_eq, if_neg hf, Option.some.injEq] at ht
  subst ht
  have ho := h.mem o
  refine ⟨⟨fun v => ?_, fun v => ?_, ?_, fun v => ?_, ?_⟩, ?_⟩
  · rw [hcount]
    by_cases hv : v = o
    · simp [hv]
    · simpa [hv] using h.deps v
  · have := h.floor v
    rw [hcount]
    split
    · next hv =>
      subst hv
      omega
    · exact this
  · split
    · have : o ∉ s.sorted := by
        rw [ho]
        omega
      exact List.nodup_append.2 ⟨h.nodup, List.nodup_singleton o, by grind⟩
    · exact h.nodup
  · have hv := h.mem v
    rw [hcount]
    by_cases hvo : v = o
    · subst hvo
      split
      · simp only [List.mem_append, List.mem_singleton, or_true, if_true, true_iff]
        omega
      · rw [hv, if_pos rfl]
        omega
    · split <;> simp [hvo, hv]
  · intro l v r hl
    split at hl
    · next hz =>
      rcases r.eq_nil_or_concat with rfl | ⟨r, x, rfl⟩
      · obtain ⟨rfl, hv⟩ := List.append_inj' hl rfl
        obtain rfl := List.singleton_inj.1 hv
        have := hseen.sublist.count_le o
        rw [hcount, if_pos rfl] at this
        omega
      · rw [List.concat_eq_append, ← List.cons_append, ← List.append_assoc] at hl
        exact h.order l v r (List.append_inj' hl rfl).1
    · exact h.order l v r hl
  · split
    · exact List.prefix_append _ _
    · exact List.prefix_rfl

theorem Counted.visits (h : Counted needs feeds seen s) (hseen : seen ++ l <+: s.sorted.flatMap feeds)
    (ht : l.foldlM State.visit s = some t) : Counted needs feeds (seen ++ l) t ∧ s.sorted <+: t.sorted := by
  induction l generalizing seen s with
  | nil =>
    cases ht
    simpa using h
  | cons o l ih =>
    rw [List.foldlM_cons, Option.bind_eq_bind, Option.bind_eq_some_iff] at ht
    obtain ⟨s₁, hs₁, ht⟩ := ht
    rw [List.append_cons] at hseen ⊢
    obtain ⟨h₁, hp⟩ := h.visit ((List.prefix_append _ l).trans hseen) hs₁
    obtain ⟨h₂, hq⟩ := ih h₁ (hseen.trans (hp.flatMap feeds)) ht
    exact ⟨h₂, hp.trans hq⟩

structure At (needs feeds : V → List V) (i : Nat) (s : State V) : Prop where
  counted : Counted needs feeds ((s.sorted.take i).flatMap feeds) s
  le : i ≤ s.sorted.length
  small : i < 2 ^ 31

omit [DecidableEq V] in
/-- The nodes up to the one at `i` are those before it and its own neighbours. -/
theorem flatMap_take (feeds : V → List V) {node : V} (hi : s.sorted[i]? = some node) :
    (s.sorted.take i).flatMap feeds ++ feeds node = (s.sorted.take (i + 1)).flatMap feeds := by
  rw [List.take_add_one, hi]
  simp

theorem At.next {node : V} (h : At needs feeds i s) (hi : s.sorted[i]? = some node) (hs : i + 1 < 2 ^ 31)
    (ht : (feeds node).foldlM State.visit s = some t) : At needs feeds (i + 1) t := by
  have hlt := (List.getElem?_eq_some_iff.1 hi).1
  have hseen := flatMap_take feeds hi
  obtain ⟨hc, r, hr⟩ := h.counted.visits (hseen ▸ (List.take_prefix _ _).flatMap feeds) ht
  refine ⟨?_, ?_, hs⟩
  · rwa [← hr, List.take_append_of_le_length hlt, ← hseen]
  · rw [← hr, List.length_append]
    omega

theorem At.loop (h : At needs feeds i s) (ht : loop feeds fuel i s = some t) :
    Counted needs feeds (t.sorted.flatMap feeds) t ∧ t.sorted.length < 2 ^ 31 := by
  induction fuel generalizing i s with
  | zero => cases ht
  | succ fuel ih =>
    rw [Graph.loop] at ht
    split at ht
    · next hi =>
      obtain rfl := Option.some.inj ht
      have hi := List.getElem?_eq_none_iff.1 hi
      have hc := h.counted
      rw [List.take_of_length_le hi] at hc
      exact ⟨hc, hi.trans_lt h.small⟩
    · next node hi =>
      split at ht
      · next hs =>
        obtain ⟨s₁, hs₁, ht⟩ := Option.bind_eq_some_iff.1 ht
        exact ih (h.next hi hs hs₁) ht
      · cases ht

end Loop

section Order

variable {g : Graph V} {d : Direction} {s t : State V} {seen l : List V} {u v o : V} {fuel i : Nat}

theorem linked_direction (g : Graph V) (d : Direction) (u v : V) :
    (g.feeds d u).count v = (g.needs d v).count u := by
  cases d
  · exact g.linked u v
  · exact (g.linked v u).symm

theorem mem_free : v ∈ g.free d l ↔ v ∈ l ∧ ¬ Behind (g.Edge d) v := by
  simp [free]

theorem free_needs (hv : ¬ Behind (g.Edge d) v) : g.free d (g.needs d v) = g.needs d v :=
  List.filter_eq_self.2 fun u hu => by simpa using fun h : Behind (g.Edge d) u => hv (h.step hu)

theorem count_feeds (hl : l.Nodup) (v : V) :
    (l.flatMap (g.feeds d)).count v = (g.needs d v).countP (· ∈ l) :=
  count_flatMap (g.linked_direction d) hl v

theorem count_le_free (hl : l.Nodup) (hfree : ∀ u ∈ l, ¬ Behind (g.Edge d) u) (v : V) :
    (l.flatMap (g.feeds d)).count v ≤ (g.free d (g.needs d v)).length := by
  rw [count_feeds hl, free, ← List.countP_eq_length_filter]
  exact List.countP_mono_left fun u _ hu => by simpa using hfree u (by simpa using hu)

theorem free_le_count (hl : l.Nodup) (hall : ∀ u, ¬ Behind (g.Edge d) u → u ∈ l) (v : V) :
    (g.free d (g.needs d v)).length ≤ (l.flatMap (g.feeds d)).count v := by
  rw [count_feeds hl, free, ← List.countP_eq_length_filter]
  exact List.countP_mono_left fun u _ hu => by simpa using hall u (by simpa using hu)

theorem Careful.toInt_needs (hc : g.Careful d) (hv : ¬ Behind (g.Edge d) v) :
    toInt (g.needs d v).length = (g.needs d v).length := toInt_of_lt (hc.few v hv)

theorem Careful.not_behind (hc : g.Careful d) (h : 0 ≤ toInt (g.needs d v).length)
    (hle : toInt (g.needs d v).length ≤ (g.free d (g.needs d v)).length) : ¬ Behind (g.Edge d) v := fun hv => by
  rcases hc.apart v hv with h' | h'
  · omega
  · omega

/-- No cycle leads to a node that is listed, by induction along the list. -/
theorem Counted.not_behind (h : Counted (g.needs d) (g.feeds d) seen s) (hc : g.Careful d) :
    ∀ v ∈ s.sorted, ¬ Behind (g.Edge d) v := by
  suffices H : ∀ l, l <+: s.sorted → ∀ v ∈ l, ¬ Behind (g.Edge d) v from H _ List.prefix_rfl
  intro l hl
  induction l using List.reverseRecOn with
  | nil => simp
  | append_singleton l v ih =>
    obtain ⟨r, hr⟩ := hl
    have hlv : l ++ v :: r = s.sorted := by simpa using hr
    have hfree := ih ⟨v :: r, hlv⟩
    have hle := h.order l v r hlv.symm
    have hcount := count_le_free (h.nodup.sublist (hlv ▸ List.sublist_append_left l _)) hfree v
    have hmem := (h.mem v).1 (hlv ▸ by simp)
    intro u hu
    rcases List.mem_append.1 hu with hu | hu
    · exact hfree u hu
    · obtain rfl := List.mem_singleton.1 hu
      exact hc.not_behind hmem.1 (by omega)

/-- The edges that were followed go out of nodes to which no cycle leads. -/
theorem Counted.le_visit (h : Counted (g.needs d) (g.feeds d) seen s) (hc : g.Careful d)
    (hseen : seen ++ [o] <+: s.sorted.flatMap (g.feeds d)) :
    -2 ^ 31 ≤ toInt (g.needs d o).length - (seen.count o + 1) := by
  have hle := hseen.sublist.count_le o
  rw [List.count_append, List.count_singleton_self] at hle
  have hcount := hle.trans (count_le_free h.nodup (h.not_behind hc) o)
  by_cases ho : Behind (g.Edge d) o
  · rcases hc.apart o ho with h' | h'
    · omega
    · omega
  · rw [free_needs ho] at hcount
    rw [hc.toInt_needs ho]
    omega

theorem Counted.exists_visits (h : Counted (g.needs d) (g.feeds d) seen s) (hc : g.Careful d)
    (hseen : seen ++ l <+: s.sorted.flatMap (g.feeds d)) : ∃ t, l.foldlM State.visit s = some t := by
  induction l generalizing seen s with
  | nil => exact ⟨s, rfl⟩
  | cons o l ih =>
    rw [List.append_cons] at hseen
    have ho := (List.prefix_append _ l).trans hseen
    have hs := h.visit_eq o
    rw [if_neg (not_lt.2 (h.le_visit hc ho))] at hs
    obtain ⟨h₁, hp⟩ := h.visit ho hs
    obtain ⟨t, ht⟩ := ih h₁ (hseen.trans (hp.flatMap _))
    exact ⟨t, by rw [List.foldlM_cons, hs, Option.bind_eq_bind, Option.bind_some, ht]⟩

theorem Counted.length_lt (h : Counted (g.needs d) (g.feeds d) seen s) (hc : g.Careful d)
    (hv : ∀ v, v ∈ g.vertexs) : s.sorted.length < 2 ^ 31 :=
  (h.nodup.subperm fun v hs => mem_free.2 ⟨hv v, h.not_behind hc v hs⟩).length_le.trans_lt hc.short

theorem At.exists_loop (h : At (g.needs d) (g.feeds d) i s) (hc : g.Careful d) (hv : ∀ v, v ∈ g.vertexs)
    (hf : g.vertexs.length < i + fuel) : ∃ t, Graph.loop (g.feeds d) fuel i s = some t := by
  have hlen : s.sorted.length ≤ g.vertexs.length := (h.counted.nodup.subperm fun v _ => hv v).length_le
  induction fuel generalizing i s with
  | zero =>
    have := h.le
    omega
  | succ fuel ih =>
    rw [Graph.loop]
    split
    · exact ⟨s, rfl⟩
    · next node hi =>
      have hlt := (List.getElem?_eq_some_iff.1 hi).1
      have hs : i + 1 < 2 ^ 31 := by
        have := h.counted.length_lt hc hv
        omega
      obtain ⟨s₁, hs₁⟩ := h.counted.exists_visits hc (flatMap_take _ hi ▸ (List.take_prefix _ _).flatMap _)
      have h₁ := h.next hi hs hs₁
      rw [if_pos hs, hs₁, Option.bind_eq_bind, Option.bind_some]
      exact ih h₁ (by omega) (h₁.counted.nodup.subperm fun v _ => hv v).length_le

theorem sort_eq (hv : ∀ v, v ∈ g.vertexs) : g.sort fuel d =
    (loop (g.feeds d) fuel 0 (initial (g.needs d) g.vertexs)).map fun s => ({ g with deps := s.deps }, s.sorted) := by
  have h : g.sort fuel d = g.toplogicalSort fuel (g.needs d) (g.feeds d) := by cases d <;> rfl
  rw [h, toplogicalSort, foldl_start]
  simp only [hv, if_true, List.nil_append]
  change loop _ _ _ (initial _ _) >>= _ = _
  cases loop (g.feeds d) fuel 0 (initial (g.needs d) g.vertexs) <;> rfl

theorem At.initial (hn : g.vertexs.Nodup) (hv : ∀ v, v ∈ g.vertexs) (d : Direction) :
    At (g.needs d) (g.feeds d) 0 (initial (g.needs d) g.vertexs) :=
  ⟨Counted.initial hn hv, Nat.zero_le _, Nat.two_pow_pos 31⟩

theorem Counted.topological [Finite V] (h : Counted (g.needs d) (g.feeds d) (s.sorted.flatMap (g.feeds d)) s)
    (hc : g.Careful d) : Topological (g.Edge d) s.sorted := by
  have hfree := h.not_behind hc
  refine .of_mem h.nodup (fun l v r hl u hu => ?_) fun v => ⟨hfree v, fun hv => ?_⟩
  · have hle := h.order l v r hl
    have hl' : l.Nodup := h.nodup.sublist (hl ▸ List.sublist_append_left l _)
    rw [hc.toInt_needs (hfree v (hl ▸ by simp)), count_feeds hl'] at hle
    have hall := List.countP_eq_length.1 (le_antisymm List.countP_le_length (by exact_mod_cast hle))
    simpa using hall u hu
  · refine OffCycle.induction (fun v hv ih => (h.mem v).2 ?_) hv
    have hall : (g.needs d v).countP (· ∈ s.sorted) = (g.needs d v).length :=
      List.countP_eq_length.2 fun u hu => by simpa using ih u hu
    rw [hc.toInt_needs hv, count_feeds h.nodup, hall]
    omega

theorem Counted.careful (h : Counted (g.needs d) (g.feeds d) (s.sorted.flatMap (g.feeds d)) s)
    (hmem : ∀ v, v ∈ s.sorted ↔ ¬ Behind (g.Edge d) v) (hlen : s.sorted.length < 2 ^ 31) (hn : g.vertexs.Nodup) :
    g.Careful d := by
  have hcount (v : V) : (s.sorted.flatMap (g.feeds d)).count v = (g.free d (g.needs d v)).length :=
    le_antisymm (count_le_free h.nodup (fun u => (hmem u).1) v) (free_le_count h.nodup (fun u => (hmem u).2) v)
  refine ⟨fun v hv => ?_, fun v hv => ?_, ?_⟩
  · have hfloor := h.floor v
    rw [hcount, free_needs hv] at hfloor
    exact lt_of_le_toInt_sub hfloor
  · have hfloor := h.floor v
    have hnot := (h.mem v).not.1 fun hs => (hmem v).1 hs hv
    rw [hcount] at hfloor hnot
    omega
  · refine ((hn.filter _).subperm fun v hv => ?_).length_le.trans_lt hlen
    exact (hmem v).2 (mem_free.1 hv).2

theorem exists_sort (hn : g.vertexs.Nodup) (hv : ∀ v, v ∈ g.vertexs) (hc : g.Careful d) :
    ∃ out, Topological (g.Edge d) out ∧ ∀ deps, ∃ deps',
      sort (g.vertexs.length + 1) { g with deps } d = some ({ g with deps := deps' }, out) := by
  have : Fintype V := ⟨g.vertexs.toFinset, fun v => List.mem_toFinset.2 (hv v)⟩
  have hat := At.initial hn hv d
  obtain ⟨t, ht⟩ : ∃ t, loop (g.feeds d) (g.vertexs.length + 1) 0 (initial (g.needs d) g.vertexs) = some t :=
    hat.exists_loop hc hv (by omega)
  refine ⟨t.sorted, (hat.loop ht).1.topological hc, fun deps => ⟨t.deps, ?_⟩⟩
  rw [sort_eq (g := { g with deps }) hv]
  change Option.map _ (loop (g.feeds d) _ 0 (initial (g.needs d) g.vertexs)) = _
  rw [ht, Option.map_some]

theorem right_of_careful (hn : g.vertexs.Nodup) (hv : ∀ v, v ∈ g.vertexs) (hc : ∀ d, g.Careful d) : g.Right := by
  choose out htop hsort using fun d => exists_sort hn hv (hc d)
  refine ⟨out, htop, fun ds => ⟨g.vertexs.length + 1, ?_⟩⟩
  suffices H : ∀ deps, sorts (g.vertexs.length + 1) { g with deps } ds = some (ds.map out) from H g.deps
  induction ds with
  | nil => exact fun _ => rfl
  | cons d ds ih =>
    intro deps
    obtain ⟨deps', hd⟩ := hsort d deps
    simp only [sorts, hd, Option.bind_eq_bind, Option.bind_some, ih deps']
    rfl

theorem careful_of_right (hn : g.vertexs.Nodup) (hv : ∀ v, v ∈ g.vertexs) (h : g.Right) (d : Direction) :
    g.Careful d := by
  obtain ⟨out, htop, hrun⟩ := h
  obtain ⟨fuel, hs⟩ := hrun [d]
  simp only [sorts, Option.bind_eq_bind, Option.bind_eq_some_iff] at hs
  obtain ⟨⟨g', l⟩, hd, _, hnil, hl⟩ := hs
  obtain rfl := Option.some.inj hnil
  obtain rfl : l = out d := by simpa using hl
  rw [sort_eq hv] at hd
  obtain ⟨t, ht, he⟩ := Option.map_eq_some_iff.1 hd
  obtain ⟨hc, hlen⟩ := (At.initial hn hv d).loop ht
  have hout : t.sorted = out d := congrArg Prod.snd he
  exact hc.careful (hout ▸ (htop d).mem) hlen hn

theorem careful_of_small (hs : ∀ v, (g.needs d v).length < 2 ^ 31) (hl : g.vertexs.length < 2 ^ 31) :
    g.Careful d := by
  refine ⟨fun v _ => hs v, fun v hv => .inl ?_, (List.length_filter_le _ _).trans_lt hl⟩
  obtain ⟨u, hu, hb⟩ := hv.exists_pred
  have hlt : (g.free d (g.needs d v)).length < (g.needs d v).length :=
    List.length_filter_lt_length_iff_exists.2 ⟨u, hu, by simpa using hb⟩
  rw [toInt_of_lt (hs v)]
  exact_mod_cast hlt

/-- Each sort gives the nodes to which no cycle leads in a topological order, and the same one
every time, exactly when the counters and the index stay inside the range of an `int`. -/
theorem sorts_iff_careful (g : Graph V) (hn : g.vertexs.Nodup) (hv : ∀ v, v ∈ g.vertexs) :
    g.Right ↔ ∀ d, g.Careful d :=
  ⟨careful_of_right hn hv, right_of_careful hn hv⟩

end Order

section Runs

/-- The graph of `main`. -/
def main : Graph (Fin 6) :=
  let g := [(0, 2), (0, 3), (1, 3), (1, 4), (2, 5), (3, 5), (4, 5)].foldl (fun g (u, v) => g.addOutput u v) empty
  (List.finRange 6).foldl (fun g v => g.addVertex v) g

example : main.sorts 7 [.backward, .forward] = some [[5, 2, 3, 4, 0, 1], [0, 1, 2, 3, 4, 5]] := by decide

theorem right_main : main.Right :=
  (sorts_iff_careful main (by decide) (by decide)).2 fun d =>
    careful_of_small (fun v => lt_of_le_of_lt (show _ ≤ 6 by revert v; cases d <;> decide) (by omega))
      (lt_of_le_of_lt (show _ ≤ 6 by decide) (by omega))

/-- Two nodes with `n` edges from the first to the second. -/
def parallel (n : Nat) : Graph Bool := (addOutput false true)^[n] ((empty.addVertex false).addVertex true)

theorem parallel_spec (n : Nat) : (parallel n).vertexs = [false, true] ∧
    (parallel n).inputs false = [] ∧ (parallel n).inputs true = List.replicate n false := by
  induction n with
  | zero => exact ⟨rfl, rfl, rfl⟩
  | succ n ih =>
    obtain ⟨hv, hf, ht⟩ := ih
    rw [parallel, Function.iterate_succ_apply', ← parallel]
    refine ⟨hv, ?_, ?_⟩
    · simpa [addOutput] using hf
    · simpa [addOutput, List.replicate_succ'] using ht

theorem not_behind_parallel (n : Nat) (v : Bool) : ¬ Behind ((parallel n).Edge .forward) v := by
  obtain ⟨_, hf, ht⟩ := parallel_spec n
  rintro ⟨u, hu, _⟩
  obtain ⟨a, _, ha⟩ := Relation.TransGen.tail'_iff.1 hu
  obtain ⟨b, hb, _⟩ := Relation.TransGen.head'_iff.1 hu
  cases u with
  | false => simp [Edge, needs, hf] at ha
  | true => cases b <;> simp [Edge, needs, hf, ht] at hb

theorem not_right_of_many {n : Nat} (hn : 2 ^ 31 ≤ n) : ¬ (parallel n).Right := fun h => by
  obtain ⟨hv, _, ht⟩ := parallel_spec n
  have hc := careful_of_right (by simp [hv]) (by simp [hv]) h .forward
  have := hc.few true (not_behind_parallel n true)
  rw [needs, ht, List.length_replicate] at this
  omega

/-- The counter of the second node is set to the least `int`, which the first edge takes down. -/
theorem not_right_parallel : (parallel (2 ^ 31)).vertexs.Nodup ∧ (∀ v, v ∈ (parallel (2 ^ 31)).vertexs) ∧
    ¬ (parallel (2 ^ 31)).Right := by
  rw [(parallel_spec (2 ^ 31)).1]
  exact ⟨by decide, by decide, not_right_of_many le_rfl⟩

end Runs

end Graph

end Wizard
