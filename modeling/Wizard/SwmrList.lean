import Mathlib.Tactic
import Wizard.Segment

/-! The ordered list with one writer. A location is an `atomic<Node*>`: the head of the
list or the `next` of a node. -/

namespace Wizard.SwmrList

inductive Loc
  | head
  | next (a : Nat)
  deriving DecidableEq

/-- Nodes are numbered as they are made. -/
structure Mem (T : Type*) where
  element : Nat → T
  ptr : Loc → Option Nat
  made : Nat

variable {T : Type*}

def Mem.store (m : Mem T) (c : Loc) (p : Option Nat) : Mem T :=
  { m with ptr := Function.update m.ptr c p }

/-- `new Node(data, next)`. -/
def Mem.newNode (m : Mem T) (data : T) (next : Option Nat) : Mem T :=
  ⟨Function.update m.element m.made data, Function.update m.ptr (.next m.made) next, m.made + 1⟩

section Calls

variable [LinearOrder T]

/-- The search from the location `prev`. -/
def Mem.findFirstSmall (m : Mem T) (data : T) : Nat → Loc → Option Loc
  | 0, _ => none
  | fuel + 1, prev =>
    match m.ptr prev with
    | none => some prev
    | some curr => if data ≤ m.element curr then some prev else m.findFirstSmall data fuel (.next curr)

def Mem.insertAt (m : Mem T) (data : T) (prev : Loc) : Mem T :=
  (m.newNode data (m.ptr prev)).store prev (some m.made)

def Mem.add (m : Mem T) (fuel : Nat) (data : T) : Option (Bool × Mem T) :=
  match m.findFirstSmall data fuel .head with
  | none => none
  | some prev =>
    match m.ptr prev with
    | none => some (true, m.insertAt data prev)
    | some curr => if m.element curr = data then some (false, m) else some (true, m.insertAt data prev)

/-- `remove` up to its first store, with the node that it has taken out. -/
def Mem.unlink (m : Mem T) (fuel : Nat) (data : T) : Option (Option Nat × Mem T) :=
  match m.findFirstSmall data fuel .head with
  | none => none
  | some prev =>
    match m.ptr prev with
    | none => some (none, m)
    | some curr => if m.element curr = data then some (some curr, m.store prev (m.ptr (.next curr))) else some (none, m)

def Mem.remove (m : Mem T) (fuel : Nat) (data : T) : Option (Bool × Mem T) :=
  match m.unlink fuel data with
  | none => none
  | some (none, m) => some (false, m)
  | some (some curr, m) => some (true, m.store (.next curr) none)

/-- Where `contains` stands. -/
inductive Pc
  | start
  | turn (prev : Loc) (curr : Option Nat)
  | protect (prev : Loc) (curr : Nat)
  | validate (prev : Loc) (curr : Nat)
  | clear
  | loadNext (prev : Loc) (curr : Nat)
  | loadLatest (prev : Loc) (curr : Nat) (next : Option Nat)
  | log (curr : Nat) (latest : Option Nat)
  | compare (curr : Nat) (next : Option Nat)
  | done (res : Bool)

/-- A record and whether its pointer has been validated. -/
structure Rec where
  realptr : Option Nat
  validated : Bool

/-- A call of `contains` with the records of its two holders. -/
structure Reader where
  pc : Pc
  holderCurr : Rec
  holderPrev : Rec

def Reader.begin : Reader := ⟨.start, ⟨none, false⟩, ⟨none, false⟩⟩

/-- The next step of `contains(data)`. -/
def Reader.step (m : Mem T) (data : T) (r : Reader) : Reader :=
  match r.pc with
  | .start => { r with pc := .turn .head (m.ptr .head) }
  | .turn _ none => { r with pc := .done false }
  | .turn prev (some curr) => { r with pc := if m.element curr < data then .done false else .protect prev curr }
  | .protect prev curr => { r with pc := .validate prev curr, holderCurr := ⟨some curr, false⟩ }
  | .validate prev curr =>
    if m.ptr prev = some curr then { r with pc := .loadNext prev curr, holderCurr := ⟨r.holderCurr.realptr, true⟩ }
    else { r with pc := .clear }
  | .clear => { r with pc := .start, holderCurr := ⟨none, false⟩ }
  | .loadNext prev curr => { r with pc := .loadLatest prev curr (m.ptr (.next curr)) }
  | .loadLatest prev curr next =>
    { r with pc := if m.ptr prev = some curr then .compare curr next else .log curr (m.ptr prev) }
  | .log _ _ => { r with pc := .start }
  | .compare curr next =>
    if m.element curr = data then { r with pc := .done true }
    else ⟨.turn (.next curr) next, r.holderPrev, r.holderCurr⟩
  | .done _ => r

def Pc.result? : Pc → Option Bool
  | .done res => some res
  | _ => none

def Mem.contains (m : Mem T) (fuel : Nat) (data : T) : Option Bool :=
  ((Reader.step m data)^[fuel] .begin).pc.result?

inductive Op (T : Type*)
  | add (data : T)
  | remove (data : T)
  | contains (data : T)

def Mem.call (m : Mem T) (fuel : Nat) : Op T → Option (Bool × Mem T)
  | .add data => m.add fuel data
  | .remove data => m.remove fuel data
  | .contains data => (m.contains fuel data).map fun res => (res, m)

/-- The results of calls made one after another. -/
def Mem.calls (fuel : Nat) : Mem T → List (Op T) → Option (List Bool)
  | _, [] => some []
  | m, op :: ops =>
    match m.call fuel op with
    | none => none
    | some (res, m) => (m.calls fuel ops).map (res :: ·)

/-- What a call returns and leaves on a set. -/
def Op.onSet (S : Finset T) : Op T → Bool × Finset T
  | .add data => (data ∉ S, insert data S)
  | .remove data => (data ∈ S, S.erase data)
  | .contains data => (data ∈ S, S)

def setCalls : Finset T → List (Op T) → List Bool
  | _, [] => []
  | S, op :: ops => (op.onSet S).1 :: setCalls (op.onSet S).2 ops

/-- The element sought is not a member, or no member is smaller. -/
def Op.Seen (S : Finset T) : Op T → Prop
  | .contains data => data ∈ S → ∀ y ∈ S, data ≤ y
  | _ => True

def AllSeen : Finset T → List (Op T) → Prop
  | _, [] => True
  | S, op :: ops => op.Seen S ∧ AllSeen (op.onSet S).2 ops

end Calls

section Chains

/-- The nodes `l` follow from a location. -/
def Chain (ptr : Loc → Option Nat) (c : Loc) (l : List Nat) : Prop := Segment (fun a => ptr (.next a)) (ptr c) l none

/-- The location after the nodes of `l`. -/
def locAfter (c : Loc) (l : List Nat) : Loc := (l.map Loc.next).getLastD c

def cells (ptr : Loc → Option Nat) : Loc → Option Loc := Option.map Loc.next ∘ ptr

variable {ptr : Loc → Option Nat} {c : Loc} {l front back : List Nat} {a n : Nat}

theorem locAfter_cons : locAfter c (a :: l) = locAfter (.next a) l := List.getLastD_cons

theorem chain_cons : Chain ptr c (a :: l) ↔ ptr c = some a ∧ Chain ptr (.next a) l := Iff.rfl

theorem Chain.congr {ptr' : Loc → Option Nat} (h : Chain ptr c l) (he : ∀ d ∈ c :: l.map Loc.next, ptr' d = ptr d) :
    Chain ptr' c l := by
  rw [Chain, he c List.mem_cons_self]
  exact Segment.congr h fun a ha => he _ (List.mem_cons_of_mem c (List.mem_map_of_mem ha))

theorem chain_iff_cells : Chain ptr c l ↔ Segment (cells ptr) (some c) (c :: l.map Loc.next) none := by
  induction l generalizing c with
  | nil => simp [Chain, Segment, cells]
  | cons a l ih =>
    rw [chain_cons, ih]
    simp [Segment, cells]

theorem Chain.nodup_cells (h : Chain ptr c l) : (c :: l.map Loc.next).Nodup := (chain_iff_cells.1 h).nodup

theorem Chain.append_iff : Chain ptr c (front ++ back) ↔
    Segment (fun a => ptr (.next a)) (ptr c) front (ptr (locAfter c front)) ∧ Chain ptr (locAfter c front) back := by
  induction front generalizing c with
  | nil => simp [Chain, Segment, locAfter]
  | cons a front ih =>
    rw [List.cons_append, chain_cons, ih, locAfter_cons]
    simp [Segment, and_assoc]

theorem cells_update (p : Option Nat) :
    cells (Function.update ptr c p) = Function.update (cells ptr) c (p.map Loc.next) :=
  Function.comp_update _ _ _ _

theorem Chain.insert (h : Chain ptr c (front ++ back)) (hn : Loc.next n ∉ c :: (front ++ back).map Loc.next) :
    Chain (Function.update (Function.update ptr (.next n) (ptr (locAfter c front))) (locAfter c front) (some n)) c
      (front ++ n :: back) := by
  have hnodup := List.nodup_cons.2 ⟨hn, h.nodup_cells⟩
  rw [chain_iff_cells, List.map_append] at h
  rw [List.map_append] at hnodup
  rw [chain_iff_cells, cells_update, cells_update, List.map_append]
  exact h.insertAfter hnodup

theorem Chain.erase (h : Chain ptr c (front ++ a :: back)) :
    Chain (Function.update ptr (locAfter c front) (ptr (.next a))) c (front ++ back) := by
  have hnodup := h.nodup_cells
  rw [chain_iff_cells, List.map_append] at h
  rw [List.map_append] at hnodup
  rw [chain_iff_cells, cells_update, List.map_append]
  exact h.eraseAfter hnodup

end Chains

section Writer

variable [LinearOrder T] {m m' : Mem T} {data : T} {l : List Nat}

/-- The search stops before the first node that is not smaller. -/
theorem findFirstSmall_spec (data : T) {c : Loc} {fuel : Nat} (h : Chain m.ptr c l) (hf : l.length < fuel) :
    ∃ front back, l = front ++ back ∧ m.findFirstSmall data fuel c = some (locAfter c front) ∧
      (∀ a ∈ front, m.element a < data) ∧ ∀ a ∈ back.head?, data ≤ m.element a := by
  induction l generalizing c fuel with
  | nil =>
    obtain ⟨fuel, rfl⟩ := Nat.exists_eq_add_of_lt hf
    have hc : m.ptr c = none := h
    refine ⟨[], [], rfl, ?_, nofun, nofun⟩
    simp [Mem.findFirstSmall, hc, locAfter]
  | cons a l ih =>
    obtain ⟨hc, hl⟩ := chain_cons.1 h
    cases fuel with
    | zero => cases hf
    | succ fuel =>
      rw [Mem.findFirstSmall, hc]
      by_cases ha : data ≤ m.element a
      · refine ⟨[], a :: l, rfl, ?_, nofun, ?_⟩
        · rw [locAfter]
          exact if_pos ha
        · rintro b ⟨⟩
          exact ha
      · obtain ⟨front, back, rfl, hfind, hfront, hback⟩ := ih hl (Nat.lt_of_succ_lt_succ hf)
        refine ⟨a :: front, back, rfl, ?_, ?_, hback⟩
        · rw [locAfter_cons]
          exact (if_neg ha).trans hfind
        · rintro b (_ | ⟨_, hb⟩)
          · exact not_le.1 ha
          · exact hfront b hb

/-- `l` are the nodes of the list and `S` are their elements. -/
structure Holds (m : Mem T) (l : List Nat) (S : Finset T) : Prop where
  chain : Chain m.ptr .head l
  made : ∀ a ∈ l, a < m.made
  sorted : l.Pairwise fun a b => m.element a < m.element b
  mem : ∀ x, x ∈ S ↔ ∃ a ∈ l, m.element a = x

variable {S : Finset T}

/-- Where an element of the set is when the list is cut before the first node that is not
smaller. -/
theorem Holds.mem_iff {front back : List Nat} (h : Holds m (front ++ back) S) (hfront : ∀ a ∈ front, m.element a < data)
    (hback : ∀ a ∈ back.head?, data ≤ m.element a) : data ∈ S ↔ ∃ a ∈ back.head?, m.element a = data := by
  rw [h.mem]
  constructor
  · rintro ⟨a, ha, rfl⟩
    rcases List.mem_append.1 ha with ha | ha
    · exact absurd (hfront a ha) (lt_irrefl _)
    · cases back with
      | nil => cases ha
      | cons b back =>
        refine ⟨b, rfl, ?_⟩
        rcases List.mem_cons.1 ha with rfl | ha
        · rfl
        · have hsorted := (List.pairwise_append.1 h.sorted).2.1
          exact absurd ((List.pairwise_cons.1 hsorted).1 a ha) (not_lt.2 (hback b rfl))
  · rintro ⟨a, ha, he⟩
    exact ⟨a, List.mem_append_right _ (List.mem_of_head? ha), he⟩

theorem Holds.eq_of_element {a b : Nat} (h : Holds m l S) (ha : a ∈ l) (hb : b ∈ l) (he : m.element a = m.element b) :
    a = b := by
  have hnodup : (l.map m.element).Nodup := by
    rw [List.Nodup, List.pairwise_map]
    exact h.sorted.imp fun hlt => hlt.ne
  exact List.inj_on_of_nodup_map hnodup ha hb he

theorem Holds.insertAt {front back : List Nat} (h : Holds m (front ++ back) S)
    (hfront : ∀ a ∈ front, m.element a < data)
    (hback : ∀ a ∈ back.head?, data < m.element a) :
    Holds (m.insertAt data (locAfter .head front)) (front ++ m.made :: back) (insert data S) := by
  have hnew : m.made ∉ front ++ back := fun hm => (h.made _ hm).false
  have helement : ∀ a ∈ front ++ back, (m.insertAt data (locAfter .head front)).element a = m.element a :=
    fun a ha => Function.update_of_ne (ne_of_mem_of_not_mem ha hnew) _ _
  have hself : (m.insertAt data (locAfter .head front)).element m.made = data := Function.update_self _ _ _
  have hlt : ∀ a ∈ back, data < m.element a := by
    intro a ha
    cases back with
    | nil => cases ha
    | cons b back =>
      rcases List.mem_cons.1 ha with rfl | ha
      · exact hback a rfl
      · have hsorted := (List.pairwise_append.1 h.sorted).2.1
        exact (hback b rfl).trans ((List.pairwise_cons.1 hsorted).1 a ha)
  constructor
  · refine Chain.insert h.chain ?_
    simpa using hnew
  · intro a ha
    rw [List.mem_append, List.mem_cons] at ha
    change a < m.made + 1
    rcases ha with ha | rfl | ha
    · exact Nat.lt_succ_of_lt (h.made a (List.mem_append_left _ ha))
    · exact Nat.lt_succ_self _
    · exact Nat.lt_succ_of_lt (h.made a (List.mem_append_right _ ha))
  · obtain ⟨h1, h2, h3⟩ := List.pairwise_append.1 h.sorted
    rw [List.pairwise_append, List.pairwise_cons]
    refine ⟨h1.imp_of_mem ?_, ⟨?_, h2.imp_of_mem ?_⟩, ?_⟩
    · intro a b ha hb hab
      rw [helement a (List.mem_append_left _ ha), helement b (List.mem_append_left _ hb)]
      exact hab
    · intro a ha
      rw [hself, helement a (List.mem_append_right _ ha)]
      exact hlt a ha
    · intro a b ha hb hab
      rw [helement a (List.mem_append_right _ ha), helement b (List.mem_append_right _ hb)]
      exact hab
    · intro a ha b hb
      rw [helement a (List.mem_append_left _ ha)]
      rcases List.mem_cons.1 hb with rfl | hb
      · rw [hself]
        exact hfront a ha
      · rw [helement b (List.mem_append_right _ hb)]
        exact h3 a ha b hb
  · intro x
    rw [Finset.mem_insert, h.mem]
    constructor
    · rintro (rfl | ⟨a, ha, rfl⟩)
      · exact ⟨m.made, by simp, hself⟩
      · refine ⟨a, ?_, helement a ha⟩
        rw [List.mem_append] at ha ⊢
        exact ha.imp_right (List.mem_cons_of_mem _)
    · rintro ⟨a, ha, rfl⟩
      by_cases hm : a = m.made
      · rw [hm]
        exact .inl hself
      · have ha' : a ∈ front ++ back := by simpa [hm] using ha
        exact .inr ⟨a, ha', (helement a ha').symm⟩

theorem Holds.eraseAt {front back : List Nat} {a : Nat} (h : Holds m (front ++ a :: back) S) :
    Holds ((m.store (locAfter .head front) (m.ptr (.next a))).store (.next a) none) (front ++ back)
      (S.erase (m.element a)) := by
  have hnodup := h.chain.nodup
  have hsub : ∀ b, b ∈ front ++ back ↔ b ∈ front ++ a :: back ∧ b ≠ a := by
    intro b
    rw [List.nodup_append, List.nodup_cons] at hnodup
    obtain ⟨-, ⟨hback, -⟩, hdisj⟩ := hnodup
    simp only [List.mem_append, List.mem_cons]
    constructor
    · rintro (hb | hb)
      · exact ⟨.inl hb, hdisj b hb a List.mem_cons_self⟩
      · exact ⟨.inr (.inr hb), ne_of_mem_of_not_mem hb hback⟩
    · rintro ⟨hb, hne⟩
      exact hb.imp_right fun hb => hb.resolve_left hne
  constructor
  · have herase := Chain.erase h.chain
    refine herase.congr fun d hd => Function.update_of_ne ?_ _ _
    rintro rfl
    exact ((hsub a).1 (by simpa using hd)).2 rfl
  · intro b hb
    exact h.made b ((hsub b).1 hb).1
  · obtain ⟨h1, h2, h3⟩ := List.pairwise_append.1 h.sorted
    exact List.pairwise_append.2 ⟨h1, (List.pairwise_cons.1 h2).2, fun b hb c hc =>
      h3 b hb c (List.mem_cons_of_mem a hc)⟩
  · intro x
    rw [Finset.mem_erase, h.mem]
    constructor
    · rintro ⟨hx, b, hb, rfl⟩
      exact ⟨b, (hsub b).2 ⟨hb, fun he => hx (congrArg _ he)⟩, rfl⟩
    · rintro ⟨b, hb, rfl⟩
      obtain ⟨hb, hba⟩ := (hsub b).1 hb
      exact ⟨fun he => hba (h.eq_of_element hb (by simp) he), b, hb, rfl⟩

theorem Holds.add {fuel : Nat} (h : Holds m l S) (data : T) (hf : l.length < fuel) :
    ∃ m' l', m.add fuel data = some (decide (data ∉ S), m') ∧ Holds m' l' (insert data S) ∧
      l'.length ≤ l.length + 1 := by
  obtain ⟨front, back, rfl, hfind, hfront, hback⟩ := findFirstSmall_spec data h.chain hf
  have hmem := h.mem_iff hfront hback
  have hptr := (Chain.append_iff.1 h.chain).2
  have hlen : (front ++ m.made :: back).length ≤ (front ++ back).length + 1 := by simp; omega
  rw [Mem.add, hfind]
  cases back with
  | nil =>
    have hnot : data ∉ S := by simpa using hmem
    have hnone : m.ptr (locAfter .head front) = none := hptr
    refine ⟨m.insertAt data (locAfter .head front), _, ?_, h.insertAt hfront nofun, hlen⟩
    simp [hnone, hnot]
  | cons a back =>
    have hsome : m.ptr (locAfter .head front) = some a := hptr.1
    have hin : data ∈ S ↔ m.element a = data := by simpa using hmem
    by_cases ha : m.element a = data
    · refine ⟨m, _, ?_, ?_, Nat.le_succ _⟩
      · simp [hsome, ha, hin]
      · rw [Finset.insert_eq_of_mem (hin.2 ha)]
        exact h
    · refine ⟨m.insertAt data (locAfter .head front), _, ?_, h.insertAt hfront ?_, hlen⟩
      · simp [hsome, ha, hin]
      · rintro b ⟨⟩
        exact lt_of_le_of_ne (hback a rfl) (Ne.symm ha)

theorem Holds.remove {fuel : Nat} (h : Holds m l S) (data : T) (hf : l.length < fuel) :
    ∃ m' l', m.remove fuel data = some (decide (data ∈ S), m') ∧ Holds m' l' (S.erase data) ∧
      l'.length ≤ l.length + 1 := by
  obtain ⟨front, back, rfl, hfind, hfront, hback⟩ := findFirstSmall_spec data h.chain hf
  have hmem := h.mem_iff hfront hback
  have hptr := (Chain.append_iff.1 h.chain).2
  rw [Mem.remove, Mem.unlink, hfind]
  cases back with
  | nil =>
    have hnot : data ∉ S := by simpa using hmem
    have hnone : m.ptr (locAfter .head front) = none := hptr
    refine ⟨m, _, ?_, ?_, Nat.le_succ _⟩
    · simp [hnone, hnot]
    · rw [Finset.erase_eq_of_notMem hnot]
      exact h
  | cons a back =>
    have hsome : m.ptr (locAfter .head front) = some a := hptr.1
    have hin : data ∈ S ↔ m.element a = data := by simpa using hmem
    by_cases ha : m.element a = data
    · refine ⟨(m.store (locAfter .head front) (m.ptr (.next a))).store (.next a) none, front ++ back, ?_, ?_, ?_⟩
      · simp only [hsome, if_pos ha, hin.2 ha, decide_true]
      · rw [← ha]
        exact h.eraseAt
      · simp only [List.length_append, List.length_cons]
        omega
    · refine ⟨m, _, ?_, ?_, Nat.le_succ _⟩
      · simp [hsome, ha, hin]
      · rw [Finset.erase_eq_of_notMem (mt hin.1 ha)]
        exact h

end Writer

section Alone

variable [LinearOrder T] {m : Mem T} {data : T} {l : List Nat} {r : Reader}

theorem iterate_done {res : Bool} (h : r.pc = .done res) (n : Nat) : ((Reader.step m data)^[n] r).pc = .done res := by
  induction n generalizing r with
  | zero => exact h
  | succ n ih =>
    rw [Function.iterate_succ_apply]
    apply ih
    simp only [Reader.step, h]

/-- With nobody else at work a call of `contains` passes a node that is greater. -/
theorem pass_greater {c : Loc} {a : Nat} (hpc : r.pc = .turn c (m.ptr c)) (hc : m.ptr c = some a)
    (ha : data < m.element a) :
    ((Reader.step m data)^[6] r).pc = .turn (.next a) (m.ptr (.next a)) := by
  obtain ⟨pc, holderCurr, holderPrev⟩ := r
  obtain rfl : pc = .turn c (m.ptr c) := hpc
  simp [Reader.step, hc, ha.not_gt, ha.ne']

/-- It finds a node that is equal. -/
theorem find_equal {c : Loc} {a : Nat} (hpc : r.pc = .turn c (m.ptr c)) (hc : m.ptr c = some a)
    (ha : m.element a = data) :
    ((Reader.step m data)^[6] r).pc = .done true := by
  obtain ⟨pc, holderCurr, holderPrev⟩ := r
  obtain rfl : pc = .turn c (m.ptr c) := hpc
  simp [Reader.step, hc, ha]

/-- It is over once it meets a node that is smaller, and finds `data` at the first node only. -/
theorem turn_spec {c : Loc} (hpc : r.pc = .turn c (m.ptr c)) (hl : Chain m.ptr c l)
    (hs : l.Pairwise fun a b => m.element a < m.element b) :
    ∃ n ≤ 6 * l.length + 1, ((Reader.step m data)^[n] r).pc = .done (l.head?.any (m.element · = data)) := by
  induction l generalizing c r with
  | nil =>
    have hc : m.ptr c = none := hl
    refine ⟨1, le_refl _, ?_⟩
    simp [Reader.step, hpc, hc]
  | cons a l ih =>
    obtain ⟨hc, hl⟩ := chain_cons.1 hl
    obtain ⟨hhead, hs⟩ := List.pairwise_cons.1 hs
    rcases lt_trichotomy (m.element a) data with ha | ha | ha
    · refine ⟨1, by omega, ?_⟩
      simp [Reader.step, hpc, hc, ha, ha.ne]
    · refine ⟨6, by simp only [List.length_cons]; omega, ?_⟩
      rw [find_equal hpc hc ha]
      simp [ha]
    · obtain ⟨n, hn, hdone⟩ := ih (pass_greater hpc hc ha) hl hs
      refine ⟨n + 6, by simp only [List.length_cons]; omega, ?_⟩
      rw [Function.iterate_add_apply, hdone]
      cases l with
      | nil => simp [ha.ne']
      | cons b l => simp [ha.ne', (ha.trans (hhead b List.mem_cons_self)).ne']

variable {S : Finset T}

theorem Holds.head_iff (h : Holds m l S) :
    (l.head?.any (m.element · = data)) = true ↔ data ∈ S ∧ ∀ y ∈ S, data ≤ y := by
  cases l with
  | nil =>
    have hnot : data ∉ S := fun hx => by
      obtain ⟨a, ha, -⟩ := (h.mem data).1 hx
      cases ha
    simp [hnot]
  | cons a l =>
    have hleast : ∀ y ∈ S, m.element a ≤ y := by
      intro y hy
      obtain ⟨b, hb, rfl⟩ := (h.mem y).1 hy
      rcases List.mem_cons.1 hb with rfl | hb
      · exact le_refl _
      · exact ((List.pairwise_cons.1 h.sorted).1 b hb).le
    have ha : m.element a ∈ S := (h.mem _).2 ⟨a, List.mem_cons_self, rfl⟩
    rw [List.head?_cons, Option.any_some, decide_eq_true_eq]
    constructor
    · rintro rfl
      exact ⟨ha, hleast⟩
    · rintro ⟨hd, hall⟩
      exact le_antisymm (hleast data hd) (hall _ ha)

theorem Holds.contains {fuel : Nat} (h : Holds m l S) (hf : 6 * l.length + 2 ≤ fuel) :
    m.contains fuel data = some (decide (data ∈ S ∧ ∀ y ∈ S, data ≤ y)) := by
  have hstart : (Reader.step m data .begin).pc = .turn .head (m.ptr .head) := rfl
  obtain ⟨n, hn, hdone⟩ := turn_spec hstart h.chain h.sorted
  obtain ⟨k, rfl⟩ : ∃ k, fuel = k + (n + 1) := ⟨fuel - (n + 1), by omega⟩
  rw [Mem.contains, Function.iterate_add_apply, Function.iterate_succ_apply, iterate_done hdone, Pc.result?]
  congr 1
  rw [Bool.eq_iff_iff, h.head_iff, decide_eq_true_eq]

theorem Holds.call {fuel : Nat} (h : Holds m l S) (op : Op T) (hf : 6 * l.length + 2 ≤ fuel) :
    ∃ res m' l', m.call fuel op = some (res, m') ∧ Holds m' l' (op.onSet S).2 ∧ l'.length ≤ l.length + 1 ∧
      (res = (op.onSet S).1 ↔ op.Seen S) := by
  cases op with
  | add data =>
    obtain ⟨m', l', hcall, hh, hlen⟩ := h.add data (show l.length < fuel by omega)
    exact ⟨_, m', l', hcall, hh, hlen, iff_of_true rfl trivial⟩
  | remove data =>
    obtain ⟨m', l', hcall, hh, hlen⟩ := h.remove data (show l.length < fuel by omega)
    exact ⟨_, m', l', hcall, hh, hlen, iff_of_true rfl trivial⟩
  | contains data =>
    refine ⟨decide (data ∈ S ∧ ∀ y ∈ S, data ≤ y), m, l, ?_, h, Nat.le_succ _, ?_⟩
    · rw [Mem.call, h.contains hf, Option.map_some]
    · rw [Op.onSet, Op.Seen, decide_eq_decide]
      constructor
      · intro he hd
        exact (he.2 hd).2
      · intro hseen
        exact ⟨And.left, fun hd => ⟨hd, hseen hd⟩⟩

theorem Holds.calls (h : Holds m l S) (fuel : Nat) (ops : List (Op T)) (hf : 6 * (l.length + ops.length) + 2 ≤ fuel) :
    ∃ rs, m.calls fuel ops = some rs ∧ (rs = setCalls S ops ↔ AllSeen S ops) := by
  induction ops generalizing m l S with
  | nil => exact ⟨[], rfl, iff_of_true rfl trivial⟩
  | cons op ops ih =>
    rw [List.length_cons] at hf
    obtain ⟨res, m', l', hcall, hh, hlen, hres⟩ := h.call op (show 6 * l.length + 2 ≤ fuel by omega)
    obtain ⟨rs, hrs, hall⟩ := ih hh (by omega)
    refine ⟨res :: rs, ?_, ?_⟩
    · rw [Mem.calls, hcall]
      simp only [hrs, Option.map_some]
    · rw [setCalls, AllSeen, List.cons.injEq, hres, hall]

theorem holds_empty (element : Nat → T) : Holds ⟨element, fun _ => none, 0⟩ [] ∅ :=
  ⟨rfl, nofun, List.Pairwise.nil, by simp⟩

/-- All calls end, and they return what a set returns if and only if every `contains` asks
for an element that is not there or has no smaller one beside it. -/
theorem calls_eq_iff (element : Nat → T) (ops : List (Op T)) : ∃ n, ∀ fuel ≥ n, ∃ rs,
    Mem.calls fuel ⟨element, fun _ => none, 0⟩ ops = some rs ∧ (rs = setCalls ∅ ops ↔ AllSeen ∅ ops) := by
  refine ⟨6 * ops.length + 2, fun fuel hf => ?_⟩
  apply (holds_empty element).calls
  rw [List.length_nil, Nat.zero_add]
  exact hf

/-- Of two elements the greater one is not found. -/
theorem greater_not_found : ¬ ∀ ops : List (Op Nat), ∃ n, ∀ fuel ≥ n,
    Mem.calls fuel ⟨fun _ => 0, fun _ => none, 0⟩ ops = some (setCalls ∅ ops) := by
  intro hclaim
  obtain ⟨n, hn⟩ := hclaim [.add 1, .add 2, .contains 2]
  have hcalls := hn (n + 20) (by omega)
  obtain ⟨rs, hrs, hiff⟩ := (holds_empty fun _ => 0).calls (n + 20) [.add 1, .add 2, .contains 2] (by simp)
  have hseen := (hiff.1 (Option.some.inj (hrs.symm.trans hcalls))).2.2.1
  exact absurd (hseen (by decide) 1 (by decide)) (by decide)

end Alone

end Wizard.SwmrList
