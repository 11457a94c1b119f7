import Wizard.Runs
import Wizard.SwmrList

/-! A reader of the list beside its writers, and what reclamation may do between two of its
steps. A writer has the mutex, so the calls of the writers come one after another. -/

namespace Wizard.SwmrList

/-- Where `remove` stands with the node that it has taken out. -/
inductive WriterPc
  | idle
  | unlinked (a : Nat)
  | cleared (a : Nat)

structure State (T : Type*) where
  mem : Mem T
  writer : WriterPc
  reader : Reader
  retired : Nat → Prop
  destroyed : Nat → Prop

variable {T : Type*}

structure Init (s : State T) : Prop where
  ptr : ∀ c, s.mem.ptr c = none
  writer : s.writer = .idle
  reader : s.reader = .begin
  retired : ∀ a, ¬ s.retired a
  destroyed : ∀ a, ¬ s.destroyed a

/-- A record holds the node and the pointer has been validated. -/
def Reader.Protects (r : Reader) (a : Nat) : Prop := r.holderCurr = ⟨some a, true⟩ ∨ r.holderPrev = ⟨some a, true⟩

/-- The steps beside a call of `contains(data)`. A `remove` that finds nothing changes
nothing; the domain destroys retired nodes that no validated protection covers. -/
inductive Step [LinearOrder T] (data : T) : State T → State T → Prop
  | add (s fuel x res m') (hw : s.writer = .idle) (h : s.mem.add fuel x = some (res, m')) :
      Step data s { s with mem := m' }
  | unlink (s fuel x a m') (hw : s.writer = .idle) (h : s.mem.unlink fuel x = some (some a, m')) :
      Step data s { s with mem := m', writer := .unlinked a }
  | clearNext (s a) (hw : s.writer = .unlinked a) :
      Step data s { s with mem := s.mem.store (.next a) none, writer := .cleared a }
  | retire (s a) (hw : s.writer = .cleared a) :
      Step data s { s with retired := fun b => b = a ∨ s.retired b, writer := .idle }
  | destroy (s a) (hr : s.retired a) (hp : ¬ s.reader.Protects a) :
      Step data s { s with destroyed := fun b => b = a ∨ s.destroyed b }
  | read (s) : Step data s { s with reader := s.reader.step s.mem data }

/-- The nodes whose fields `contains` accesses in its next step. -/
def Pc.Uses (a : Nat) : Pc → Prop
  | .turn _ curr => curr = some a
  | .validate prev _ => prev = .next a
  | .loadNext _ curr | .compare curr _ => curr = a
  | .loadLatest prev _ _ => prev = .next a
  | .log curr latest => curr = a ∨ latest = some a
  | _ => False

/-- The reader has loaded the node as its `curr` and not compared it with `data` yet, or as
`latest_curr` and not logged it yet. -/
def Pc.Pending (a : Nat) : Pc → Prop
  | .turn _ p | .loadLatest _ _ p | .compare _ p | .log _ p => p = some a
  | _ => False

/-- No node is destroyed while the reader has it pending. -/
def CarefulStep [LinearOrder T] (data : T) (s s' : State T) : Prop :=
  Step data s s' ∧ ∀ a, ¬ s.destroyed a → s'.destroyed a → ¬ s.reader.pc.Pending a

section Writer

/-- The node that `remove` has taken out and not retired. -/
def WriterPc.held? : WriterPc → Option Nat
  | .idle => none
  | .unlinked a | .cleared a => some a

/-- `l` are the nodes of the list. -/
structure Linked (s : State T) (l : List Nat) : Prop where
  chain : Chain s.mem.ptr .head l
  made : ∀ a ∈ l, a < s.mem.made
  kept : ∀ a ∈ l, ¬ s.retired a
  source : ∀ c, s.mem.ptr c ≠ none → c ∈ Loc.head :: l.map Loc.next ∨ ∃ a, s.writer = .unlinked a ∧ c = .next a
  target : ∀ a b, s.writer = .unlinked a → s.mem.ptr (.next a) = some b → b ∈ l
  held : ∀ a, s.writer.held? = some a → a ∉ l ∧ a < s.mem.made
  retired : ∀ a, s.retired a → a < s.mem.made
  destroyed : ∀ a, s.destroyed a → s.retired a

variable {s s' : State T} {l : List Nat}

theorem Chain.mem {ptr : Loc → Option Nat} {c d : Loc} {b : Nat} (h : Chain ptr c l) (hd : d ∈ c :: l.map Loc.next)
    (hb : ptr d = some b) : b ∈ l := by
  induction l generalizing c with
  | nil =>
    have hc : ptr c = none := h
    rw [List.mem_singleton.1 hd, hc] at hb
    cases hb
  | cons a l ih =>
    obtain ⟨hc, hl⟩ := chain_cons.1 h
    rcases List.mem_cons.1 hd with rfl | hd
    · rw [hc] at hb
      cases hb
      exact List.mem_cons_self
    · exact List.mem_cons_of_mem a (ih hl hd)

theorem Linked.points (h : Linked s l) {c : Loc} {b : Nat} (hb : s.mem.ptr c = some b) : b ∈ l := by
  have hne : s.mem.ptr c ≠ none := by
    rw [hb]
    nofun
  rcases h.source c hne with hc | ⟨a, hw, rfl⟩
  · exact h.chain.mem hc hb
  · exact h.target a b hw hb

theorem Linked.not_destroyed (h : Linked s l) {c : Loc} {b : Nat} (hb : s.mem.ptr c = some b) : ¬ s.destroyed b :=
  fun hd => h.kept b (h.points hb) (h.destroyed b hd)

theorem next_mem_cells {c : Loc} {a : Nat} (hc : c ∈ Loc.head :: l.map Loc.next) (he : c = .next a) : a ∈ l := by
  subst he
  simpa using hc

variable [LinearOrder T]

theorem find_of_some {m : Mem T} {x : T} {fuel : Nat} {c prev : Loc} (h : Chain m.ptr c l)
    (hf : m.findFirstSmall x fuel c = some prev) : ∃ front back, l = front ++ back ∧ prev = locAfter c front := by
  induction l generalizing c fuel with
  | nil =>
    cases fuel with
    | zero => cases hf
    | succ fuel =>
      have hc : m.ptr c = none := h
      rw [Mem.findFirstSmall, hc] at hf
      cases hf
      exact ⟨[], [], rfl, rfl⟩
  | cons a l ih =>
    cases fuel with
    | zero => cases hf
    | succ fuel =>
      obtain ⟨hc, hl⟩ := chain_cons.1 h
      rw [Mem.findFirstSmall, hc] at hf
      by_cases hx : x ≤ m.element a
      · cases (if_pos hx).symm.trans hf
        exact ⟨[], a :: l, rfl, rfl⟩
      · obtain ⟨front, back, rfl, rfl⟩ := ih hl ((if_neg hx).symm.trans hf)
        exact ⟨a :: front, back, rfl, locAfter_cons.symm⟩

theorem add_cases {m m' : Mem T} {fuel : Nat} {x : T} {res : Bool} (h : Chain m.ptr .head l)
    (hadd : m.add fuel x = some (res, m')) :
    m' = m ∨ ∃ front back, l = front ++ back ∧ m' = m.insertAt x (locAfter .head front) := by
  rw [Mem.add] at hadd
  cases hf : m.findFirstSmall x fuel .head with
  | none =>
    rw [hf] at hadd
    cases hadd
  | some prev =>
    obtain ⟨front, back, rfl, rfl⟩ := find_of_some h hf
    rw [hf] at hadd
    cases hp : m.ptr (locAfter .head front) with
    | none =>
      simp only [hp, Option.some.injEq, Prod.mk.injEq] at hadd
      exact .inr ⟨front, back, rfl, hadd.2.symm⟩
    | some curr =>
      simp only [hp] at hadd
      split at hadd
      · cases hadd
        exact .inl rfl
      · cases hadd
        exact .inr ⟨front, back, rfl, rfl⟩

theorem unlink_cases {m m' : Mem T} {fuel : Nat} {x : T} {a : Nat} (h : Chain m.ptr .head l)
    (hunlink : m.unlink fuel x = some (some a, m')) :
    ∃ front back, l = front ++ a :: back ∧ m' = m.store (locAfter .head front) (m.ptr (.next a)) := by
  rw [Mem.unlink] at hunlink
  cases hf : m.findFirstSmall x fuel .head with
  | none =>
    rw [hf] at hunlink
    cases hunlink
  | some prev =>
    obtain ⟨front, back, rfl, rfl⟩ := find_of_some h hf
    rw [hf] at hunlink
    cases hp : m.ptr (locAfter .head front) with
    | none =>
      simp only [hp, Option.some.injEq, Prod.mk.injEq] at hunlink
      cases hunlink.1
    | some curr =>
      simp only [hp] at hunlink
      split at hunlink
      · cases hunlink
        have hback := (Chain.append_iff.1 h).2
        cases back with
        | nil =>
          have hnone : m.ptr (locAfter .head front) = none := hback
          rw [hp] at hnone
          cases hnone
        | cons b back =>
          cases hp.symm.trans hback.1
          exact ⟨front, back, rfl, rfl⟩
      · cases hunlink

theorem mem_cells_locAfter {front back : List Nat} :
    locAfter .head front ∈ Loc.head :: (front ++ back).map Loc.next := by
  rw [List.map_append, ← List.cons_append]
  exact List.mem_append_left _ List.getLastD_mem_cons

omit [LinearOrder T] in
theorem Linked.insert {front back : List Nat} (h : Linked s (front ++ back)) (hw : s.writer = .idle) (x : T) :
    Linked { s with mem := s.mem.insertAt x (locAfter .head front) } (front ++ s.mem.made :: back) := by
  have hmem : ∀ a, a ∈ front ++ s.mem.made :: back ↔ a = s.mem.made ∨ a ∈ front ++ back := by
    intro a
    simp only [List.mem_append, List.mem_cons]
    tauto
  have hsub : ∀ c, c ∈ Loc.head :: (front ++ back).map Loc.next →
    c ∈ Loc.head :: (front ++ s.mem.made :: back).map Loc.next := by
    intro c hc
    rcases List.mem_cons.1 hc with rfl | hc
    · exact List.mem_cons_self
    · obtain ⟨a, ha, rfl⟩ := List.mem_map.1 hc
      exact List.mem_cons_of_mem _ (List.mem_map_of_mem ((hmem a).2 (.inr ha)))
  constructor
  · refine Chain.insert h.chain fun hm => ?_
    exact (h.made _ (next_mem_cells hm rfl)).false
  · intro a ha
    change a < s.mem.made + 1
    rcases (hmem a).1 ha with rfl | ha
    · exact Nat.lt_succ_self _
    · exact Nat.lt_succ_of_lt (h.made a ha)
  · intro a ha hr
    rcases (hmem a).1 ha with rfl | ha
    · exact (h.retired _ hr).false
    · exact h.kept a ha hr
  · intro c hc
    by_cases hloc : c = locAfter .head front
    · rw [hloc]
      exact .inl (hsub _ mem_cells_locAfter)
    · by_cases hnew : c = .next s.mem.made
      · rw [hnew]
        exact .inl (List.mem_cons_of_mem _ (List.mem_map_of_mem ((hmem _).2 (.inl rfl))))
      · have hptr : s.mem.ptr c ≠ none := by
          simpa [Mem.insertAt, Mem.store, Mem.newNode, hloc, hnew] using hc
        exact (h.source c hptr).imp_left (hsub c)
  · intro a b hu
    cases hw.symm.trans hu
  · intro a hu
    rw [hw] at hu
    cases hu
  · intro a ha
    exact Nat.lt_succ_of_lt (h.retired a ha)
  · exact h.destroyed

omit [LinearOrder T] in
theorem Linked.erase {front back : List Nat} {a : Nat} (h : Linked s (front ++ a :: back)) (hw : s.writer = .idle) :
    Linked { s with mem := s.mem.store (locAfter .head front) (s.mem.ptr (.next a)), writer := .unlinked a }
      (front ++ back) := by
  have hnodup := h.chain.nodup
  rw [List.nodup_append, List.nodup_cons] at hnodup
  obtain ⟨-, ⟨hback, -⟩, hdisj⟩ := hnodup
  have hnot : a ∉ front ++ back := by
    intro hm
    rcases List.mem_append.1 hm with hm | hm
    · exact hdisj a hm a List.mem_cons_self rfl
    · exact hback hm
  have hsub : ∀ b ∈ front ++ back, b ∈ front ++ a :: back := by
    intro b hb
    rw [List.mem_append] at hb ⊢
    exact hb.imp_right (List.mem_cons_of_mem a)
  have hchain := Chain.erase h.chain
  have hloc : Loc.next a ≠ locAfter .head front := by
    intro he
    exact hnot (next_mem_cells mem_cells_locAfter he.symm)
  constructor
  · exact hchain
  · exact fun b hb => h.made b (hsub b hb)
  · exact fun b hb => h.kept b (hsub b hb)
  · intro c hc
    by_cases hcl : c = locAfter .head front
    · rw [hcl]
      exact .inl mem_cells_locAfter
    · have hptr : s.mem.ptr c ≠ none := by
        simpa [Mem.store, hcl] using hc
      rcases h.source c hptr with hm | ⟨b, hb, -⟩
      · rcases List.mem_cons.1 hm with rfl | hm
        · exact .inl List.mem_cons_self
        · obtain ⟨b, hb, rfl⟩ := List.mem_map.1 hm
          by_cases hba : b = a
          · exact .inr ⟨a, rfl, congrArg _ hba⟩
          · have hb' : b ∈ front ++ back := by simpa [hba] using hb
            exact .inl (List.mem_cons_of_mem _ (List.mem_map_of_mem hb'))
      · cases hw.symm.trans hb
  · intro b d hb hd
    cases hb
    refine hchain.mem mem_cells_locAfter ?_
    rw [Function.update_self]
    exact (Function.update_of_ne hloc _ _).symm.trans hd
  · intro b hb
    cases hb
    exact ⟨hnot, h.made a (by simp)⟩
  · exact h.retired
  · exact h.destroyed

omit [LinearOrder T] in
theorem Linked.clearNext {a : Nat} (h : Linked s l) (hw : s.writer = .unlinked a) :
    Linked { s with mem := s.mem.store (.next a) none, writer := .cleared a } l := by
  obtain ⟨hnot, hlt⟩ := h.held a (by rw [hw]; rfl)
  refine ⟨h.chain.congr fun c hc => ?_, h.made, h.kept, ?_, nofun, ?_, h.retired, h.destroyed⟩
  · refine Function.update_of_ne (fun he => ?_) _ _
    exact hnot (next_mem_cells hc he)
  · intro c hc
    have hca : c ≠ .next a := by
      rintro rfl
      exact hc (Function.update_self _ _ _)
    have hptr : s.mem.ptr c ≠ none := by
      simpa [Mem.store, hca] using hc
    rcases h.source c hptr with hm | ⟨b, hb, rfl⟩
    · exact .inl hm
    · cases hw.symm.trans hb
      exact absurd rfl hca
  · rintro b ⟨⟩
    exact ⟨hnot, hlt⟩

omit [LinearOrder T] in
theorem Linked.retire {a : Nat} (h : Linked s l) (hw : s.writer = .cleared a) :
    Linked { s with retired := fun b => b = a ∨ s.retired b, writer := .idle } l := by
  obtain ⟨hnot, hlt⟩ := h.held a (by rw [hw]; rfl)
  refine ⟨h.chain, h.made, ?_, ?_, nofun, nofun, ?_, fun b hb => .inr (h.destroyed b hb)⟩
  · rintro b hb (rfl | hr)
    · exact hnot hb
    · exact h.kept b hb hr
  · intro c hc
    refine (h.source c hc).imp_right fun ⟨b, hb, _⟩ => ?_
    cases hw.symm.trans hb
  · rintro b (rfl | hr)
    · exact hlt
    · exact h.retired b hr

theorem Linked.step {data : T} (h : Linked s l) (hs : Step data s s') : ∃ l', Linked s' l' := by
  cases hs with
  | add fuel x res m' hw hadd =>
    rcases add_cases h.chain hadd with rfl | ⟨front, back, rfl, rfl⟩
    · exact ⟨l, h⟩
    · exact ⟨_, h.insert hw x⟩
  | unlink fuel x a m' hw hunlink =>
    obtain ⟨front, back, rfl, rfl⟩ := unlink_cases h.chain hunlink
    exact ⟨_, h.erase hw⟩
  | clearNext a hw => exact ⟨l, h.clearNext hw⟩
  | retire a hw => exact ⟨l, h.retire hw⟩
  | destroy a hr hp =>
    refine ⟨l, h.chain, h.made, h.kept, h.source, h.target, h.held, h.retired, ?_⟩
    rintro b (rfl | hb)
    · exact hr
    · exact h.destroyed b hb
  | read => exact ⟨l, h.chain, h.made, h.kept, h.source, h.target, h.held, h.retired, h.destroyed⟩

end Writer

section Readers

/-- The location is the head of the list or in a protected node. -/
def Reader.Holds (r : Reader) (c : Loc) : Prop := c = .head ∨ ∃ a, c = .next a ∧ r.holderPrev = ⟨some a, true⟩

def Reader.Ok (r : Reader) : Prop :=
  match r.pc with
  | .turn prev _ | .protect prev _ => r.Holds prev
  | .validate prev curr => r.Holds prev ∧ r.holderCurr.realptr = some curr
  | .loadNext prev curr | .loadLatest prev curr _ => r.Holds prev ∧ r.holderCurr = ⟨some curr, true⟩
  | .log curr _ | .compare curr _ => r.holderCurr = ⟨some curr, true⟩
  | _ => True

/-- What the reader may use is not destroyed. -/
structure Safe (s : State T) : Prop where
  guarded : ∀ a, s.reader.Protects a → ¬ s.destroyed a
  pending : ∀ a, s.reader.pc.Pending a → ¬ s.destroyed a
  ok : s.reader.Ok

variable {s s' : State T} {l : List Nat} {a : Nat}

theorem Safe.prev (h : Safe s) {c : Loc} (hc : s.reader.Holds c) (ha : c = .next a) : ¬ s.destroyed a := by
  rcases hc with rfl | ⟨b, rfl, hb⟩
  · cases ha
  · cases ha
    exact h.guarded a (.inr hb)

theorem Safe.not_destroyed (h : Safe s) (ha : s.reader.pc.Uses a) : ¬ s.destroyed a := by
  have hok := h.ok
  have hpending := h.pending a
  rw [Reader.Ok] at hok
  cases hpc : s.reader.pc with
  | turn prev curr =>
    rw [hpc] at ha hpending
    exact hpending ha
  | validate prev curr =>
    rw [hpc] at ha hok
    exact h.prev hok.1 ha
  | loadNext prev curr =>
    rw [hpc] at ha hok
    cases ha
    exact h.guarded _ (.inl hok.2)
  | loadLatest prev curr next =>
    rw [hpc] at ha hok
    exact h.prev hok.1 ha
  | log curr latest =>
    rw [hpc] at ha hok hpending
    rcases ha with rfl | ha
    · exact h.guarded _ (.inl hok)
    · exact hpending ha
  | compare curr next =>
    rw [hpc] at ha hok
    cases ha
    exact h.guarded _ (.inl hok)
  | _ =>
    rw [hpc] at ha
    exact ha.elim

variable [LinearOrder T]

theorem Safe.read (h : Safe s) (hl : Linked s l) (data : T) : Safe { s with reader := s.reader.step s.mem data } := by
  obtain ⟨hguarded, hpending, hok⟩ := h
  obtain ⟨mem, writer, ⟨pc, holderCurr, holderPrev⟩, retired, destroyed⟩ := s
  have hload : ∀ c b, mem.ptr c = some b → ¬ destroyed b := fun c b hb => hl.not_destroyed hb
  cases pc with
  | start => exact ⟨hguarded, fun b hb => hload _ b hb, .inl rfl⟩
  | turn prev curr =>
    cases curr with
    | none => exact ⟨hguarded, fun _ => False.elim, trivial⟩
    | some curr =>
      simp only [Reader.step]
      split
      · exact ⟨hguarded, fun _ => False.elim, trivial⟩
      · exact ⟨hguarded, fun _ => False.elim, hok⟩
  | protect prev curr =>
    refine ⟨?_, fun _ => False.elim, hok, rfl⟩
    rintro b (hb | hb)
    · cases hb
    · exact hguarded b (.inr hb)
  | validate prev curr =>
    obtain ⟨hprev, hcurr⟩ := hok
    simp only [Reader.step]
    split
    · next hv =>
      refine ⟨?_, fun _ => False.elim, hprev, ?_⟩
      · rintro b (hb | hb)
        · obtain ⟨hb, -⟩ := Rec.mk.inj hb
          cases hcurr.symm.trans hb
          exact hload prev curr hv
        · exact hguarded b (.inr hb)
      · change Rec.mk holderCurr.realptr true = _
        rw [show holderCurr.realptr = some curr from hcurr]
    · exact ⟨hguarded, fun _ => False.elim, trivial⟩
  | clear =>
    refine ⟨?_, fun _ => False.elim, trivial⟩
    rintro b (hb | hb)
    · cases hb
    · exact hguarded b (.inr hb)
  | loadNext prev curr => exact ⟨hguarded, fun b hb => hload _ b hb, hok⟩
  | loadLatest prev curr next =>
    simp only [Reader.step]
    split
    · exact ⟨hguarded, hpending, hok.2⟩
    · exact ⟨hguarded, fun b hb => hload _ b hb, hok.2⟩
  | log curr latest => exact ⟨hguarded, fun _ => False.elim, trivial⟩
  | compare curr next =>
    simp only [Reader.step]
    split
    · exact ⟨hguarded, fun _ => False.elim, trivial⟩
    · exact ⟨fun b hb => hguarded b hb.symm, hpending, .inr ⟨curr, rfl, hok⟩⟩
  | done res => exact ⟨hguarded, fun _ => False.elim, trivial⟩

theorem Safe.step {data : T} (h : Safe s) (hl : Linked s l) (hs : CarefulStep data s s') : Safe s' := by
  obtain ⟨hs, hcareful⟩ := hs
  cases hs with
  | destroy a hr hp =>
    refine ⟨?_, ?_, h.ok⟩
    · rintro b hb (rfl | hd)
      · exact hp hb
      · exact h.guarded b hb hd
    · intro b hb hd
      by_cases hd' : s.destroyed b
      · exact h.pending b hb hd'
      · exact hcareful b hd' hd hb
  | read => exact h.read hl data
  | _ => exact ⟨h.guarded, h.pending, h.ok⟩

theorem safe_of_reachable {data : T} (h : Reachable Init (CarefulStep data) s) : (∃ l, Linked s l) ∧ Safe s := by
  apply h.invariant
  · rintro s ⟨hptr, hwriter, hreader, hretired, hdestroyed⟩
    refine ⟨⟨[], hptr _, nofun, nofun, fun c hc => absurd (hptr c) hc, ?_, ?_, fun a ha => absurd ha (hretired a),
      fun a ha => absurd ha (hdestroyed a)⟩, fun a _ => hdestroyed a, fun a _ => hdestroyed a, ?_⟩
    · intro a b hw
      cases hwriter.symm.trans hw
    · intro a ha
      rw [hwriter] at ha
      cases ha
    · rw [hreader]
      trivial
  · rintro s s' - ⟨⟨l, hl⟩, h⟩ hs
    exact ⟨hl.step hs.1, h.step hl hs⟩

theorem reads_not_destroyed {data : T} (h : Reachable Init (CarefulStep data) s) (ha : s.reader.pc.Uses a) :
    ¬ s.destroyed a :=
  (safe_of_reachable h).2.not_destroyed ha

/-- Both nodes are removed. The one that the reader does not protect is destroyed. -/
theorem reads_not_destroyed_removed : ∃ s : State Nat, Reachable Init (CarefulStep 5) s ∧ s.reader.pc.Uses 1 ∧
    s.retired 1 ∧ s.destroyed 0 ∧ ¬ s.destroyed 1 := by
  have h0 : Reachable Init (CarefulStep 5) (⟨⟨fun _ => 0, fun _ => none, 0⟩, .idle, .begin, fun _ => False,
    fun _ => False⟩ :
      State Nat) :=
    Reachable.of_init ⟨fun _ => rfl, rfl, rfl, fun _ => id, fun _ => id⟩
  have h1 := h0.tail ⟨.add _ 1 9 true _ rfl rfl, fun _ _ => False.elim⟩
  have h2 := h1.tail ⟨.add _ 2 5 true _ rfl rfl, fun _ _ => False.elim⟩
  have h3 := h2.tail ⟨.read _, fun _ _ => False.elim⟩
  have h4 := h3.tail ⟨.read _, fun _ _ => False.elim⟩
  have h5 := h4.tail ⟨.read _, fun _ _ => False.elim⟩
  have h6 := h5.tail ⟨.read _, fun _ _ => False.elim⟩
  have h7 := h6.tail ⟨.unlink _ 1 5 1 _ rfl rfl, fun _ _ => False.elim⟩
  have h8 := h7.tail ⟨.clearNext _ 1 rfl, fun _ _ => False.elim⟩
  have h9 := h8.tail ⟨.retire _ 1 rfl, fun _ _ => False.elim⟩
  have h10 := h9.tail ⟨.unlink _ 1 9 0 _ rfl rfl, fun _ _ => False.elim⟩
  have h11 := h10.tail ⟨.clearNext _ 0 rfl, fun _ _ => False.elim⟩
  have h12 := h11.tail ⟨.retire _ 0 rfl, fun _ _ => False.elim⟩
  have h13 := h12.tail ⟨.destroy _ 0 (.inl rfl) (by rintro (h | h) <;> cases h), fun _ _ _ => id⟩
  exact ⟨_, h13, rfl, .inr (.inl rfl), .inl rfl, reads_not_destroyed h13 rfl⟩

/-- The node is removed and destroyed between the load of the head and the comparison. -/
theorem destroyed_read : ¬ ∀ (data : Nat) (s : State Nat), Reachable Init (Step data) s →
    ∀ a, s.reader.pc.Uses a → ¬ s.destroyed a := by
  intro hclaim
  have h0 : Reachable Init (Step 5) (⟨⟨fun _ => 0, fun _ => none, 0⟩, .idle, .begin, fun _ => False, fun _ => False⟩ :
      State Nat) :=
    Reachable.of_init ⟨fun _ => rfl, rfl, rfl, fun _ => id, fun _ => id⟩
  have h1 := h0.tail (.add _ 1 5 true _ rfl rfl)
  have h2 := h1.tail (.read _)
  have h3 := h2.tail (.unlink _ 1 5 0 _ rfl rfl)
  have h4 := h3.tail (.clearNext _ 0 rfl)
  have h5 := h4.tail (.retire _ 0 rfl)
  have h6 := h5.tail (.destroy _ 0 (.inl rfl) (by rintro (h | h) <;> cases h))
  exact hclaim 5 _ h6 0 rfl (.inl rfl)

end Readers

end Wizard.SwmrList
