import Wizard.VectorGrowth

/-! Cells of a concurrent vector stay where they are as long as every table is
installed by a thread whose copy loop and creation loop meet: it creates shards
from the size of the very table it copied. A thread that retries does not, and
replaces shards the winning table had already published. -/

namespace Wizard.Vector

variable {T Tid : Type*} {trivial : Bool} {m : Meta}

/-- The thread about to install a table copied the whole of the table it
replaces, and no more than its creation loop leaves alone. -/
def Aligned (t : Tid) (s : State T Tid) : Prop :=
  ∀ f, s.pc t = .cas f → s.table = f.oldTable → f.oldShardNum = (s.tables f.oldTable).shardNum

/-- The `shard_id + 1` of `ensure` is a number of shards. -/
def Call.Counted (m : Meta) : Call → Prop
  | .ensure index => getShardId m index + 1 < 2 ^ 64
  | _ => True

def Pc.call? : Pc → Option Call
  | .load call | .returned call _ => some call
  | .copy f _ | .create f _ | .cas f | .retire f _ | .discard f _ => some f.call
  | .idle => none

/-- What holds of a thread that is about to make a step in a run in which cells stay. -/
structure Careful (trivial : Bool) (m : Meta) (t : Tid) (s : State T Tid) : Prop where
  aligned : Aligned t s
  inRange : InRange trivial m t s
  counted : ∀ call, s.pc t = .load call → call.Counted m

def CarefulStep [DecidableEq Tid] [Inhabited T] (trivial : Bool) (m : Meta) (s s' : State T Tid) : Prop :=
  ∃ t, Careful trivial m t s ∧ IntStep trivial m t s s'

/-- The table in `_table` has every entry of the tables installed before it. -/
structure Inv (trivial : Bool) (m : Meta) (s : State T Tid) : Prop where
  grown : Grown trivial m s
  agree : ∀ a ∈ s.installed, ∀ id < (s.tables a).shardNum,
    id < (s.tables s.table).shardNum ∧ (s.tables s.table).shards id = (s.tables a).shards id
  counted : ∀ t call, (s.pc t).call? = some call → s.pc t = .load call ∨ call.Counted m

theorem Call.Counted.shardNum_eq {index : BitVec 64} (h : (Call.ensure index).Counted m) :
    (Call.ensure index).shardNum m = getShardId m index + 1 := Nat.mod_eq_of_lt h

section Steps

variable [DecidableEq Tid] [Inhabited T] {s s' : State T Tid} {t : Tid}

/-- A thread goes on with the call that it has loaded the table for. -/
theorem Step.call?_eq (h : Step m t s s') {call : Call} (hc : (s'.pc t).call? = some call) :
    s'.pc t = .load call ∨ (s.pc t).call? = some call := by
  cases h with
  | call call' h =>
    rw [State.setPc_self] at hc ⊢
    exact .inl (congrArg Pc.load (Option.some.inj hc))
  | write shard offset v h =>
    rw [show (State.pc _ t) = _ from h] at hc
    cases hc
  | finish call' table h =>
    rw [State.setPc_self] at hc
    cases hc
  | loadEnough call' h | loadGrow call' h | copy f i h | copied f i h | create f i h | created f i h | casOk f h
  | casFail f h | retire f old h | discard f i h | yield f i h | retry f i h =>
    rw [State.setPc_self] at hc
    rw [h]
    exact .inr hc

theorem Inv.step (hi : Inv trivial m s) (h : CarefulStep trivial m s s') : Inv trivial m s' ∧ Extends s s' := by
  obtain ⟨t, hcare, hs⟩ := h
  obtain ⟨hg, hext⟩ := hi.grown.step ⟨t, hcare.inRange, hs⟩
  cases hs with
  | overflow hd => exact absurd hd (hi.grown.countable.not_overflows hi.grown.tables t)
  | step hd hs =>
    refine ⟨⟨hg, ?_, ?_⟩, hext⟩
    · rcases hs.installed_cases with ⟨htable, hinst⟩ | ⟨f, hpc, he, rfl⟩
      · intro a ha
        rw [hinst] at ha
        rw [htable, (hext a ha).2, (hext _ hi.grown.tables.current).2]
        exact hi.agree a ha
      · obtain ⟨hf, hsize, hkept, hfilled⟩ : ThreadOk m s (.cas f) := hpc ▸ hi.grown.tables.thread t
        have hfirst := hcare.aligned f hpc he
        intro a ha id hid
        rcases List.mem_cons.mp ha with rfl | ha
        · exact ⟨hid, rfl⟩
        · obtain ⟨hlt, heq⟩ := hi.agree a ha id hid
          rw [he] at hlt heq
          refine ⟨?_, (hkept id (hfirst ▸ hlt)).trans heq⟩
          change id < (s.tables f.newTable).shardNum
          rw [hf.size]
          omega
    · intro u call hu
      by_cases hut : u = t
      · subst hut
        rcases hs.call?_eq hu with hl | hc
        · exact .inl hl
        · exact .inr ((hi.counted u call hc).elim (hcare.counted call) id)
      · rw [hs.pc_of_ne hut] at hu ⊢
        exact hi.counted u call hu

omit [DecidableEq Tid] [Inhabited T] in
theorem inv_init (h : init s) : Inv trivial m s := by
  refine ⟨grown_init h, ?_, ?_⟩
  · obtain ⟨-, hempty, -, -, hinst, -⟩ := h
    simp [hinst, hempty, emptyTable]
  · obtain ⟨-, -, -, -, -, -, -, hpc⟩ := h
    simp [hpc, Pc.call?]

theorem reachable_inv (h : Reachable init (CarefulStep trivial m) s) : Inv trivial m s := by
  apply h.invariant
  · intro s hs
    exact inv_init hs
  · intro s s' _ hi hs
    exact (hi.step hs).1

theorem Inv.run (hi : Inv trivial m s) (hr : Relation.ReflTransGen (CarefulStep trivial m) s s') :
    Inv trivial m s' ∧ Extends s s' := by
  induction hr with
  | refl => exact ⟨hi, fun a ha => ⟨ha, rfl⟩⟩
  | tail _ hs ih =>
    obtain ⟨hi', hext⟩ := ih
    obtain ⟨hi'', hext'⟩ := hi'.step hs
    refine ⟨hi'', fun a ha => ?_⟩
    obtain ⟨h1, h2⟩ := hext a ha
    exact ⟨(hext' a h1).1, (hext' a h1).2.trans h2⟩

omit [DecidableEq Tid] [Inhabited T] in
/-- The table that `ensure` returns has the shard of its index. -/
theorem Inv.returned (hi : Inv trivial m s) {index : BitVec 64} {a : Nat} (h : s.pc t = .returned (.ensure index) a) :
    a ∈ s.installed ∧ getShardId m index < (s.tables a).shardNum := by
  obtain ⟨ha, hsize⟩ : ThreadOk m s (.returned (.ensure index) a) := h ▸ hi.grown.tables.thread t
  refine ⟨ha, ?_⟩
  rcases hi.counted t (.ensure index) (by rw [h]; rfl) with hl | hc
  · cases h.symm.trans hl
  · rw [hc.shardNum_eq] at hsize
    exact hsize

end Steps

end Wizard.Vector
