import Wizard.VectorSequential
import Wizard.VectorStable

/-! Growth under contention. A thread that loses the race destroys the shards it created and no
others, and a table that has left `_table` is retired once. The loops count with an `int`, and
after an overflow any state may follow. -/

namespace Wizard.Vector

variable {T Tid : Type*} {m : Meta}

/-- The loop has counted up to `INT_MAX` and goes on, or the loop over the values of its shard will. -/
def Pc.Overflows (trivial : Bool) (m : Meta) (s : State T Tid) : Pc → Prop
  | .copy f i => i < (s.tables f.oldTable).shardNum ∧ 2 ^ 31 ≤ i + 1
  | .create f i | .discard f i =>
    i < f.shardNum ∧ (2 ^ 31 ≤ i + 1 ∨ trivial = false ∧ 2 ^ 31 ≤ m.numPerShard.toNat)
  | _ => False

/-- The table of the thread, and where the entries begin and end that it has created and has not
installed or destroyed. -/
def Pc.created : Pc → Nat × Nat × Nat
  | .create f i => (f.newTable, f.oldShardNum, i)
  | .cas f => (f.newTable, f.oldShardNum, f.shardNum)
  | .discard f i => (f.newTable, i, f.shardNum)
  | _ => (0, 0, 0)

def Pc.Owns (s : State T Tid) (pc : Pc) (j shard : Nat) : Prop :=
  pc.created.2.1 ≤ j ∧ j < pc.created.2.2 ∧ (s.tables pc.created.1).shards j = some shard

/-- The table that a thread has taken out of `_table` and is about to retire. -/
def Pc.retiring : Pc → Option Nat
  | .retire _ old => some old
  | _ => none

/-- The entries are there, and no two are the same shard. -/
def Table.Whole (a : Table) : Prop :=
  ∀ i < a.shardNum, (a.shards i).isSome = true ∧ ∀ j < a.shardNum, a.shards i = a.shards j → i = j

def Table.Has (a : Table) (shard : Nat) : Prop := ∃ id < a.shardNum, a.shards id = some shard

/-- The table has been retired, or one thread is about to. -/
def State.RetiredOnce (s : State T Tid) (a : Nat) : Prop :=
  s.retired.count a = 1 ∧ (∀ t, (s.pc t).retiring ≠ some a) ∨
    s.retired.count a = 0 ∧ ∃! t, (s.pc t).retiring = some a

section Steps

variable [DecidableEq Tid] [Inhabited T]

inductive IntStep (trivial : Bool) (m : Meta) (t : Tid) : State T Tid → State T Tid → Prop
  | step (s s') (hd : ¬ (s.pc t).Overflows trivial m s) (h : Step m t s s') : IntStep trivial m t s s'
  | overflow (s s') (hd : (s.pc t).Overflows trivial m s) : IntStep trivial m t s s'

def AnyIntStep (trivial : Bool) (m : Meta) (s s' : State T Tid) : Prop := ∃ t, IntStep trivial m t s s'

end Steps

/-- If the thread grows the table now, then by loops that can count that far. -/
def InRange (trivial : Bool) (m : Meta) (t : Tid) (s : State T Tid) : Prop :=
  ∀ call, s.pc t = .load call → (s.tables s.table).shardNum < call.shardNum m →
    call.shardNum m < 2 ^ 31 ∧ (trivial = true ∨ m.numPerShard.toNat < 2 ^ 31)

section Frames

variable {s s' : State T Tid} {pc : Pc} {j x : Nat}

theorem Pc.Owns.building (h : pc.Owns s j x) :
    ∃ a, pc.building = some a ∧ pc.created.1 = a ∧ (s.tables a).shards j = some x := by
  obtain ⟨hge, hlt, hx⟩ := h
  cases pc with
  | create f i => exact ⟨_, rfl, rfl, hx⟩
  | cas f => exact ⟨_, rfl, rfl, hx⟩
  | discard f i => exact ⟨_, rfl, rfl, hx⟩
  | _ => exact absurd hlt (Nat.not_lt_zero _)

theorem Pc.Owns.of_tables (h : pc.Owns s' j x)
    (he : ∀ a, pc.building = some a → s'.tables a = s.tables a) : pc.Owns s j x := by
  obtain ⟨a, hb, ha, hx⟩ := h.building
  exact ⟨h.1, h.2.1, by rw [ha, ← he a hb, hx]⟩

theorem Pc.not_owns (h : pc.created.2.2 = 0) : ¬ pc.Owns s j x := by
  rintro ⟨-, hlt, -⟩
  rw [h] at hlt
  exact Nat.not_lt_zero j hlt

variable [DecidableEq Tid]

theorem State.setPc_self (s : State T Tid) (t : Tid) (pc : Pc) : (s.setPc t pc).pc t = pc :=
  Function.update_self ..

theorem State.setPc_of_ne (s : State T Tid) {t u : Tid} (pc : Pc) (h : u ≠ t) : (s.setPc t pc).pc u = s.pc u :=
  Function.update_of_ne h ..

variable [Inhabited T] {t u : Tid}

theorem Step.pc_of_ne (h : Step m t s s') (hu : u ≠ t) : s'.pc u = s.pc u := by
  cases h with
  | write shard offset v h => rfl
  | discard f i h hi => rw [State.setPc_of_ne _ _ hu, State.deleteShard_pc]
  | _ => exact State.setPc_of_ne _ _ hu

/-- A thread writes no table but the one it builds. -/
theorem TablesOk.tables_of_ne (hi : TablesOk m s) (h : Step m t s s') (hu : u ≠ t) {a : Nat}
    (ha : (s.pc u).building = some a) : s'.tables a = s.tables a := by
  have hne : ∀ f : Frame, (s.pc t).building = some f.newTable → a ≠ f.newTable := by
    rintro f hf rfl
    exact hu (hi.apart u t _ ha hf)
  cases h with
  | loadGrow call h hn =>
    have := ((hi.thread u).unpublished ha).2
    simp [State.setPc, State.allocTable, show a ≠ s.nextTable by omega]
  | copy f i h hlt => simp [State.setPc, State.setShard, hne f (by rw [h]; rfl)]
  | create f i h hlt => simp [State.setPc, State.setShard, State.createShard, hne f (by rw [h]; rfl)]
  | discard f i h hlt => simp [State.setPc]
  | _ => rfl

end Frames

/-- No shard is in use twice, and none in use is destroyed. -/
structure ShardsOk (s : State T Tid) : Prop where
  distinct : ∀ a ∈ s.installed, ∀ i < (s.tables a).shardNum, ∀ j < (s.tables a).shardNum,
    (s.tables a).shards i = (s.tables a).shards j → i = j
  live : ∀ a ∈ s.installed, ∀ x, (s.tables a).Has x → x < s.nextShard ∧ s.destroyed x = false
  own : ∀ t j x, (s.pc t).Owns s j x → x < s.nextShard ∧ s.destroyed x = false ∧
    ∀ a ∈ s.installed, ¬ (s.tables a).Has x
  once : ∀ t u j k x, (s.pc t).Owns s j x → (s.pc u).Owns s k x → t = u ∧ j = k
  unborn : ∀ x, s.nextShard ≤ x → s.destroyed x = false

section Shards

variable [DecidableEq Tid] [Inhabited T] {s s' : State T Tid} {t : Tid}

/-- A step that creates, installs and destroys nothing. -/
theorem ShardsOk.quiet (hs : ShardsOk s) (hi : TablesOk m s) (h : Step m t s s') (hinst : s'.installed = s.installed)
    (hnext : s'.nextShard = s.nextShard) (hd : s'.destroyed = s.destroyed)
    (hown : ∀ j x, (s'.pc t).Owns s' j x → (s.pc t).Owns s j x) : ShardsOk s' := by
  have hown' : ∀ u j x, (s'.pc u).Owns s' j x → (s.pc u).Owns s j x := by
    intro u j x hu
    by_cases hut : u = t
    · subst hut
      exact hown j x hu
    · rw [h.pc_of_ne hut] at hu
      exact hu.of_tables fun a ha => hi.tables_of_ne h hut ha
  have htables : ∀ a ∈ s'.installed, a ∈ s.installed ∧ s'.tables a = s.tables a := by
    intro a ha
    rw [hinst] at ha
    exact ⟨ha, (hi.extends h a ha).2⟩
  refine ⟨?_, ?_, ?_, ?_, ?_⟩
  · intro a ha
    obtain ⟨ha, he⟩ := htables a ha
    rw [he]
    exact hs.distinct a ha
  · intro a ha x hx
    obtain ⟨ha, he⟩ := htables a ha
    rw [he] at hx
    rw [hnext, hd]
    exact hs.live a ha x hx
  · intro u j x hu
    obtain ⟨hlt, hlive, hnot⟩ := hs.own u j x (hown' u j x hu)
    rw [hnext, hd]
    refine ⟨hlt, hlive, fun a ha => ?_⟩
    obtain ⟨ha, he⟩ := htables a ha
    rw [he]
    exact hnot a ha
  · intro u v j k x hu hv
    exact hs.once u v j k x (hown' u j x hu) (hown' v k x hv)
  · rw [hnext, hd]
    exact hs.unborn

theorem ShardsOk.quiet_none (hs : ShardsOk s) (hi : TablesOk m s) (h : Step m t s s')
    (hinst : s'.installed = s.installed) (hnext : s'.nextShard = s.nextShard) (hd : s'.destroyed = s.destroyed)
    (hpc : (s'.pc t).created.2.2 = 0) : ShardsOk s' :=
  hs.quiet hi h hinst hnext hd fun _ _ hu => absurd hu (Pc.not_owns hpc)

theorem ShardsOk.create (hs : ShardsOk s) (hi : TablesOk m s) {f : Frame} {i : Nat} (h : s.pc t = .create f i)
    (hlt : i < f.shardNum) :
    ShardsOk ((s.createShard.setShard f.newTable i (some s.nextShard)).setPc t (.create f (i + 1))) := by
  have hstep := Step.create (m := m) s f i h hlt
  obtain ⟨s', hs'⟩ : ∃ s', s' =
    (s.createShard.setShard f.newTable i (some s.nextShard)).setPc t (.create f (i + 1)) := ⟨_, rfl⟩
  rw [← hs'] at hstep ⊢
  have hinst : s'.installed = s.installed := by rw [hs']; rfl
  have hnext : s'.nextShard = s.nextShard + 1 := by rw [hs']; rfl
  have hd : s'.destroyed = s.destroyed := by rw [hs']; rfl
  have htables : ∀ a ∈ s.installed, s'.tables a = s.tables a := fun a ha => (hi.extends hstep a ha).2
  -- the one shard more is the new one
  have hown : ∀ u j x, (s'.pc u).Owns s' j x → (s.pc u).Owns s j x ∨ u = t ∧ j = i ∧ x = s.nextShard := by
    intro u j x hu
    by_cases hut : u = t
    · subst hut
      rw [hs', State.setPc_self] at hu
      obtain ⟨hge, hj, hx⟩ := hu
      have hx' : ((s.tables f.newTable).setShard i (some s.nextShard)).shards j = some x := by
        simpa [Pc.created, State.setPc, State.setShard, State.createShard] using hx
      rw [Table.setShard_shards] at hx'
      split_ifs at hx' with hji
      · exact .inr ⟨rfl, hji, (Option.some.inj hx').symm⟩
      · have hj' : j < i + 1 := hj
        left
        rw [h]
        exact ⟨hge, show j < i by omega, hx'⟩
    · rw [hstep.pc_of_ne hut] at hu
      exact .inl (hu.of_tables fun a ha => hi.tables_of_ne hstep hut ha)
  refine ⟨?_, ?_, ?_, ?_, ?_⟩
  · intro a ha
    rw [hinst] at ha
    rw [htables a ha]
    exact hs.distinct a ha
  · intro a ha x hx
    rw [hinst] at ha
    rw [htables a ha] at hx
    obtain ⟨hx', hlive⟩ := hs.live a ha x hx
    exact ⟨by omega, by rw [hd, hlive]⟩
  · intro u j x hu
    rw [hinst, hd, hnext]
    rcases hown u j x hu with hu | ⟨rfl, rfl, rfl⟩
    · obtain ⟨hx, hlive, hnot⟩ := hs.own u j x hu
      refine ⟨by omega, hlive, fun a ha => ?_⟩
      rw [htables a ha]
      exact hnot a ha
    · refine ⟨Nat.lt_succ_self _, hs.unborn _ le_rfl, fun a ha hx => ?_⟩
      rw [htables a ha] at hx
      exact absurd (hs.live a ha _ hx).1 (lt_irrefl _)
  · intro u v j k x hu hv
    rcases hown u j x hu with hu | ⟨rfl, rfl, rfl⟩
    · rcases hown v k x hv with hv | ⟨rfl, rfl, rfl⟩
      · exact hs.once u v j k x hu hv
      · exact absurd (hs.own u j _ hu).1 (lt_irrefl _)
    · rcases hown v k _ hv with hv | ⟨rfl, rfl, -⟩
      · exact absurd (hs.own v k _ hv).1 (lt_irrefl _)
      · exact ⟨rfl, rfl⟩
  · intro x hx
    rw [hd]
    exact hs.unborn x (by omega)

omit [Inhabited T] in
theorem ShardsOk.install (hs : ShardsOk s) (hi : TablesOk m s) {f : Frame} (h : s.pc t = .cas f) :
    ShardsOk ({ s with table := f.newTable, installed := f.newTable :: s.installed }.setPc t
      (.retire f f.oldTable)) := by
  obtain ⟨hf, hsize, hkept, hfilled⟩ : ThreadOk m s (.cas f) := h ▸ hi.thread t
  -- an entry is one of the old table or one that the thread created
  have hentry : ∀ id x, id < (s.tables f.newTable).shardNum → (s.tables f.newTable).shards id = some x →
      (id < (s.tables f.oldTable).shardNum ∧ (s.tables f.oldTable).shards id = some x) ∨ (s.pc t).Owns s id x := by
    intro id x hid hx
    by_cases hold : id < f.oldShardNum
    · exact .inl ⟨hold.trans_le hf.first, by rw [← hkept id hold, hx]⟩
    · right
      rw [h]
      exact ⟨not_lt.1 hold, show id < f.shardNum from hf.size ▸ hid, hx⟩
  have hown : ∀ u j x, (({ s with table := f.newTable, installed := f.newTable :: s.installed }.setPc t
      (.retire f f.oldTable)).pc u).Owns s j x → u ≠ t ∧ (s.pc u).Owns s j x := by
    intro u j x hu
    by_cases hut : u = t
    · rw [hut, State.setPc_self] at hu
      exact absurd hu (Pc.not_owns rfl)
    · rw [State.setPc_of_ne _ _ hut] at hu
      exact ⟨hut, hu⟩
  refine ⟨?_, ?_, ?_, ?_, hs.unborn⟩
  · intro a ha i hi' j hj heq
    rcases List.mem_cons.1 ha with rfl | ha
    · have hsome : ∃ x, (s.tables f.newTable).shards i = some x := by
        by_cases hold : i < f.oldShardNum
        · rw [hkept i hold]
          exact Option.isSome_iff_exists.1 (hi.complete _ hf.source i (hold.trans_le hf.first))
        · exact Option.isSome_iff_exists.1 (hfilled i (not_lt.1 hold) (hf.size ▸ hi'))
      obtain ⟨x, hx⟩ := hsome
      have hx' : (s.tables f.newTable).shards j = some x := heq ▸ hx
      rcases hentry i x hi' hx with ⟨hio, hxo⟩ | hown₁
      · rcases hentry j x hj hx' with ⟨hjo, hxo'⟩ | hown₂
        · exact hs.distinct _ hf.source i hio j hjo (hxo.trans hxo'.symm)
        · exact absurd ⟨i, hio, hxo⟩ ((hs.own t j x hown₂).2.2 _ hf.source)
      · rcases hentry j x hj hx' with ⟨hjo, hxo'⟩ | hown₂
        · exact absurd ⟨j, hjo, hxo'⟩ ((hs.own t i x hown₁).2.2 _ hf.source)
        · exact (hs.once t t i j x hown₁ hown₂).2
    · exact hs.distinct a ha i hi' j hj heq
  · rintro a ha x ⟨id, hid, hx⟩
    rcases List.mem_cons.1 ha with rfl | ha
    · rcases hentry id x hid hx with hold | hown₁
      · exact hs.live _ hf.source x ⟨id, hold⟩
      · obtain ⟨hlt, hlive, -⟩ := hs.own t id x hown₁
        exact ⟨hlt, hlive⟩
    · exact hs.live a ha x ⟨id, hid, hx⟩
  · intro u j x hu
    obtain ⟨hut, hu⟩ := hown u j x hu
    obtain ⟨hlt, hlive, hnot⟩ := hs.own u j x hu
    refine ⟨hlt, hlive, fun a ha => ?_⟩
    rcases List.mem_cons.1 ha with rfl | ha
    · rintro ⟨id, hid, hx⟩
      rcases hentry id x hid hx with hold | hown₁
      · exact hnot _ hf.source ⟨id, hold⟩
      · exact hut (hs.once u t j id x hu hown₁).1
    · exact hnot a ha
  · intro u v j k x hu hv
    exact hs.once u v j k x (hown u j x hu).2 (hown v k x hv).2

theorem ShardsOk.discard (hs : ShardsOk s) (hi : TablesOk m s) {f : Frame} {i : Nat} (h : s.pc t = .discard f i)
    (hlt : i < f.shardNum) :
    ShardsOk ((s.deleteShard ((s.tables f.newTable).shards i)).setPc t (.discard f (i + 1))) := by
  have hown : ∀ u j x, (((s.deleteShard ((s.tables f.newTable).shards i)).setPc t (.discard f (i + 1))).pc u).Owns
      ((s.deleteShard ((s.tables f.newTable).shards i)).setPc t (.discard f (i + 1))) j x →
        (s.pc u).Owns s j x ∧ (u = t → i < j) := by
    intro u j x hu
    have hu' := hu.of_tables (s := s) fun a _ => by simp [State.setPc]
    by_cases hut : u = t
    · subst hut
      rw [State.setPc_self] at hu'
      obtain ⟨hge, hj, hx⟩ := hu'
      have hge' : i + 1 ≤ j := hge
      rw [h]
      exact ⟨⟨show i ≤ j by omega, hj, hx⟩, fun _ => by omega⟩
    · rw [State.setPc_of_ne _ _ hut, State.deleteShard_pc] at hu'
      exact ⟨hu', fun he => absurd he hut⟩
  cases hx : (s.tables f.newTable).shards i with
  | none =>
    rw [← hx]
    refine hs.quiet hi (Step.discard s f i h hlt) (by simp [State.setPc]) (by simp [State.setPc]) ?_
      fun j x hu => (hown t j x hu).1
    rw [hx]
    rfl
  | some y =>
    have hy : (s.pc t).Owns s i y := by
      rw [h]
      exact ⟨le_rfl, hlt, hx⟩
    obtain ⟨hylt, -, hynot⟩ := hs.own t i y hy
    rw [hx] at hown
    have hother : ∀ x, x ≠ y → s.destroyed x = false → Function.update s.destroyed y true x = false := by
      intro x hne hd
      rw [Function.update_of_ne hne, hd]
    refine ⟨hs.distinct, ?_, ?_, ?_, ?_⟩
    · intro a ha x hx
      obtain ⟨hlt, hlive⟩ := hs.live a ha x hx
      refine ⟨hlt, hother x ?_ hlive⟩
      rintro rfl
      exact hynot a ha hx
    · intro u j x hux
      obtain ⟨hu, hij⟩ := hown u j x hux
      obtain ⟨hlt, hlive, hnot⟩ := hs.own u j x hu
      refine ⟨hlt, hother x ?_ hlive, hnot⟩
      rintro rfl
      obtain ⟨hut, hji⟩ := hs.once u t j i x hu hy
      exact absurd (hij hut) (by omega)
    · intro u v j k x hu hv
      exact hs.once u v j k x (hown u j x hu).1 (hown v k x hv).1
    · intro x hxn
      refine hother x ?_ (hs.unborn x hxn)
      rintro rfl
      have hxn' : s.nextShard ≤ x := hxn
      omega

theorem ShardsOk.step (hs : ShardsOk s) (hi : TablesOk m s) (h : Step m t s s') : ShardsOk s' := by
  have hstep := h
  cases h with
  | create f i h hlt => exact hs.create hi h hlt
  | casOk f h he => exact hs.install hi h
  | discard f i h hlt => exact hs.discard hi h hlt
  | copied f i h hge =>
    refine hs.quiet hi hstep rfl rfl rfl fun j x hu => ?_
    rw [State.setPc_self] at hu
    exact absurd hu.2.1 (not_lt.2 hu.1)
  | created f i h hge =>
    refine hs.quiet hi hstep rfl rfl rfl fun j x hu => ?_
    rw [State.setPc_self] at hu
    rw [h]
    exact ⟨hu.1, hu.2.1.trans_le hge, hu.2.2⟩
  | casFail f h he =>
    refine hs.quiet hi hstep rfl rfl rfl fun j x hu => ?_
    rw [State.setPc_self] at hu
    rw [h]
    exact hu
  | write shard offset v h => exact hs.quiet_none hi hstep rfl rfl rfl (by rw [h]; rfl)
  | _ => exact hs.quiet_none hi hstep rfl rfl rfl (by rw [State.setPc_self]; rfl)

end Shards

structure RetiredOk (s : State T Tid) : Prop where
  nodup : s.retired.Nodup
  left : ∀ a ∈ s.retired, a ∈ s.installed ∧ a ≠ s.table
  pending : ∀ t a, (s.pc t).retiring = some a → a ∈ s.installed ∧ a ≠ s.table ∧ a ∉ s.retired
  apart : ∀ t u a, (s.pc t).retiring = some a → (s.pc u).retiring = some a → t = u
  cover : ∀ a ∈ s.installed, a ≠ s.table → a ∈ s.retired ∨ ∃ t, (s.pc t).retiring = some a

section Retired

variable {s s' : State T Tid} {t : Tid}

theorem RetiredOk.once (hr : RetiredOk s) {a : Nat} (ha : a ∈ s.installed) (hne : a ≠ s.table) :
    s.RetiredOnce a := by
  by_cases hmem : a ∈ s.retired
  · exact .inl ⟨List.count_eq_one_of_mem hr.nodup hmem, fun t ht => (hr.pending t a ht).2.2 hmem⟩
  · obtain ⟨t, ht⟩ := (hr.cover a ha hne).resolve_left hmem
    exact .inr ⟨List.count_eq_zero_of_not_mem hmem, t, ht, fun u hu => hr.apart u t a hu ht⟩

theorem RetiredOk.quiet (hr : RetiredOk s) (htable : s'.table = s.table) (hinst : s'.installed = s.installed)
    (hret : s'.retired = s.retired) (hpc : ∀ u, (s'.pc u).retiring = (s.pc u).retiring) : RetiredOk s' := by
  refine ⟨?_, ?_, ?_, ?_, ?_⟩
  · rw [hret]
    exact hr.nodup
  · rw [hret, hinst, htable]
    exact hr.left
  · intro u a hu
    rw [hinst, htable, hret]
    exact hr.pending u a (hpc u ▸ hu)
  · intro u v a hu hv
    exact hr.apart u v a (hpc u ▸ hu) (hpc v ▸ hv)
  · intro a ha hne
    rw [hinst] at ha
    rw [htable] at hne
    rw [hret]
    obtain hmem | ⟨u, hu⟩ := hr.cover a ha hne
    · exact .inl hmem
    · exact .inr ⟨u, (hpc u).trans hu⟩

variable [DecidableEq Tid]

theorem RetiredOk.install (hr : RetiredOk s) (hi : TablesOk m s) {f : Frame} (h : s.pc t = .cas f)
    (he : s.table = f.oldTable) :
    RetiredOk ({ s with table := f.newTable, installed := f.newTable :: s.installed }.setPc t
      (.retire f f.oldTable)) := by
  obtain ⟨hf, -⟩ : ThreadOk m s (.cas f) := h ▸ hi.thread t
  have hne : ∀ a ∈ s.installed, a ≠ f.newTable := fun a ha he => hf.unpublished (he ▸ ha)
  have hpc : ∀ u a, ((({ s with table := f.newTable, installed := f.newTable :: s.installed } : State T Tid).setPc t
      (.retire f f.oldTable)).pc u).retiring = some a → (u = t ∧ a = s.table) ∨ (s.pc u).retiring = some a := by
    intro u a hu
    by_cases hut : u = t
    · rw [hut, State.setPc_self] at hu
      exact .inl ⟨hut, by rw [he]; exact (Option.some.inj hu).symm⟩
    · rw [State.setPc_of_ne _ _ hut] at hu
      exact .inr hu
  have hcur : ∀ u, (s.pc u).retiring ≠ some s.table := fun u hu => (hr.pending u _ hu).2.1 rfl
  refine ⟨hr.nodup, ?_, ?_, ?_, ?_⟩
  · intro a ha
    exact ⟨List.mem_cons_of_mem _ (hr.left a ha).1, hne a (hr.left a ha).1⟩
  · intro u a hu
    rcases hpc u a hu with ⟨rfl, rfl⟩ | hu
    · exact ⟨List.mem_cons_of_mem _ hi.current, hne _ hi.current, fun hmem => (hr.left _ hmem).2 rfl⟩
    · obtain ⟨ha, -, hmem⟩ := hr.pending u a hu
      exact ⟨List.mem_cons_of_mem _ ha, hne a ha, hmem⟩
  · intro u v a hu hv
    rcases hpc u a hu with ⟨rfl, rfl⟩ | hu₁
    · rcases hpc v _ hv with ⟨rfl, -⟩ | hv₁
      · rfl
      · exact absurd hv₁ (hcur v)
    · rcases hpc v a hv with ⟨rfl, rfl⟩ | hv₁
      · exact absurd hu₁ (hcur u)
      · exact hr.apart u v a hu₁ hv₁
  · intro a ha hnew
    rcases List.mem_cons.1 ha with rfl | ha
    · exact absurd rfl hnew
    · by_cases hold : a = s.table
      · exact .inr ⟨t, by rw [State.setPc_self, hold, he]; rfl⟩
      · obtain hmem | ⟨u, hu⟩ := hr.cover a ha hold
        · exact .inl hmem
        · have hut : u ≠ t := by
            rintro rfl
            rw [h] at hu
            cases hu
          exact .inr ⟨u, by rwa [State.setPc_of_ne _ _ hut]⟩

theorem RetiredOk.retire (hr : RetiredOk s) {f : Frame} {old : Nat} (h : s.pc t = .retire f old) :
    RetiredOk ({ s with retired := old :: s.retired }.setPc t (.returned f.call f.newTable)) := by
  have ht : (s.pc t).retiring = some old := by
    rw [h]
    rfl
  obtain ⟨hold, hne, hmem⟩ := hr.pending t old ht
  have hpc : ∀ u a, ((({ s with retired := old :: s.retired } : State T Tid).setPc t
      (.returned f.call f.newTable)).pc u).retiring = some a → u ≠ t ∧ (s.pc u).retiring = some a := by
    intro u a hu
    by_cases hut : u = t
    · rw [hut, State.setPc_self] at hu
      cases hu
    · rw [State.setPc_of_ne _ _ hut] at hu
      exact ⟨hut, hu⟩
  refine ⟨List.nodup_cons.2 ⟨hmem, hr.nodup⟩, ?_, ?_, ?_, ?_⟩
  · intro a ha
    rcases List.mem_cons.1 ha with rfl | ha
    · exact ⟨hold, hne⟩
    · exact hr.left a ha
  · intro u a hu
    obtain ⟨hut, hu₁⟩ := hpc u a hu
    obtain ⟨ha, ha', hmem'⟩ := hr.pending u a hu₁
    refine ⟨ha, ha', fun hmem => ?_⟩
    rcases List.mem_cons.1 hmem with rfl | hmem
    · exact hut (hr.apart u t a hu₁ ht)
    · exact hmem' hmem
  · intro u v a hu hv
    exact hr.apart u v a (hpc u a hu).2 (hpc v a hv).2
  · intro a ha ha'
    obtain hmem | ⟨u, hu⟩ := hr.cover a ha ha'
    · exact .inl (List.mem_cons_of_mem _ hmem)
    · by_cases hut : u = t
      · rw [hut, ht] at hu
        rw [← Option.some.inj hu]
        exact .inl List.mem_cons_self
      · exact .inr ⟨u, by rwa [State.setPc_of_ne _ _ hut]⟩

variable [Inhabited T]

theorem RetiredOk.step (hr : RetiredOk s) (hi : TablesOk m s) (h : Step m t s s') : RetiredOk s' := by
  have hpc : (s'.pc t).retiring = (s.pc t).retiring → ∀ u, (s'.pc u).retiring = (s.pc u).retiring := by
    intro ht u
    by_cases hut : u = t
    · rw [hut, ht]
    · rw [h.pc_of_ne hut]
  cases h with
  | casOk f h he => exact hr.install hi h he
  | retire f old h => exact hr.retire h
  | discard f i h hlt =>
    exact hr.quiet (by simp [State.setPc]) (by simp [State.setPc]) (by simp [State.setPc])
      (hpc (by rw [State.setPc_self, h]; rfl))
  | write shard offset v h => exact hr.quiet rfl rfl rfl (hpc rfl)
  | call call h | loadEnough call h | loadGrow call h | copy f i h | copied f i h | create f i h | created f i h
  | casFail f h | yield f i h | retry f i h | finish call table h =>
    exact hr.quiet rfl rfl rfl (hpc (by rw [State.setPc_self, h]; rfl))

end Retired

/-- The loops over the tables there are, and over those being built, can count to their end. -/
structure Countable (trivial : Bool) (m : Meta) (s : State T Tid) : Prop where
  installed : ∀ a ∈ s.installed, (s.tables a).shardNum < 2 ^ 31
  building : ∀ t a, (s.pc t).building = some a →
    (s.tables a).shardNum < 2 ^ 31 ∧ (trivial = true ∨ m.numPerShard.toNat < 2 ^ 31)

section Countable

variable {trivial : Bool} {s s' : State T Tid} {t : Tid}

theorem Countable.not_overflows (hc : Countable trivial m s) (hi : TablesOk m s) (t : Tid) :
    ¬ (s.pc t).Overflows trivial m s := by
  have hok := hi.thread t
  have hvalues : ∀ f i, (s.pc t).building = some f.newTable → FrameOk m s f →
      ¬ (i < f.shardNum ∧ (2 ^ 31 ≤ i + 1 ∨ trivial = false ∧ 2 ^ 31 ≤ m.numPerShard.toNat)) := by
    rintro f i hb hf ⟨hlt, hge⟩
    obtain ⟨hsize, hnum⟩ := hc.building t _ hb
    rw [hf.size] at hsize
    rcases hge with hge | ⟨hfalse, hge⟩
    · omega
    · rcases hnum with htrue | hnum
      · rw [hfalse] at htrue
        cases htrue
      · omega
  intro hov
  cases hpc : s.pc t with
  | copy f i =>
    rw [hpc] at hok hov
    have hsize := hc.installed _ hok.1.source
    have hlt := hov.1
    have hge := hov.2
    omega
  | create f i =>
    rw [hpc] at hok hov
    exact hvalues f i (by rw [hpc]; rfl) hok.1 hov
  | discard f i =>
    rw [hpc] at hok hov
    exact hvalues f i (by rw [hpc]; rfl) hok hov
  | _ =>
    rw [hpc] at hov
    exact hov

variable [DecidableEq Tid] [Inhabited T]

/-- A table that a thread builds keeps its size, which is the one the thread asked for. -/
theorem Step.building_cases (h : Step m t s s') {a : Nat} (ha : (s'.pc t).building = some a) :
    (s.pc t).building = some a ∧ (s'.tables a).shardNum = (s.tables a).shardNum ∨
      ∃ call, s.pc t = .load call ∧ (s.tables s.table).shardNum < call.shardNum m ∧
        (s'.tables a).shardNum = call.shardNum m := by
  have hset : ∀ (s : State T Tid) (table i : Nat) (shard : Option Nat),
      ((s.setShard table i shard).tables a).shardNum = (s.tables a).shardNum := by
    intro s table i shard
    by_cases hat : a = table
    · rw [hat]
      simp [State.setShard]
    · simp [State.setShard, hat]
  cases h with
  | loadGrow call h hn =>
    rw [State.setPc_self] at ha
    have ha' : s.nextTable = a := Option.some.inj ha
    refine .inr ⟨call, h, hn, ?_⟩
    simp [State.setPc, State.allocTable, ha']
  | copy f i h hlt =>
    rw [State.setPc_self] at ha
    rw [h]
    exact .inl ⟨ha, hset ..⟩
  | create f i h hlt =>
    rw [State.setPc_self] at ha
    rw [h]
    exact .inl ⟨ha, hset ..⟩
  | discard f i h hlt =>
    rw [State.setPc_self] at ha
    rw [h]
    exact .inl ⟨ha, by simp [State.setPc]⟩
  | copied f i h | created f i h | casFail f h | retry f i h =>
    rw [State.setPc_self] at ha
    rw [h]
    exact .inl ⟨ha, rfl⟩
  | write shard offset v h =>
    rw [show (State.pc _ t) = _ from h] at ha
    cases ha
  | _ =>
    rw [State.setPc_self] at ha
    cases ha

theorem Countable.step (hc : Countable trivial m s) (hi : TablesOk m s) (hw : InRange trivial m t s)
    (h : Step m t s s') : Countable trivial m s' := by
  refine ⟨?_, ?_⟩
  · intro a ha
    rcases h.installed_cases with ⟨-, hinst⟩ | ⟨f, hpc, -, rfl⟩
    · rw [hinst] at ha
      rw [(hi.extends h a ha).2]
      exact hc.installed a ha
    · rcases List.mem_cons.1 ha with rfl | ha
      · exact (hc.building t _ (by rw [hpc]; rfl)).1
      · exact hc.installed a ha
  · intro u a ha
    by_cases hut : u = t
    · subst hut
      rcases h.building_cases ha with ⟨hb, hsize⟩ | ⟨call, hload, hn, hsize⟩
      · rw [hsize]
        exact hc.building u a hb
      · rw [hsize]
        exact hw call hload hn
    · rw [h.pc_of_ne hut] at ha
      rw [hi.tables_of_ne h hut ha]
      exact hc.building u a ha

end Countable

/-- The steps of runs in which no thread asks for more than its loops can count. -/
def InRangeStep [DecidableEq Tid] [Inhabited T] (trivial : Bool) (m : Meta) (s s' : State T Tid) : Prop :=
  ∃ t, InRange trivial m t s ∧ IntStep trivial m t s s'

structure Grown (trivial : Bool) (m : Meta) (s : State T Tid) : Prop where
  tables : TablesOk m s
  shards : ShardsOk s
  retired : RetiredOk s
  countable : Countable trivial m s

section Runs

variable [DecidableEq Tid] [Inhabited T] {trivial : Bool} {s s' : State T Tid}

theorem Grown.step (hg : Grown trivial m s) (h : InRangeStep trivial m s s') :
    Grown trivial m s' ∧ Extends s s' := by
  obtain ⟨t, hw, hs⟩ := h
  cases hs with
  | step hd hs =>
    exact ⟨⟨hg.tables.step hs, hg.shards.step hg.tables hs, hg.retired.step hg.tables hs,
      hg.countable.step hg.tables hw hs⟩, hg.tables.extends hs⟩
  | overflow hd => exact absurd hd (hg.countable.not_overflows hg.tables t)

omit [DecidableEq Tid] [Inhabited T] in
theorem grown_init (h : init s) : Grown trivial m s := by
  have hi := tablesOk_init (m := m) h
  obtain ⟨htable, hempty, -, -, hinst, hret, hd, hpc⟩ := h
  have hown : ∀ t j x, ¬ (s.pc t).Owns s j x := by
    intro t j x
    rw [hpc t]
    exact Pc.not_owns rfl
  refine ⟨hi, ⟨?_, ?_, ?_, ?_, fun x _ => hd x⟩, ⟨?_, ?_, ?_, ?_, ?_⟩, ⟨?_, ?_⟩⟩
  · simp [hinst, hempty, emptyTable]
  · simp [hinst, hempty, emptyTable, Table.Has]
  · exact fun t j x hu => absurd hu (hown t j x)
  · exact fun t u j k x hu => absurd hu (hown t j x)
  · simp [hret]
  · simp [hret]
  · simp [hpc, Pc.retiring]
  · simp [hpc, Pc.retiring]
  · simp [hinst, htable]
  · simp [hinst, hempty, emptyTable]
  · simp [hpc, Pc.building]

theorem reachable_grown (h : Reachable init (InRangeStep trivial m) s) : Grown trivial m s := by
  apply h.invariant
  · intro s hs
    exact grown_init hs
  · intro s s' _ hg hs
    exact (hg.step hs).1

theorem Grown.run (hg : Grown trivial m s) (hr : Relation.ReflTransGen (InRangeStep trivial m) s s') :
    Grown trivial m s' ∧ Extends s s' := by
  induction hr with
  | refl => exact ⟨hg, fun a ha => ⟨ha, rfl⟩⟩
  | tail _ hs ih =>
    obtain ⟨hg', hext⟩ := ih
    obtain ⟨hg'', hext'⟩ := hg'.step hs
    refine ⟨hg'', fun a ha => ?_⟩
    obtain ⟨h1, h2⟩ := hext a ha
    exact ⟨(hext' a h1).1, (hext' a h1).2.trans h2⟩

/-- What holds of growth under contention, from any state of a run to any later one. -/
theorem growth_of_inRange (h : Reachable init (InRangeStep trivial m) s)
    (hr : Relation.ReflTransGen (InRangeStep trivial m) s s') :
    s.table ∈ s'.installed ∧ (s.tables s.table).shardNum ≤ (s'.tables s'.table).shardNum ∧
    (∀ t call a, s'.pc t = .returned call a →
      call.shardNum m ≤ (s'.tables a).shardNum ∧ (s'.tables a).Whole) ∧
    (∀ a ∈ s'.installed, a ≠ s'.table → s'.RetiredOnce a) ∧ s'.table ∉ s'.retired ∧
    ∀ a ∈ s'.installed, ∀ x, (s'.tables a).Has x → s'.destroyed x = false := by
  obtain ⟨hg, hext⟩ := (reachable_grown h).run hr
  obtain ⟨hcur, hsame⟩ := hext _ (reachable_grown h).tables.current
  refine ⟨hcur, ?_, ?_, ?_, ?_, ?_⟩
  · rw [← hsame]
    exact hg.tables.largest _ hcur
  · intro t call a ht
    obtain ⟨ha, hsize⟩ : ThreadOk m s' (.returned call a) := ht ▸ hg.tables.thread t
    exact ⟨hsize, fun i hi => ⟨hg.tables.complete a ha i hi, hg.shards.distinct a ha i hi⟩⟩
  · intro a ha hne
    exact hg.retired.once ha hne
  · intro hmem
    exact (hg.retired.left _ hmem).2 rfl
  · intro a ha x hx
    exact (hg.shards.live a ha x hx).2

theorem inRange_tail {s₀ : State T Tid} {t : Tid} (h : Reachable init (InRangeStep trivial m) s₀)
    (hr : Relation.ReflTransGen (InRangeStep trivial m) s₀ s) (hs : Step m t s s') (hw : InRange trivial m t s) :
    Relation.ReflTransGen (InRangeStep trivial m) s₀ s' := by
  have hg := ((reachable_grown h).run hr).1
  exact hr.tail ⟨t, hw, .step _ _ (hg.countable.not_overflows hg.tables t) hs⟩

end Runs

/-- A thread that wants two shards loses to one that wants one. It destroys the two it made, copies
the shard the winner published and makes two more. -/
theorem exists_retry : ∃ s s' : State Nat Bool, Reachable init (InRangeStep true ⟨1, 0⟩) s ∧
    Relation.ReflTransGen (InRangeStep true ⟨1, 0⟩) s s' ∧ s.Maps 0 0 ∧ s'.Maps 0 3 ∧ s'.table = 1 ∧
    s'.installed = [1, 2, 0] ∧ s'.pc true = .returned (.ensureTable 2) 1 ∧ s'.destroyed 1 = true := by
  have hi : init (⟨0, fun _ => emptyTable, 1, 0, fun _ _ => 0, fun _ => false, [], [0], fun _ => .idle⟩ :
      State Nat Bool) := ⟨rfl, rfl, rfl, rfl, rfl, rfl, fun _ => rfl, fun _ => rfl⟩
  have h : Reachable init (InRangeStep true ⟨1, 0⟩) _ := .of_init hi
  have h₁ := inRange_tail h .refl (.call (t := true) _ (.ensureTable 2) rfl) nofun
  have h₂ := inRange_tail h h₁ (.loadGrow (t := true) _ (.ensureTable 2) rfl (by decide))
    (fun _ hc _ => by obtain rfl := Pc.load.inj hc; exact ⟨by decide, .inl rfl⟩)
  have h₃ := inRange_tail h h₂ (.call (t := false) _ (.ensureTable 1) rfl) nofun
  have h₄ := inRange_tail h h₃ (.loadGrow (t := false) _ (.ensureTable 1) rfl (by decide))
    (fun _ hc _ => by obtain rfl := Pc.load.inj hc; exact ⟨by decide, .inl rfl⟩)
  have h₅ := inRange_tail h h₄ (.copied (t := false) _ _ _ rfl (by decide)) nofun
  have h₆ := inRange_tail h h₅ (.create (t := false) _ _ _ rfl (by decide)) nofun
  have h₇ := inRange_tail h h₆ (.created (t := false) _ _ _ rfl (by decide)) nofun
  have h₈ := inRange_tail h h₇ (.casOk (t := false) _ _ rfl (by decide)) nofun
  have g : Reachable init (InRangeStep true ⟨1, 0⟩) _ := ⟨_, hi, h₈⟩
  have g₁ := inRange_tail g .refl (.copied (t := true) _ _ _ rfl (by decide)) nofun
  have g₂ := inRange_tail g g₁ (.create (t := true) _ _ _ rfl (by decide)) nofun
  have g₃ := inRange_tail g g₂ (.create (t := true) _ _ _ rfl (by decide)) nofun
  have g₄ := inRange_tail g g₃ (.created (t := true) _ _ _ rfl (by decide)) nofun
  have g₅ := inRange_tail g g₄ (.casFail (t := true) _ _ rfl (by decide)) nofun
  have g₆ := inRange_tail g g₅ (.discard (t := true) _ _ _ rfl (by decide)) nofun
  have g₇ := inRange_tail g g₆ (.discard (t := true) _ _ _ rfl (by decide)) nofun
  have g₈ := inRange_tail g g₇ (.retry (t := true) _ _ _ rfl (by decide) (by decide)) nofun
  have g₉ := inRange_tail g g₈ (.copy (t := true) _ _ _ rfl (by decide)) nofun
  have g₁₀ := inRange_tail g g₉ (.copied (t := true) _ _ _ rfl (by decide)) nofun
  have g₁₁ := inRange_tail g g₁₀ (.create (t := true) _ _ _ rfl (by decide)) nofun
  have g₁₂ := inRange_tail g g₁₁ (.create (t := true) _ _ _ rfl (by decide)) nofun
  have g₁₃ := inRange_tail g g₁₂ (.created (t := true) _ _ _ rfl (by decide)) nofun
  have g₁₄ := inRange_tail g g₁₃ (.casOk (t := true) _ _ rfl (by decide)) nofun
  have g₁₅ := inRange_tail g g₁₄ (.retire (t := true) _ _ _ rfl) nofun
  exact ⟨_, _, g, g₁₅, ⟨by decide, by decide⟩, ⟨by decide, by decide⟩, rfl, rfl, rfl, by decide⟩

theorem growth_of_inRange_retry : ∃ s s' : State Nat Bool, Reachable init (InRangeStep true ⟨1, 0⟩) s ∧
    Relation.ReflTransGen (InRangeStep true ⟨1, 0⟩) s s' ∧ s'.pc true = .returned (.ensureTable 2) 1 ∧
    (s'.tables 1).Whole ∧ s'.RetiredOnce 2 ∧ s'.destroyed 1 = true ∧ ¬ (s'.tables 1).Has 1 := by
  obtain ⟨s, s', h, hr, -, -, htable, hinst, hpc, hd⟩ := exists_retry
  obtain ⟨-, -, hret, honce, -, hlive⟩ := growth_of_inRange h hr
  refine ⟨s, s', h, hr, hpc, (hret true _ _ hpc).2, honce 2 (by simp [hinst]) (by simp [htable]), hd, fun hx => ?_⟩
  exact absurd (hlive 1 (by simp [hinst]) 1 hx) (by simp [hd])

section Alone

variable {T : Type} [DecidableEq Tid] {trivial : Bool} {s : State T Tid} {t : Tid} {v w w' : Vec T} {f : Frame}
  {pc pc' : Pc} {a : Table} {n i shard : Nat}

/-- The thread is alone with the vector `v` and has the table `a` in the making. -/
structure Builds (v : Vec T) (t : Tid) (f : Frame) (pc : Pc) (a : Table) (nextShard : Nat)
    (s : State T Tid) : Prop where
  apart : f.oldTable ≠ f.newTable
  pc : s.pc t = pc
  current : s.table = f.oldTable
  old : s.tables f.oldTable = v.table
  new : s.tables f.newTable = a
  nextShard : s.nextShard = nextShard

theorem Builds.setPc (h : Builds v t f pc a n s) (pc' : Pc) : Builds v t f pc' a n (s.setPc t pc') :=
  ⟨h.apart, State.setPc_self .., h.current, h.old, h.new, h.nextShard⟩

omit [DecidableEq Tid] in
theorem Builds.setShard (h : Builds v t f pc a n s) (i : Nat) (shard : Option Nat) :
    Builds v t f pc (a.setShard i shard) n (s.setShard f.newTable i shard) := by
  refine ⟨h.apart, h.pc, h.current, ?_, ?_, h.nextShard⟩
  · simp [State.setShard, h.apart, h.old]
  · simp [State.setShard, h.new]

variable [Inhabited T]

theorem Builds.copy (h : Builds v t f (.copy f i) a n s) (hi : i < v.table.shardNum) (hmax : i + 1 < 2 ^ 31) :
    ∃ s', IntStep trivial m t s s' ∧ Builds v t f (.copy f (i + 1)) (a.setShard i (v.table.shards i)) n s' := by
  refine ⟨_, .step _ _ ?_ (.copy s f i h.pc (by rwa [h.old])), ?_⟩
  · rw [h.pc]
    rintro ⟨-, hge⟩
    omega
  · rw [h.old]
    exact (h.setShard i _).setPc _

theorem Builds.create (h : Builds v t f (.create f i) a w.nextShard s) (hi : i < f.shardNum) (hmax : i + 1 < 2 ^ 31)
    (hshard : w.createShard trivial m = some (shard, w')) :
    ∃ s', IntStep trivial m t s s' ∧ Builds v t f (.create f (i + 1)) (a.setShard i (some shard)) w'.nextShard s' := by
  have hcreates : Vec.Creates trivial m := by
    by_contra hno
    rw [Vec.createShard_none hno] at hshard
    cases hshard
  obtain ⟨w₁, hw₁, -, hnext, -⟩ := Vec.createShard_eq hcreates w
  rw [hw₁] at hshard
  cases hshard
  refine ⟨_, .step _ _ ?_ (.create s f i h.pc hi), ?_⟩
  · rw [h.pc]
    rintro ⟨-, hge | ⟨hfalse, hge⟩⟩
    · omega
    · rcases hcreates with htrue | hnum
      · rw [hfalse] at htrue
        cases htrue
      · omega
  · have hmade : Builds v t f (.create f i) a w'.nextShard s.createShard :=
      ⟨h.apart, h.pc, h.current, h.old, h.new, by rw [hnext, ← h.nextShard]; rfl⟩
    rw [h.nextShard]
    exact (hmade.setShard i _).setPc _

/-- A sequential `ensure_table` is a run of a thread whose compare-and-swap nobody disturbs. -/
theorem ensureTable_run {v' : Vec T} {call : Call} (h : v.ensureTable trivial m (call.shardNum m) = some v')
    (hpc : s.pc t = .load call) (htable : s.tables s.table = v.table) (hnext : s.nextShard = v.nextShard)
    (hold : s.table < s.nextTable) :
    ∃ s', Relation.ReflTransGen (IntStep trivial m t) s s' ∧ s'.pc t = .returned call s'.table ∧
      s'.tables s'.table = v'.table ∧ s'.nextShard = v'.nextShard := by
  rw [Vec.ensureTable] at h
  split at h
  · rename_i hn
    cases h
    have hstep := Step.loadEnough (m := m) s call hpc (by rwa [htable])
    exact ⟨_, .single (.step _ _ (by rw [hpc]; exact id) hstep), State.setPc_self .., htable, hnext⟩
  · rename_i hn
    obtain ⟨a, hcopy, h⟩ := Option.bind_eq_some_iff.1 h
    obtain ⟨⟨a', w⟩, hcreate, h⟩ := Option.bind_eq_some_iff.1 h
    cases h
    have hlt : v.table.shardNum < call.shardNum m := by omega
    obtain ⟨f, hf⟩ : ∃ f : Frame, f = ⟨call, call.shardNum m, s.table, s.nextTable, v.table.shardNum⟩ := ⟨_, rfl⟩
    have hgrow : IntStep trivial m t s ((s.allocTable (call.shardNum m)).setPc t (.copy f 0)) := by
      refine .step _ _ (by rw [hpc]; exact id) ?_
      rw [hf, ← htable]
      exact .loadGrow s call hpc (by rwa [htable])
    have h₀ : Builds v t f (.copy f 0) ⟨call.shardNum m, fun _ => none⟩ v.nextShard
        ((s.allocTable (call.shardNum m)).setPc t (.copy f 0)) := by
      rw [hf]
      refine ⟨hold.ne, State.setPc_self .., rfl, ?_, ?_, hnext⟩
      · simp [State.setPc, State.allocTable, hold.ne, htable]
      · simp [State.setPc, State.allocTable]
    obtain ⟨s₁, hr₁, h₁⟩ : ∃ s₁, Relation.ReflTransGen (IntStep trivial m t) _ s₁ ∧
        Builds v t f (.copy f v.table.shardNum) a v.nextShard s₁ :=
      Vec.forInt_run (R := fun i a s => Builds v t f (.copy f i) a v.nextShard s) (Nat.zero_le _) hcopy h₀
        fun i a a' s hi hmax hbody hb => Option.some.inj hbody ▸ hb.copy hi hmax
    have hcopied : IntStep trivial m t s₁ (s₁.setPc t (.create f v.table.shardNum)) := by
      refine .step _ _ ?_ ?_
      · rw [h₁.pc]
        rintro ⟨hlt, -⟩
        rw [h₁.old] at hlt
        exact lt_irrefl _ hlt
      · rw [show v.table.shardNum = f.oldShardNum by rw [hf]]
        exact .copied s₁ f _ h₁.pc (by rw [h₁.old])
    obtain ⟨s₂, hr₂, h₂⟩ : ∃ s₂, Relation.ReflTransGen (IntStep trivial m t) _ s₂ ∧
        Builds v t f (.create f (call.shardNum m)) a' w.nextShard s₂ := by
      refine Vec.forInt_run (R := fun i x s => Builds v t f (.create f i) x.1 x.2.nextShard s) hlt.le hcreate
        (h₁.setPc (.create f v.table.shardNum)) ?_
      rintro i ⟨a, w⟩ x' s hi hmax hbody hb
      obtain ⟨⟨shard, w'⟩, hshard, hbody⟩ := Option.bind_eq_some_iff.1 hbody
      obtain rfl := Option.some.inj hbody
      exact hb.create (by rwa [hf]) hmax hshard
    have hcreated : IntStep trivial m t s₂ (s₂.setPc t (.cas f)) := by
      refine .step _ _ ?_ (.created s₂ f _ h₂.pc (by rw [hf]))
      rw [h₂.pc]
      rintro ⟨hlt, -⟩
      rw [hf] at hlt
      exact lt_irrefl _ hlt
    have h₃ := h₂.setPc (.cas f)
    have hcas : IntStep trivial m t (s₂.setPc t (.cas f)) ({ s₂.setPc t (.cas f) with
        table := f.newTable
        installed := f.newTable :: s₂.installed }.setPc t (.retire f f.oldTable)) :=
      .step _ _ (by rw [h₃.pc]; exact id) (.casOk _ f h₃.pc h₃.current)
    have hall := hr₁.trans (.head hcopied (hr₂.trans (.head hcreated (.single hcas))))
    refine ⟨_, .head hgrow (hall.tail (.step _ _ ?_ (.retire _ f f.oldTable (State.setPc_self ..)))), ?_, ?_, ?_⟩
    · rw [State.setPc_self]
      exact id
    · rw [State.setPc_self, hf]
      rfl
    · exact h₂.new
    · exact h₂.nextShard

end Alone

section Overflow

variable [DecidableEq Tid] [Inhabited T] {s : State T Tid} {t : Tid} {f : Frame} {i : Nat}

theorem create_run (h : s.pc t = .create f i) (k : Nat) (hk : i + k ≤ f.shardNum) (hmax : i + k < 2 ^ 31) :
    ∃ s', Relation.ReflTransGen (AnyIntStep true m) s s' ∧ s'.pc t = .create f (i + k) := by
  induction k with
  | zero => exact ⟨s, .refl, h⟩
  | succ k ih =>
    obtain ⟨s', hr, hpc⟩ := ih (by omega) (by omega)
    have hlt : i + k < f.shardNum := by omega
    refine ⟨_, hr.tail ⟨t, .step _ _ ?_ (.create s' f (i + k) hpc hlt)⟩, State.setPc_self ..⟩
    rw [hpc]
    rintro ⟨-, hge | ⟨hfalse, -⟩⟩
    · omega
    · cases hfalse

end Overflow

/-- Of a call for `2 ^ 31` shards on a new vector nothing can be said. -/
theorem growth_overflows : ∃ s : State Nat Unit, Reachable init (AnyIntStep true ⟨1, 0⟩) s ∧
    ∃ a, s.pc () = .returned (.ensureTable (2 ^ 31)) a ∧ (s.tables a).shardNum = 0 := by
  have h₀ : Reachable init (AnyIntStep true ⟨1, 0⟩) (⟨0, fun _ => emptyTable, 1, 0, fun _ _ => 0, fun _ => false,
      [], [0], fun _ => .idle⟩ : State Nat Unit) :=
    .of_init ⟨rfl, rfl, rfl, rfl, rfl, rfl, fun _ => rfl, fun _ => rfl⟩
  have h₁ := h₀.tail ⟨(), .step _ _ (fun h => h) (.call _ (.ensureTable (2 ^ 31)) rfl)⟩
  have h₂ := h₁.tail ⟨(), .step _ _ (fun h => h) (.loadGrow _ (.ensureTable (2 ^ 31)) rfl (Nat.two_pow_pos 31))⟩
  have h₃ := h₂.tail ⟨(), .step _ _ (fun h => absurd h.1 (Nat.not_lt_zero _)) (.copied _ _ _ rfl (Nat.zero_le _))⟩
  obtain ⟨s, ⟨s₀, hi, hr₀⟩, hpc⟩ : ∃ s : State Nat Unit, Reachable init (AnyIntStep true ⟨1, 0⟩) s ∧
    s.pc () = .create ⟨.ensureTable (2 ^ 31), 2 ^ 31, 0, 1, 0⟩ 0 := ⟨_, h₃, rfl⟩
  obtain ⟨s', hr, hpc'⟩ := create_run (m := ⟨1, 0⟩) hpc (2 ^ 31 - 1) (by norm_num) (by norm_num)
  refine ⟨⟨0, fun _ => emptyTable, 1, 0, fun _ _ => 0, fun _ => false, [], [0],
    fun _ => .returned (.ensureTable (2 ^ 31)) 0⟩, ⟨s₀, hi, (hr₀.trans hr).tail ⟨(), .overflow _ _ ?_⟩⟩, 0, rfl, rfl⟩
  rw [hpc']
  exact ⟨by norm_num, .inl (by norm_num)⟩

end Wizard.Vector
