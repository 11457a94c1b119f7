import Wizard.VectorTable

/-! The tables of a concurrent vector and what a thread knows of the one it builds: a table
that has been installed is complete, and nobody writes it again. -/

namespace Wizard.Vector

variable {T Tid : Type*} {m : Meta}

/-- The table a thread is building and has not installed. -/
def Pc.building : Pc → Option Nat
  | .copy f _ | .create f _ | .cas f | .discard f _ => some f.newTable
  | _ => none

structure FrameOk (m : Meta) (s : State T Tid) (f : Frame) : Prop where
  request : f.shardNum = f.call.shardNum m
  allocated : f.newTable < s.nextTable
  unpublished : f.newTable ∉ s.installed
  source : f.oldTable ∈ s.installed
  size : (s.tables f.newTable).shardNum = f.shardNum
  first : f.oldShardNum ≤ (s.tables f.oldTable).shardNum

def Kept (s : State T Tid) (f : Frame) : Prop :=
  ∀ j < f.oldShardNum, (s.tables f.newTable).shards j = (s.tables f.oldTable).shards j

def Filled (s : State T Tid) (f : Frame) (i : Nat) : Prop :=
  ∀ j, f.oldShardNum ≤ j → j < i → ((s.tables f.newTable).shards j).isSome = true

def ThreadOk (m : Meta) (s : State T Tid) : Pc → Prop
  | .idle | .load _ => True
  | .copy f i => FrameOk m s f ∧ (s.tables f.oldTable).shardNum ≤ f.shardNum ∧
      ∀ j < i, (s.tables f.newTable).shards j = (s.tables f.oldTable).shards j
  | .create f i => FrameOk m s f ∧ (s.tables f.oldTable).shardNum ≤ f.shardNum ∧
      f.oldShardNum ≤ i ∧ Kept s f ∧ Filled s f i
  | .cas f => FrameOk m s f ∧ (s.tables f.oldTable).shardNum ≤ f.shardNum ∧
      Kept s f ∧ Filled s f f.shardNum
  | .discard f _ => FrameOk m s f
  | .retire f _ => f.newTable ∈ s.installed ∧ f.call.shardNum m ≤ (s.tables f.newTable).shardNum
  | .returned call table => table ∈ s.installed ∧ call.shardNum m ≤ (s.tables table).shardNum

structure TablesOk (m : Meta) (s : State T Tid) : Prop where
  current : s.table ∈ s.installed
  allocated : ∀ a ∈ s.installed, a < s.nextTable
  complete : ∀ a ∈ s.installed, ∀ id < (s.tables a).shardNum,
    ((s.tables a).shards id).isSome = true
  largest : ∀ a ∈ s.installed, (s.tables a).shardNum ≤ (s.tables s.table).shardNum
  thread : ∀ t, ThreadOk m s (s.pc t)
  apart : ∀ t u a, (s.pc t).building = some a → (s.pc u).building = some a → t = u

/-- Installed tables are never written again. -/
def Extends (s s' : State T Tid) : Prop :=
  ∀ a ∈ s.installed, a ∈ s'.installed ∧ s'.tables a = s.tables a

theorem FrameOk.frame {s s' : State T Tid} {f : Frame} (h : FrameOk m s f) (he : Extends s s')
    (hnew : s'.tables f.newTable = s.tables f.newTable) (hun : f.newTable ∉ s'.installed)
    (hnext : s.nextTable ≤ s'.nextTable) : FrameOk m s' f where
  request := h.request
  allocated := h.allocated.trans_le hnext
  unpublished := hun
  source := (he _ h.source).1
  size := by rw [hnew, h.size]
  first := by rw [(he _ h.source).2]; exact h.first

/-- A thread's assertions survive the steps of the others. -/
theorem ThreadOk.frame {s s' : State T Tid} {pc : Pc} (h : ThreadOk m s pc) (he : Extends s s')
    (hnew : ∀ a, pc.building = some a → s'.tables a = s.tables a ∧ a ∉ s'.installed)
    (hnext : s.nextTable ≤ s'.nextTable) : ThreadOk m s' pc := by
  cases pc with
  | idle => trivial
  | load => trivial
  | copy f i =>
    obtain ⟨ht, hun⟩ := hnew f.newTable rfl
    have hold := (he _ h.1.source).2
    refine ⟨h.1.frame he ht hun hnext, ?_, ?_⟩
    · rw [hold]; exact h.2.1
    · rw [hold, ht]; exact h.2.2
  | create f i =>
    obtain ⟨ht, hun⟩ := hnew f.newTable rfl
    have hold := (he _ h.1.source).2
    refine ⟨h.1.frame he ht hun hnext, by rw [hold]; exact h.2.1, h.2.2.1, ?_, ?_⟩
    · rw [Kept, hold, ht]; exact h.2.2.2.1
    · rw [Filled, ht]; exact h.2.2.2.2
  | cas f =>
    obtain ⟨ht, hun⟩ := hnew f.newTable rfl
    have hold := (he _ h.1.source).2
    refine ⟨h.1.frame he ht hun hnext, by rw [hold]; exact h.2.1, ?_, ?_⟩
    · rw [Kept, hold, ht]; exact h.2.2.1
    · rw [Filled, ht]; exact h.2.2.2
  | discard f i =>
    obtain ⟨ht, hun⟩ := hnew f.newTable rfl
    exact FrameOk.frame h he ht hun hnext
  | retire f old => exact ⟨(he _ h.1).1, by rw [(he _ h.1).2]; exact h.2⟩
  | returned call table => exact ⟨(he _ h.1).1, by rw [(he _ h.1).2]; exact h.2⟩

theorem ThreadOk.unpublished {s : State T Tid} {pc : Pc} (h : ThreadOk m s pc) {a : Nat}
    (ha : pc.building = some a) : a ∉ s.installed ∧ a < s.nextTable := by
  cases pc with
  | idle => simp [Pc.building] at ha
  | load => simp [Pc.building] at ha
  | retire => simp [Pc.building] at ha
  | returned => simp [Pc.building] at ha
  | copy f i => obtain rfl := Option.some.inj ha; exact ⟨h.1.unpublished, h.1.allocated⟩
  | create f i => obtain rfl := Option.some.inj ha; exact ⟨h.1.unpublished, h.1.allocated⟩
  | cas f => obtain rfl := Option.some.inj ha; exact ⟨h.1.unpublished, h.1.allocated⟩
  | discard f i => obtain rfl := Option.some.inj ha; exact ⟨FrameOk.unpublished h, FrameOk.allocated h⟩

theorem FrameOk.old_ne_new {s : State T Tid} {f : Frame} (h : FrameOk m s f) :
    f.oldTable ≠ f.newTable := fun he => h.unpublished (he ▸ h.source)

theorem tables_setShard {s : State T Tid} {table i a : Nat} {shard : Option Nat}
    (h : (s.setShard table i shard).tables a ≠ s.tables a) : a = table := by
  by_contra hne
  exact h (by simp [State.setShard, hne])

theorem Table.setShard_shards (a : Table) (i j : Nat) (shard : Option Nat) :
    (a.setShard i shard).shards j = if j = i then shard else a.shards j := by
  by_cases hj : j = i <;> simp [Table.setShard, hj]

section DeleteShard

variable (s : State T Tid) (shard : Option Nat)

@[simp] theorem State.deleteShard_table : (s.deleteShard shard).table = s.table := by cases shard <;> rfl

@[simp] theorem State.deleteShard_tables : (s.deleteShard shard).tables = s.tables := by cases shard <;> rfl

@[simp] theorem State.deleteShard_installed : (s.deleteShard shard).installed = s.installed := by cases shard <;> rfl

@[simp] theorem State.deleteShard_retired : (s.deleteShard shard).retired = s.retired := by cases shard <;> rfl

@[simp] theorem State.deleteShard_nextTable : (s.deleteShard shard).nextTable = s.nextTable := by cases shard <;> rfl

@[simp] theorem State.deleteShard_nextShard : (s.deleteShard shard).nextShard = s.nextShard := by cases shard <;> rfl

@[simp] theorem State.deleteShard_pc : (s.deleteShard shard).pc = s.pc := by cases shard <;> rfl

end DeleteShard

@[simp] theorem Table.setShard_shardNum (a : Table) (i : Nat) (shard : Option Nat) :
    (a.setShard i shard).shardNum = a.shardNum := rfl

variable [DecidableEq Tid]

/-- A step of thread `t` that installs nothing: it may write the table `t` is
building, and `t` establishes its own next assertion. -/
theorem TablesOk.local_ {s s' : State T Tid} (hi : TablesOk m s) {t : Tid} {pc : Pc}
    (htable : s'.table = s.table) (hinst : s'.installed = s.installed)
    (hnext : s.nextTable ≤ s'.nextTable)
    (htables : ∀ a, s'.tables a ≠ s.tables a →
      (s.pc t).building = some a ∨ a = s.nextTable)
    (hpc : s'.pc = Function.update s.pc t pc)
    (hbuild : ∀ a, pc.building = some a → (s.pc t).building = some a ∨ a = s.nextTable)
    (hok : ThreadOk m s' pc) : TablesOk m s' := by
  have hkeep : ∀ a, a ∈ s.installed → s'.tables a = s.tables a := by
    intro a ha
    by_contra hne
    rcases htables a hne with hb | rfl
    · exact ((hi.thread t).unpublished hb).1 ha
    · exact absurd (hi.allocated _ ha) (lt_irrefl _)
  have hext : Extends s s' := fun a ha => ⟨hinst ▸ ha, hkeep a ha⟩
  refine ⟨?_, ?_, ?_, ?_, ?_, ?_⟩
  · rw [htable, hinst]; exact hi.current
  · intro a ha
    exact (hi.allocated a (hinst ▸ ha)).trans_le hnext
  · intro a ha
    rw [hinst] at ha
    rw [hkeep a ha]
    exact hi.complete a ha
  · intro a ha
    rw [hinst] at ha
    rw [htable, hkeep a ha, hkeep _ hi.current]
    exact hi.largest a ha
  · intro u
    by_cases hu : u = t
    · subst hu
      rw [hpc, Function.update_self]
      exact hok
    · rw [hpc, Function.update_of_ne hu]
      refine (hi.thread u).frame hext (fun a ha => ⟨?_, ?_⟩) hnext
      · by_contra hne
        rcases htables a hne with hb | rfl
        · exact hu (hi.apart u t a ha hb)
        · exact absurd ((hi.thread u).unpublished ha).2 (lt_irrefl _)
      · rw [hinst]
        exact ((hi.thread u).unpublished ha).1
  · have hone : ∀ u a, u ≠ t → (s.pc u).building = some a → pc.building ≠ some a := by
      intro u a hu ha hb
      rcases hbuild a hb with hb | rfl
      · exact hu (hi.apart u t a ha hb)
      · exact absurd ((hi.thread u).unpublished ha).2 (lt_irrefl _)
    intro u v a hu hv
    rw [hpc] at hu hv
    by_cases hut : u = t <;> by_cases hvt : v = t
    · rw [hut, hvt]
    · subst hut
      rw [Function.update_self] at hu
      rw [Function.update_of_ne hvt] at hv
      exact absurd hu (hone v a hvt hv)
    · subst hvt
      rw [Function.update_self] at hv
      rw [Function.update_of_ne hut] at hu
      exact absurd hv (hone u a hut hu)
    · rw [Function.update_of_ne hut] at hu
      rw [Function.update_of_ne hvt] at hv
      exact hi.apart u v a hu hv

theorem TablesOk.install {s : State T Tid} (hi : TablesOk m s) {t : Tid} {f : Frame} (h : s.pc t = .cas f)
    (he : s.table = f.oldTable) :
    TablesOk m ({ s with table := f.newTable, installed := f.newTable :: s.installed }.setPc t
      (.retire f f.oldTable)) := by
  have hok : ThreadOk m s (.cas f) := h ▸ hi.thread t
  obtain ⟨hf, hsize, hkept, hfilled⟩ := hok
  have hext : Extends s ({ s with table := f.newTable, installed := f.newTable :: s.installed }.setPc t
      (.retire f f.oldTable)) := fun a ha => ⟨List.mem_cons_of_mem _ ha, rfl⟩
  refine ⟨List.mem_cons_self, ?_, ?_, ?_, ?_, ?_⟩
  · intro a ha
    rcases List.mem_cons.mp ha with rfl | ha
    · exact hf.allocated
    · exact hi.allocated a ha
  · intro a ha id hid
    rcases List.mem_cons.mp ha with rfl | ha
    · by_cases hid' : id < f.oldShardNum
      · have hold := hi.complete f.oldTable hf.source id (hid'.trans_le hf.first)
        rwa [← hkept id hid'] at hold
      · exact hfilled id (by omega) (hf.size ▸ hid)
    · exact hi.complete a ha id hid
  · intro a ha
    rcases List.mem_cons.mp ha with rfl | ha
    · exact le_rfl
    · have hle := hi.largest a ha
      rw [he] at hle
      exact hle.trans (hsize.trans_eq hf.size.symm)
  · intro u
    by_cases hu : u = t
    · subst hu
      simp only [State.setPc, Function.update_self]
      refine ⟨List.mem_cons_self, ?_⟩
      change _ ≤ (s.tables f.newTable).shardNum
      rw [hf.size, hf.request]
    · simp only [State.setPc, Function.update_of_ne hu]
      refine (hi.thread u).frame hext (fun a ha => ⟨rfl, ?_⟩) le_rfl
      intro hmem
      rcases List.mem_cons.mp hmem with rfl | hmem
      · exact hu (hi.apart u t _ ha (by rw [h]; rfl))
      · exact ((hi.thread u).unpublished ha).1 hmem
  · intro u v a hu hv
    by_cases hut : u = t
    · simp [State.setPc, hut, Pc.building] at hu
    · by_cases hvt : v = t
      · simp [State.setPc, hvt, Pc.building] at hv
      · exact hi.apart u v a (by simpa [State.setPc, hut] using hu) (by simpa [State.setPc, hvt] using hv)

theorem TablesOk.loadGrow {s : State T Tid} (hi : TablesOk m s) {t : Tid} {call : Call}
    (hn : (s.tables s.table).shardNum < call.shardNum m) :
    TablesOk m ((s.allocTable (call.shardNum m)).setPc t
      (.copy ⟨call, call.shardNum m, s.table, s.nextTable, (s.tables s.table).shardNum⟩ 0)) := by
  have hcur := hi.allocated _ hi.current
  have hold : (s.allocTable (call.shardNum m)).tables s.table = s.tables s.table := by
    simp [State.allocTable, show s.table ≠ s.nextTable by omega]
  refine hi.local_ (t := t) rfl rfl (Nat.le_succ _) ?_ rfl ?_ ?_
  · intro a ha
    right
    by_contra hne
    exact ha (by simp [State.setPc, State.allocTable, hne])
  · intro a ha
    exact .inr (Option.some.inj ha).symm
  · refine ⟨⟨rfl, ?_, ?_, hi.current, ?_, ?_⟩, ?_, ?_⟩
    · simp [State.setPc, State.allocTable]
    · intro hmem
      exact absurd (hi.allocated _ hmem) (lt_irrefl _)
    · simp [State.setPc, State.allocTable]
    · simp only [State.setPc, hold, le_refl]
    · simp only [State.setPc, hold]
      exact hn.le
    · intro j hj
      omega

theorem TablesOk.copy {s : State T Tid} (hi : TablesOk m s) {t : Tid} {f : Frame} {i : Nat}
    (h : s.pc t = .copy f i) :
    TablesOk m ((s.setShard f.newTable i ((s.tables f.oldTable).shards i)).setPc t (.copy f (i + 1))) := by
  have hok : ThreadOk m s (.copy f i) := h ▸ hi.thread t
  obtain ⟨hf, hsize, hsame⟩ := hok
  have hnew : (s.setShard f.newTable i ((s.tables f.oldTable).shards i)).tables f.newTable =
      (s.tables f.newTable).setShard i ((s.tables f.oldTable).shards i) := by simp [State.setShard]
  have hold : (s.setShard f.newTable i ((s.tables f.oldTable).shards i)).tables f.oldTable =
      s.tables f.oldTable := by simp [State.setShard, hf.old_ne_new]
  refine hi.local_ (t := t) rfl rfl le_rfl ?_ rfl ?_ ?_
  · intro a ha
    exact .inl (by rw [h, tables_setShard ha]; rfl)
  · intro a ha
    exact .inl (by rw [h]; exact ha)
  · refine ⟨⟨hf.request, hf.allocated, hf.unpublished, hf.source, ?_, ?_⟩, ?_, ?_⟩
    · simp only [State.setPc, hnew, Table.setShard_shardNum, hf.size]
    · simp only [State.setPc, hold, hf.first]
    · simp only [State.setPc, hold, hsize]
    · intro j hj
      simp only [State.setPc, hold, hnew, Table.setShard_shards]
      split_ifs with hji
      · rw [hji]
      · exact hsame j (by omega)

variable [Inhabited T]

theorem TablesOk.create {s : State T Tid} (hi : TablesOk m s) {t : Tid} {f : Frame} {i : Nat}
    (h : s.pc t = .create f i) :
    TablesOk m ((s.createShard.setShard f.newTable i (some s.nextShard)).setPc t (.create f (i + 1))) := by
  have hok : ThreadOk m s (.create f i) := h ▸ hi.thread t
  obtain ⟨hf, hsize, hle, hkept, hfilled⟩ := hok
  have hnew : (s.createShard.setShard f.newTable i (some s.nextShard)).tables f.newTable =
      (s.tables f.newTable).setShard i (some s.nextShard) := by
    simp [State.setShard, State.createShard]
  have hold : (s.createShard.setShard f.newTable i (some s.nextShard)).tables f.oldTable =
      s.tables f.oldTable := by simp [State.setShard, State.createShard, hf.old_ne_new]
  refine hi.local_ (t := t) rfl rfl le_rfl ?_ rfl ?_ ?_
  · intro a ha
    exact .inl (by rw [h, tables_setShard (s := s.createShard) ha]; rfl)
  · intro a ha
    exact .inl (by rw [h]; exact ha)
  · refine ⟨⟨hf.request, hf.allocated, hf.unpublished, hf.source, ?_, ?_⟩, ?_, by omega, ?_, ?_⟩
    · simp only [State.setPc, hnew, Table.setShard_shardNum, hf.size]
    · simp only [State.setPc, hold, hf.first]
    · simp only [State.setPc, hold, hsize]
    · intro j hj
      simp only [State.setPc, hold, hnew, Table.setShard_shards]
      rw [if_neg (by omega)]
      exact hkept j hj
    · intro j hj hji
      simp only [State.setPc, hnew, Table.setShard_shards]
      split_ifs with he
      · rfl
      · exact hfilled j hj (by omega)

theorem TablesOk.step {t : Tid} {s s' : State T Tid} (hi : TablesOk m s) (h : Step m t s s') : TablesOk m s' := by
  have hthread := hi.thread t
  cases h with
  | call call h => exact hi.local_ rfl rfl le_rfl (by simp [State.setPc]) rfl (by simp [Pc.building]) trivial
  | loadEnough call h hn =>
    exact hi.local_ rfl rfl le_rfl (by simp [State.setPc]) rfl (by simp [Pc.building]) ⟨hi.current, hn⟩
  | loadGrow call h hn => exact hi.loadGrow hn
  | copy f i h hlt => exact hi.copy h
  | copied f i h hge =>
    rw [h] at hthread
    obtain ⟨hf, hsize, hsame⟩ := hthread
    refine hi.local_ (t := t) rfl rfl le_rfl (by simp [State.setPc]) rfl ?_ ?_
    · intro a ha
      exact .inl (by rw [h]; exact ha)
    · have hfirst := hf.first
      exact ⟨⟨hf.request, hf.allocated, hf.unpublished, hf.source, hf.size, hf.first⟩, hsize, le_rfl,
        fun j hj => hsame j (by omega), fun j hj hji => by omega⟩
  | create f i h hlt => exact hi.create h
  | created f i h hge =>
    rw [h] at hthread
    obtain ⟨hf, hsize, hle, hkept, hfilled⟩ := hthread
    refine hi.local_ (t := t) rfl rfl le_rfl (by simp [State.setPc]) rfl ?_ ?_
    · intro a ha
      exact .inl (by rw [h]; exact ha)
    · exact ⟨⟨hf.request, hf.allocated, hf.unpublished, hf.source, hf.size, hf.first⟩, hsize, hkept,
        fun j hj hji => hfilled j hj (by omega)⟩
  | casOk f h he => exact hi.install h he
  | casFail f h he =>
    rw [h] at hthread
    obtain ⟨hf, hsize, hkept, hfilled⟩ := hthread
    refine hi.local_ (t := t) rfl rfl le_rfl (by simp [State.setPc]) rfl ?_ ?_
    · intro a ha
      exact .inl (by rw [h]; exact ha)
    · exact ⟨hf.request, hf.allocated, hf.unpublished, hi.current, hf.size,
        hf.first.trans (hi.largest _ hf.source)⟩
  | retire f old h =>
    rw [h] at hthread
    exact hi.local_ rfl rfl le_rfl (by simp [State.setPc]) rfl (by simp [Pc.building]) hthread
  | discard f i h hlt =>
    rw [h] at hthread
    have hf : FrameOk m s f := hthread
    refine hi.local_ (t := t) (by simp [State.setPc]) (by simp [State.setPc]) (by simp [State.setPc])
      (by simp [State.setPc]) (by simp only [State.setPc, State.deleteShard_pc]; rfl) ?_ ?_
    · intro a ha
      exact .inl (by rw [h]; exact ha)
    · refine ⟨hf.request, ?_, ?_, ?_, ?_, ?_⟩
      · simpa [State.setPc] using hf.allocated
      · simpa [State.setPc] using hf.unpublished
      · simpa [State.setPc] using hf.source
      · simpa [State.setPc] using hf.size
      · simpa [State.setPc] using hf.first
  | yield f i h hge hn =>
    rw [h] at hthread
    refine hi.local_ rfl rfl le_rfl (by simp [State.setPc]) rfl (by simp [Pc.building])
      ⟨hthread.source, ?_⟩
    rw [← hthread.request]
    exact hn.le
  | retry f i h hge hn =>
    rw [h] at hthread
    have hf : FrameOk m s f := hthread
    refine hi.local_ (t := t) rfl rfl le_rfl (by simp [State.setPc]) rfl ?_ ?_
    · intro a ha
      exact .inl (by rw [h]; exact ha)
    · exact ⟨⟨hf.request, hf.allocated, hf.unpublished, hf.source, hf.size, hf.first⟩, hn,
        fun j hj => by omega⟩
  | finish call table h =>
    exact hi.local_ rfl rfl le_rfl (by simp [State.setPc]) rfl (by simp [Pc.building]) trivial
  | write shard offset v h =>
    have hpc : s.pc = Function.update s.pc t .idle := by rw [← h, Function.update_eq_self]
    exact hi.local_ rfl rfl le_rfl (by simp) hpc (by simp [Pc.building]) trivial

theorem TablesOk.extends {t : Tid} {s s' : State T Tid} (hi : TablesOk m s) (h : Step m t s s') :
    Extends s s' := by
  have hbuild : ∀ f : Frame, (s.pc t).building = some f.newTable → ∀ a ∈ s.installed, a ≠ f.newTable := by
    intro f hf a ha he
    exact ((hi.thread t).unpublished hf).1 (he ▸ ha)
  intro a ha
  cases h with
  | loadGrow call h hn =>
    have := hi.allocated a ha
    exact ⟨ha, by simp [State.setPc, State.allocTable, show a ≠ s.nextTable by omega]⟩
  | copy f i h hlt =>
    exact ⟨ha, by simp [State.setPc, State.setShard, hbuild f (by rw [h]; rfl) a ha]⟩
  | create f i h hlt =>
    exact ⟨ha, by simp [State.setPc, State.setShard, State.createShard, hbuild f (by rw [h]; rfl) a ha]⟩
  | casOk f h he => exact ⟨List.mem_cons_of_mem _ ha, rfl⟩
  | discard f i h hlt => exact ⟨by simpa [State.setPc] using ha, by simp [State.setPc]⟩
  | call call h => exact ⟨ha, rfl⟩
  | loadEnough call h hn => exact ⟨ha, rfl⟩
  | copied f i h hge => exact ⟨ha, rfl⟩
  | created f i h hge => exact ⟨ha, rfl⟩
  | casFail f h he => exact ⟨ha, rfl⟩
  | retire f old h => exact ⟨ha, rfl⟩
  | yield f i h hge hn => exact ⟨ha, rfl⟩
  | retry f i h hge hn => exact ⟨ha, rfl⟩
  | finish call table h => exact ⟨ha, rfl⟩
  | write shard offset v h => exact ⟨ha, rfl⟩

/-- A table enters `_table` by the compare-and-swap alone. -/
theorem Step.installed_cases {t : Tid} {s s' : State T Tid} (h : Step m t s s') :
    s'.table = s.table ∧ s'.installed = s.installed ∨
      ∃ f, s.pc t = .cas f ∧ s.table = f.oldTable ∧
        s' = { s with table := f.newTable, installed := f.newTable :: s.installed }.setPc t
          (.retire f f.oldTable) := by
  cases h with
  | casOk f h he => exact .inr ⟨f, h, he, rfl⟩
  | discard f i h hlt => exact .inl ⟨by simp [State.setPc], by simp [State.setPc]⟩
  | _ => exact .inl ⟨rfl, rfl⟩

omit [DecidableEq Tid] [Inhabited T] in
theorem tablesOk_init {s : State T Tid} (h : init s) : TablesOk m s := by
  obtain ⟨htable, hempty, hnext, -, hinst, -, -, hpc⟩ := h
  constructor
  · simp [htable, hinst]
  · simp [hinst, hnext]
  · simp [hinst, hempty, emptyTable]
  · simp [hinst, htable]
  · intro t
    rw [hpc t]
    trivial
  · intro t u a ht
    simp [hpc t, Pc.building] at ht

end Wizard.Vector
