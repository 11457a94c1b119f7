import Mathlib.Tactic
import Wizard.Runs

/-! Growing the table of a concurrent vector. `ensure_table` builds a larger table
out of the one it saw and installs it with a compare-and-swap; a thread that
loses the race starts over from the table that won. Tables and shards are
numbered in the order of their allocation. -/

namespace Wizard.Vector

structure Meta where
  numPerShard : BitVec 64
  shardBit : Nat
deriving Repr, DecidableEq

def getShardId (m : Meta) (index : BitVec 64) : Nat := (index >>> m.shardBit).toNat

def getShardOffset (m : Meta) (index : BitVec 64) : Nat := (index &&& (m.numPerShard - 1)).toNat

def requireShardNum (m : Meta) (size : BitVec 64) : Nat := (getShardId m (size - 1) + 1) % 2 ^ 64

structure Table where
  shardNum : Nat
  shards : Nat → Option Nat

def Table.setShard (t : Table) (i : Nat) (shard : Option Nat) : Table :=
  { t with shards := Function.update t.shards i shard }

def emptyTable : Table := ⟨0, fun _ => none⟩

inductive Call
  | ensure (index : BitVec 64)
  | reserve (size : BitVec 64)
  | ensureTable (shardNum : Nat)
deriving Repr, DecidableEq

def Call.shardNum (m : Meta) : Call → Nat
  | .ensure index => (getShardId m index + 1) % 2 ^ 64
  | .reserve size => requireShardNum m size
  | .ensureTable shardNum => shardNum

/-- The local variables of `ensure_table` once it has decided to grow. -/
structure Frame where
  call : Call
  shardNum : Nat
  oldTable : Nat
  newTable : Nat
  oldShardNum : Nat
deriving Repr, DecidableEq

inductive Pc
  | idle
  | load (call : Call)
  | copy (f : Frame) (i : Nat)
  | create (f : Frame) (i : Nat)
  | cas (f : Frame)
  | retire (f : Frame) (old : Nat)
  | discard (f : Frame) (i : Nat)
  | returned (call : Call) (table : Nat)
deriving Repr, DecidableEq

/-- `installed` lists the tables `_table` has pointed to, the latest first. -/
structure State (T Tid : Type*) where
  table : Nat
  tables : Nat → Table
  nextTable : Nat
  nextShard : Nat
  cells : Nat → Nat → T
  destroyed : Nat → Bool
  retired : List Nat
  installed : List Nat
  pc : Tid → Pc

variable {T Tid : Type*}

/-- The cell an index refers to in a table: a shard and an offset in it. -/
def State.cellIn (m : Meta) (s : State T Tid) (table : Nat) (index : BitVec 64) :
    Option (Nat × Nat) :=
  if getShardId m index < (s.tables table).shardNum then
    ((s.tables table).shards (getShardId m index)).map (·, getShardOffset m index)
  else none

/-- `operator[]`. -/
def State.get (m : Meta) (s : State T Tid) (index : BitVec 64) : Option T :=
  (s.cellIn m s.table index).map fun c => s.cells c.1 c.2

def init (s : State T Tid) : Prop :=
  s.table = 0 ∧ s.tables 0 = emptyTable ∧ s.nextTable = 1 ∧ s.nextShard = 0 ∧ s.installed = [0] ∧
    s.retired = [] ∧ (∀ shard, s.destroyed shard = false) ∧ ∀ t, s.pc t = .idle

def State.setShard (s : State T Tid) (table i : Nat) (shard : Option Nat) : State T Tid :=
  { s with tables := Function.update s.tables table ((s.tables table).setShard i shard) }

/-- `aligned_alloc` of a table; its entries are not initialised. -/
def State.allocTable (s : State T Tid) (shardNum : Nat) : State T Tid :=
  { s with
    tables := Function.update s.tables s.nextTable ⟨shardNum, fun _ => none⟩
    nextTable := s.nextTable + 1 }

def State.deleteShard (s : State T Tid) (shard : Option Nat) : State T Tid :=
  match shard with
  | some x => { s with destroyed := Function.update s.destroyed x true }
  | none => s

/-- The table in `_table` maps a shard id to a storage shard. -/
def State.Maps (s : State T Tid) (id shard : Nat) : Prop :=
  id < (s.tables s.table).shardNum ∧ (s.tables s.table).shards id = some shard

def State.createShard [Inhabited T] (s : State T Tid) : State T Tid :=
  { s with
    cells := Function.update s.cells s.nextShard (fun _ => default)
    nextShard := s.nextShard + 1 }

variable [DecidableEq Tid]

def State.setPc (s : State T Tid) (t : Tid) (pc : Pc) : State T Tid :=
  { s with pc := Function.update s.pc t pc }

variable [Inhabited T]

/-- The steps of thread `t`. The last one is a client that writes through a
reference to a cell. -/
inductive Step (m : Meta) (t : Tid) : State T Tid → State T Tid → Prop
  | call (s call) (h : s.pc t = .idle) : Step m t s (s.setPc t (.load call))
  | loadEnough (s call) (h : s.pc t = .load call)
      (hn : call.shardNum m ≤ (s.tables s.table).shardNum) :
      Step m t s (s.setPc t (.returned call s.table))
  | loadGrow (s call) (h : s.pc t = .load call)
      (hn : (s.tables s.table).shardNum < call.shardNum m) :
      Step m t s ((s.allocTable (call.shardNum m)).setPc t
        (.copy ⟨call, call.shardNum m, s.table, s.nextTable, (s.tables s.table).shardNum⟩ 0))
  | copy (s f i) (h : s.pc t = .copy f i) (hi : i < (s.tables f.oldTable).shardNum) :
      Step m t s ((s.setShard f.newTable i ((s.tables f.oldTable).shards i)).setPc t (.copy f (i + 1)))
  | copied (s f i) (h : s.pc t = .copy f i) (hi : (s.tables f.oldTable).shardNum ≤ i) :
      Step m t s (s.setPc t (.create f f.oldShardNum))
  | create (s f i) (h : s.pc t = .create f i) (hi : i < f.shardNum) :
      Step m t s ((s.createShard.setShard f.newTable i (some s.nextShard)).setPc t (.create f (i + 1)))
  | created (s f i) (h : s.pc t = .create f i) (hi : f.shardNum ≤ i) :
      Step m t s (s.setPc t (.cas f))
  | casOk (s f) (h : s.pc t = .cas f) (he : s.table = f.oldTable) :
      Step m t s ({ s with table := f.newTable, installed := f.newTable :: s.installed }.setPc t
        (.retire f f.oldTable))
  | casFail (s f) (h : s.pc t = .cas f) (he : s.table ≠ f.oldTable) :
      Step m t s (s.setPc t (.discard { f with oldTable := s.table } f.oldShardNum))
  | retire (s f old) (h : s.pc t = .retire f old) :
      Step m t s ({ s with retired := old :: s.retired }.setPc t (.returned f.call f.newTable))
  | discard (s f i) (h : s.pc t = .discard f i) (hi : i < f.shardNum) :
      Step m t s ((s.deleteShard ((s.tables f.newTable).shards i)).setPc t (.discard f (i + 1)))
  | yield (s f i) (h : s.pc t = .discard f i) (hi : f.shardNum ≤ i)
      (hn : f.shardNum < (s.tables f.oldTable).shardNum) :
      Step m t s (s.setPc t (.returned f.call f.oldTable))
  | retry (s f i) (h : s.pc t = .discard f i) (hi : f.shardNum ≤ i)
      (hn : (s.tables f.oldTable).shardNum ≤ f.shardNum) :
      Step m t s (s.setPc t (.copy f 0))
  | finish (s call table) (h : s.pc t = .returned call table) : Step m t s (s.setPc t .idle)
  | write (s shard offset v) (h : s.pc t = .idle) :
      Step m t s { s with
        cells := Function.update s.cells shard (Function.update (s.cells shard) offset v) }

def AnyStep (m : Meta) (s s' : State T Tid) : Prop := ∃ t, Step m t s s'

end Wizard.Vector
