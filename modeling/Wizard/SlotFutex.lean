import Mathlib.Tactic
import Wizard.Runs

/-! The futex word of one slot of the bounded queue. The low half of the word is
the slot's version and bit 16 says that somebody waits. A waiter tags the word
before it sleeps; whoever advances the version wakes the sleepers only when the
word it replaced was tagged. -/

namespace Wizard.SlotFutex

def getRawVersion (taggedVersion : BitVec 32) : BitVec 16 :=
  taggedVersion.setWidth 16

def makeTaggedVersion (version : BitVec 32) : BitVec 32 :=
  version + 65535#32 + 1#32

def isTaggedVersion (version : BitVec 32) : Bool :=
  65535#32 < version

/-- Where a thread stands in `wait_until_reach_expected_version`. -/
inductive WaitPc
  | load
  | cas (current : BitVec 32)
  | wait (val : BitVec 32)
  | blocked
deriving Repr, DecidableEq

/-- What follows a load of the word: `none` when the wait is over. -/
def afterLoad (expected : BitVec 16) (current : BitVec 32) : Option WaitPc :=
  if getRawVersion current = expected then none
  else if isTaggedVersion current then some (.wait current)
  else some (.cas current)

/-- One step of a waiter on the word. The exchange may fail spuriously, and the
kernel may return from the wait without a wake. -/
inductive WaitStep (expected : BitVec 16) :
    BitVec 32 → WaitPc → BitVec 32 → Option WaitPc → Prop
  | load (word) : WaitStep expected word .load word (afterLoad expected word)
  | casOk (word) : WaitStep expected word (.cas word) (makeTaggedVersion word)
      (some (.wait (makeTaggedVersion word)))
  | casFail (word current) : WaitStep expected word (.cas current) word (some .load)
  | sleep (word) : WaitStep expected word (.wait word) word (some .blocked)
  | waitReturns (word val) : WaitStep expected word (.wait val) word (some .load)
  | spurious (word) : WaitStep expected word .blocked word (some .load)

/-- Where a thread stands in `advance_version_and_wakeup_waiters`. -/
inductive AdvancePc
  | exchange
  | wake
deriving Repr, DecidableEq

def afterExchange (old : BitVec 32) : Option AdvancePc :=
  if isTaggedVersion old then some .wake else none

def wakeAll : WaitPc → WaitPc
  | .blocked => .load
  | pc => pc

inductive Pc
  | idle
  | waiting (expected : BitVec 16) (pc : WaitPc)
  | advancing (newVersion : BitVec 16) (pc : AdvancePc)
deriving Repr, DecidableEq

def Pc.woken : Pc → Pc
  | .waiting expected pc => .waiting expected (wakeAll pc)
  | pc => pc

def Pc.ofWait (expected : BitVec 16) : Option WaitPc → Pc
  | some pc => .waiting expected pc
  | none => .idle

def Pc.ofAdvance (newVersion : BitVec 16) : Option AdvancePc → Pc
  | some pc => .advancing newVersion pc
  | none => .idle

structure State (Tid : Type*) where
  word : BitVec 32
  pc : Tid → Pc

variable {Tid : Type*} [DecidableEq Tid]

def init (s : State Tid) : Prop :=
  s.word = 0 ∧ ∀ t, s.pc t = .idle

inductive Step : State Tid → State Tid → Prop
  | callWait (s t expected) (h : s.pc t = .idle) :
      Step s { s with pc := Function.update s.pc t (.waiting expected .load) }
  | callAdvance (s t newVersion) (h : s.pc t = .idle) :
      Step s { s with pc := Function.update s.pc t (.advancing newVersion .exchange) }
  | wait (s t expected pc word pc') (h : s.pc t = .waiting expected pc)
      (hw : WaitStep expected s.word pc word pc') :
      Step s { word := word, pc := Function.update s.pc t (.ofWait expected pc') }
  | exchange (s t newVersion) (h : s.pc t = .advancing newVersion .exchange) :
      Step s { word := newVersion.setWidth 32,
               pc := Function.update s.pc t (.ofAdvance newVersion (afterExchange s.word)) }
  | wake (s t newVersion) (h : s.pc t = .advancing newVersion .wake) :
      Step s { s with pc := Function.update (fun u => (s.pc u).woken) t .idle }

/-- Some thread has advanced the version and still has its `wake_all` to call. -/
def WakePending (s : State Tid) : Prop :=
  ∃ t newVersion, s.pc t = .advancing newVersion .wake

theorem makeTaggedVersion_tagged {version : BitVec 32} (h : isTaggedVersion version = false) :
    isTaggedVersion (makeTaggedVersion version) = true := by
  have hv : ¬ 65535#32 < version := by simpa [isTaggedVersion] using h
  have hw : 65535#32 < makeTaggedVersion version := by
    unfold makeTaggedVersion
    bv_omega
  simpa [isTaggedVersion] using hw

theorem getRawVersion_makeTaggedVersion (version : BitVec 32) :
    getRawVersion (makeTaggedVersion version) = getRawVersion version := by
  simp only [getRawVersion, makeTaggedVersion]
  bv_omega

theorem afterLoad_cas {expected : BitVec 16} {word current : BitVec 32}
    (h : afterLoad expected word = some (.cas current)) :
    current = word ∧ isTaggedVersion word = false ∧ getRawVersion word ≠ expected := by
  unfold afterLoad at h
  split_ifs at h with hr ht
  · simp at h
  · exact ⟨by simpa using h.symm, by simpa using ht, hr⟩

theorem afterLoad_wait {expected : BitVec 16} {word val : BitVec 32}
    (h : afterLoad expected word = some (.wait val)) :
    val = word ∧ isTaggedVersion word = true ∧ getRawVersion word ≠ expected := by
  unfold afterLoad at h
  split_ifs at h with hr ht
  · exact ⟨by simpa using h.symm, ht, hr⟩
  · simp at h

theorem afterLoad_ne_blocked (expected : BitVec 16) (word : BitVec 32) :
    afterLoad expected word ≠ some .blocked := by
  unfold afterLoad
  split_ifs <;> simp

/-- What a waiter knows of the values it carries: it only tags an untagged word,
and only sleeps on a tagged one that is not the version it waits for. -/
def WaitPc.Ok (expected : BitVec 16) : WaitPc → Prop
  | .cas current => isTaggedVersion current = false ∧ getRawVersion current ≠ expected
  | .wait val => isTaggedVersion val = true ∧ getRawVersion val ≠ expected
  | _ => True

theorem WaitStep.ok {expected : BitVec 16} {word word' : BitVec 32} {pc pc' : WaitPc}
    (h : WaitStep expected word pc word' (some pc')) (hok : pc.Ok expected) : pc'.Ok expected := by
  generalize he : some pc' = next at h
  cases h with
  | load =>
    cases pc' with
    | cas current =>
      obtain ⟨rfl, ht, hr⟩ := afterLoad_cas he.symm
      exact ⟨ht, hr⟩
    | wait val =>
      obtain ⟨rfl, ht, hr⟩ := afterLoad_wait he.symm
      exact ⟨ht, hr⟩
    | load => trivial
    | blocked => trivial
  | casOk =>
    obtain rfl := Option.some.inj he
    exact ⟨makeTaggedVersion_tagged hok.1, by rw [getRawVersion_makeTaggedVersion]; exact hok.2⟩
  | casFail => obtain rfl := Option.some.inj he; trivial
  | sleep => obtain rfl := Option.some.inj he; trivial
  | waitReturns => obtain rfl := Option.some.inj he; trivial
  | spurious => obtain rfl := Option.some.inj he; trivial

/-- A waiter's step leaves the word alone or tags it. -/
theorem WaitStep.word_eq_or_tagged {expected : BitVec 16} {word word' : BitVec 32} {pc : WaitPc}
    {next : Option WaitPc} (h : WaitStep expected word pc word' next) (hok : pc.Ok expected) :
    word' = word ∨ (isTaggedVersion word = false ∧ word' = makeTaggedVersion word) := by
  cases h with
  | casOk => exact .inr ⟨hok.1, rfl⟩
  | load => exact .inl rfl
  | casFail => exact .inl rfl
  | sleep => exact .inl rfl
  | waitReturns => exact .inl rfl
  | spurious => exact .inl rfl

theorem WaitStep.blocked {expected : BitVec 16} {word word' : BitVec 32} {pc : WaitPc}
    (h : WaitStep expected word pc word' (some .blocked)) : pc = .wait word ∧ word' = word := by
  generalize he : some WaitPc.blocked = next at h
  cases h with
  | load => exact absurd he.symm (afterLoad_ne_blocked _ _)
  | sleep => exact ⟨rfl, rfl⟩
  | casOk => simp at he
  | casFail => simp at he
  | waitReturns => simp at he
  | spurious => simp at he

/-- A sleeper is owed a wake, or sleeps on a tagged word that has not reached
the version it waits for. -/
structure Inv (s : State Tid) : Prop where
  ok : ∀ t expected pc, s.pc t = .waiting expected pc → pc.Ok expected
  sleeper : ∀ t expected, s.pc t = .waiting expected .blocked →
    (isTaggedVersion s.word = true ∧ getRawVersion s.word ≠ expected) ∨ WakePending s

omit [DecidableEq Tid] in
theorem inv_init {s : State Tid} (h : init s) : Inv s := by
  constructor
  · intro t expected pc ht
    simp [h.2 t] at ht
  · intro t expected ht
    simp [h.2 t] at ht

theorem pending_update {s : State Tid} {t : Tid} {pc : Pc} {word : BitVec 32} (hp : WakePending s)
    (ht : ∀ v, s.pc t ≠ .advancing v .wake) :
    WakePending { word := word, pc := Function.update s.pc t pc } := by
  obtain ⟨u, v, hu⟩ := hp
  have hne : u ≠ t := fun he => ht v (he ▸ hu)
  exact ⟨u, v, by simpa [hne] using hu⟩

/-- One thread moves and may replace the word. A tagged word is only replaced by
a thread that will wake the sleepers. -/
theorem Inv.move {s : State Tid} (hi : Inv s) {t : Tid} {pc : Pc} {word : BitVec 32}
    (ht : ∀ v, s.pc t ≠ .advancing v .wake)
    (hok : ∀ e p, pc = .waiting e p → p.Ok e)
    (hsleep : ∀ e, pc = .waiting e .blocked → isTaggedVersion word = true ∧ getRawVersion word ≠ e)
    (hword : isTaggedVersion s.word = true → word = s.word ∨ ∃ v, pc = .advancing v .wake) :
    Inv { word := word, pc := Function.update s.pc t pc } := by
  constructor
  · intro u e p hu
    by_cases hut : u = t
    · subst hut
      exact hok e p (by simpa using hu)
    · exact hi.ok u e p (by simpa [hut] using hu)
  · intro u e hu
    by_cases hut : u = t
    · subst hut
      exact .inl (hsleep e (by simpa using hu))
    · rcases hi.sleeper u e (by simpa [hut] using hu) with ⟨htag, hraw⟩ | hp
      · rcases hword htag with rfl | ⟨v, rfl⟩
        · exact .inl ⟨htag, hraw⟩
        · exact .inr ⟨t, v, by simp⟩
      · exact .inr (pending_update hp ht)

theorem WaitStep.inv {s : State Tid} (hi : Inv s) {t : Tid} {expected : BitVec 16} {pc : WaitPc}
    {word : BitVec 32} {next : Option WaitPc} (ht : s.pc t = .waiting expected pc)
    (hw : WaitStep expected s.word pc word next) :
    Inv { word := word, pc := Function.update s.pc t (.ofWait expected next) } := by
  have hok := hi.ok t expected pc ht
  apply hi.move (by simp [ht])
  · intro e p he
    cases next with
    | none => simp [Pc.ofWait] at he
    | some pc' =>
      obtain ⟨rfl, rfl⟩ := Pc.waiting.inj he
      exact hw.ok hok
  · intro e he
    cases next with
    | none => simp [Pc.ofWait] at he
    | some pc' =>
      obtain ⟨rfl, rfl⟩ := Pc.waiting.inj he
      obtain ⟨rfl, rfl⟩ := hw.blocked
      exact hok
  · intro htag
    rcases hw.word_eq_or_tagged hok with he | ⟨hnot, -⟩
    · exact .inl he
    · simp [htag] at hnot

theorem wake_inv {s : State Tid} (hi : Inv s) (t : Tid) :
    Inv { s with pc := Function.update (fun u => (s.pc u).woken) t .idle } := by
  have hwoken : ∀ u e p, (s.pc u).woken = .waiting e p → p ≠ .blocked ∧ p.Ok e := by
    intro u e p hu
    cases hp : s.pc u with
    | idle => simp [hp, Pc.woken] at hu
    | advancing v pc => simp [hp, Pc.woken] at hu
    | waiting e' pc =>
      simp only [hp, Pc.woken, Pc.waiting.injEq] at hu
      obtain ⟨rfl, rfl⟩ := hu
      have hok := hi.ok u e' pc hp
      cases pc <;> exact ⟨by simp [wakeAll], hok⟩
  constructor
  · intro u e p hu
    by_cases hut : u = t
    · simp [hut] at hu
    · exact (hwoken u e p (by simpa [hut] using hu)).2
  · intro u e hu
    by_cases hut : u = t
    · simp [hut] at hu
    · exact absurd rfl (hwoken u e .blocked (by simpa [hut] using hu)).1

theorem inv_step {s s' : State Tid} (hi : Inv s) (h : Step s s') : Inv s' := by
  cases h with
  | callWait t expected ht =>
    refine hi.move (by simp [ht]) ?_ (by simp) (fun _ => .inl rfl)
    intro e p he
    obtain ⟨-, rfl⟩ := Pc.waiting.inj he
    trivial
  | callAdvance t v ht => exact hi.move (by simp [ht]) (by simp) (by simp) (fun _ => .inl rfl)
  | wait t expected pc word next ht hw => exact hw.inv hi ht
  | exchange t v ht =>
    have hpc : ∀ e p, Pc.ofAdvance v (afterExchange s.word) ≠ .waiting e p := by
      intro e p
      cases afterExchange s.word <;> simp [Pc.ofAdvance]
    refine hi.move (by simp [ht]) (fun e p he => absurd he (hpc e p))
      (fun e he => absurd he (hpc e _)) (fun htag => .inr ⟨v, ?_⟩)
    simp [afterExchange, htag, Pc.ofAdvance]
  | wake t v ht => exact wake_inv hi t

theorem reachable_inv {s : State Tid} (h : Reachable init Step s) : Inv s :=
  h.invariant (fun _ => inv_init) (fun _ _ _ hi hs => inv_step hi hs)

/-- No wake-up is lost: a thread sleeps through the version it waits for only
while a `wake_all` is still to come, and nobody sleeps on an untagged word
without one. -/
theorem no_lost_wakeup {s : State Tid} (h : Reachable init Step s) {t : Tid} {expected : BitVec 16}
    (ht : s.pc t = .waiting expected .blocked) :
    (getRawVersion s.word = expected → WakePending s) ∧
      (isTaggedVersion s.word = true ∨ WakePending s) := by
  rcases (reachable_inv h).sleeper t expected ht with ⟨htag, hraw⟩ | hp
  · exact ⟨fun he => absurd he hraw, .inl htag⟩
  · exact ⟨fun _ => hp, .inr hp⟩

/-- A thread that waits for version 1 of a fresh slot tags the word and sleeps. -/
theorem no_lost_wakeup_sleeper : ∃ s : State Bool, Reachable init Step s ∧
    s.pc false = .waiting 1 .blocked ∧ s.word = 65536 ∧
    (getRawVersion s.word = 1 → WakePending s) ∧
      (isTaggedVersion s.word = true ∨ WakePending s) := by
  have h₀ : Reachable init Step (⟨0, fun _ => .idle⟩ : State Bool) := .of_init ⟨rfl, fun _ => rfl⟩
  have h₁ := h₀.tail (.callWait _ false 1 rfl)
  have h₂ := h₁.tail (.wait _ false 1 _ _ _ rfl (.load _))
  have h₃ := h₂.tail (.wait _ false 1 _ _ _ rfl (.casOk _))
  have h₄ := h₃.tail (.wait _ false 1 _ _ _ rfl (.sleep _))
  exact ⟨_, h₄, rfl, rfl, no_lost_wakeup (t := false) h₄ rfl⟩

end Wizard.SlotFutex
