import Wizard.Paced
import Wizard.RouteSeqlockSafe

/-! What a lookup of `route_seqlock.c` returns, and what it comes to when no writer gets in its
way. -/

namespace Wizard.RouteSeqlock

open RouteTable

variable {W : Type*} {sl : SeqLock W} {s s' : State W} {l : List Nat} {t : Nat}

/-- The turns of a thread in `route_lookup`. -/
inductive Turn (sl : SeqLock W) (s : State W) : Reader W → Reader W → Prop
  | call (addr) : Turn sl s .idle (.retry addr)
  | seqbegin (addr) : Turn sl s (.retry addr) (.load addr (sl.begin_ s.seq) .routeList)
  | load (addr w repp rep) (hn : s.next repp = some rep) : Turn sl s (.load addr w repp) (.compare addr w rep)
  | loadNull (addr w repp) (hn : s.next repp = none) : Turn sl s (.load addr w repp) (.verify addr w ulongMax)
  | differ (addr w rep) : Turn sl s (.compare addr w rep) (.load addr w (.entry rep))
  | agree (addr w rep) : Turn sl s (.compare addr w rep) (.check addr w rep)
  | abort (addr w rep) (hf : s.reFreed rep = true) : Turn sl s (.check addr w rep) .aborted
  | pass (addr w rep) : Turn sl s (.check addr w rep) (.read addr w rep)
  | loadIface (addr w rep) : Turn sl s (.read addr w rep) (.verify addr w (s.iface rep))
  | again (addr w ret) (hr : sl.retry s.seq w = true) : Turn sl s (.verify addr w ret) (.retry addr)
  | done (addr w ret) (hr : sl.retry s.seq w = false) : Turn sl s (.verify addr w ret) (.returned addr ret)
  | return_ (addr ret) : Turn sl s (.returned addr ret) .idle

theorem setReader_self (s : State W) (t : Nat) (r : Reader W) : (s.setReader t r).reader t = r :=
  Function.update_self ..

theorem Step.turn (hs : Step sl s s') (t : Nat) :
    s'.reader t = s.reader t ∨ ∃ r, Turn sl s (s.reader t) r ∧ s' = s.setReader t r := by
  have key : ∀ u r, Turn sl s (s.reader u) r → (s.setReader u r).reader t = s.reader t ∨
      ∃ r', Turn sl s (s.reader t) r' ∧ s.setReader u r = s.setReader t r' := by
    intro u r h
    by_cases htu : t = u
    · subst htu
      exact .inr ⟨r, h, rfl⟩
    · exact .inl (Function.update_of_ne htu _ _)
  cases hs with
  | call u addr h => exact key u _ (h ▸ .call addr)
  | seqbegin u addr h => exact key u _ (h ▸ .seqbegin addr)
  | load u addr w repp rep h hn => exact key u _ (h ▸ .load addr w repp rep hn)
  | loadNull u addr w repp h hn => exact key u _ (h ▸ .loadNull addr w repp hn)
  | differ u addr w rep h => exact key u _ (h ▸ .differ addr w rep)
  | agree u addr w rep h => exact key u _ (h ▸ .agree addr w rep)
  | checkFreed u addr w rep h =>
    refine key u _ ?_
    rw [h]
    split
    · exact .abort addr w rep ‹_›
    · exact .pass addr w rep
  | loadIface u addr w rep h => exact key u _ (h ▸ .loadIface addr w rep)
  | seqretry u addr w ret h =>
    refine key u _ ?_
    rw [h]
    cases hre : sl.retry s.seq w with
    | true => exact .again addr w ret hre
    | false => exact .done addr w ret hre
  | return_ u addr ret h => exact key u _ (h ▸ .return_ addr ret)
  | _ => exact .inl rfl

/-- A lookup that returns has the answer of the table at its `read_seqretry`. -/
theorem Inv.answer_of_turn (hi : Inv sl s l) {addr ret : BitVec 64} (ht : Turn sl s (s.reader t) (.returned addr ret)) :
    answer s.table addr = ret := by
  have hk := hi.reader t
  generalize s.reader t = r at ht hk
  cases ht with
  | done addr w ret hr => exact (hk w rfl).of_retry hr

/-- What a lookup returns is what the table says at some moment between its start and its end,
whatever it came across in freed memory on its way. -/
theorem lookup_answers {u : State W} {visited : List (State W)} (h : Reachable Init (Step sl) s)
    (hidle : s.reader t = .idle)
    (hr : Run (Step sl) s visited u) {addr ret : BitVec 64} (hret : u.reader t = .returned addr ret) :
    ∃ v ∈ visited, answer v.table addr = ret := by
  have key : Reachable Init (Step sl) u ∧
      ∀ addr ret, u.reader t = .returned addr ret → ∃ v ∈ visited, answer v.table addr = ret := by
    clear hret
    induction hr with
    | start =>
      refine ⟨h, fun addr ret hre => ?_⟩
      cases hidle.symm.trans hre
    | tail hr hs ih =>
      obtain ⟨hreach, ih⟩ := ih
      refine ⟨hreach.tail hs, fun addr ret hre => ?_⟩
      rcases hs.turn t with hsame | ⟨r, hturn, rfl⟩
      · obtain ⟨v, hv, ha⟩ := ih addr ret (hsame.symm.trans hre)
        exact ⟨v, List.mem_append_left _ hv, ha⟩
      · obtain ⟨l, hi⟩ := inv_of_reachable hreach
        have hself : r = .returned addr ret := (setReader_self _ t r).symm.trans hre
        rw [hself] at hturn
        exact ⟨_, List.mem_append_left _ hr.end_mem, hi.answer_of_turn hturn⟩
  exact key.2 addr ret hret

/-- The route is added while the lookup is under way, which starts over for that. -/
theorem lookup_answers_retried : ∃ (u : State Nat) (visited : List (State Nat)),
    Run (Step SeqLock.parity) unused visited u ∧ u.reader 1 = .returned 5 7 ∧ ∃ v ∈ visited, answer v.table 5 = 7 := by
  have r₀ : Run (Step SeqLock.parity) unused [unused] unused := .start
  have r₁ := (r₀.tail (.call _ 1 5 rfl)).tail (.seqbegin _ 1 5 rfl)
  have r₂ := (r₁.tail (.malloc _ 0 5 7 rfl)).tail (.addLock _ 0 rfl rfl)
  have r₃ := (r₂.tail (.loadNull _ 1 5 0 .routeList rfl rfl)).tail (.seqretry _ 1 5 0 ulongMax rfl)
  have r₄ := ((r₃.tail (.link _ 0 rfl)).tail (.publish _ 0 rfl)).tail (.unlock _ rfl)
  have r₅ := (r₄.tail (.seqbegin _ 1 5 rfl)).tail (.load _ 1 5 2 .routeList 0 rfl rfl)
  have r₆ := (r₅.tail (.agree _ 1 5 2 0 rfl rfl)).tail (.checkFreed _ 1 5 2 0 rfl)
  have r₇ := (r₆.tail (.loadIface _ 1 5 2 0 rfl)).tail (.seqretry _ 1 5 2 7 rfl)
  exact ⟨_, _, r₇, rfl, lookup_answers (t := 1) (.of_init init_unused) rfl r₇ rfl⟩

/-- The look at `re_freed` comes before `read_seqretry`. -/
theorem exists_aborted : ∃ s : State Nat, Reachable Init (Step SeqLock.parity) s ∧ s.reader 1 = .aborted := by
  have h₀ : Reachable Init (Step SeqLock.parity) unused := .of_init init_unused
  have h₁ := ((h₀.tail (.malloc _ 0 5 7 rfl)).tail (.addLock _ 0 rfl rfl)).tail (.link _ 0 rfl)
  have h₂ := (h₁.tail (.publish _ 0 rfl)).tail (.unlock _ rfl)
  have h₃ := (h₂.tail (.call _ 1 5 rfl)).tail (.seqbegin _ 1 5 rfl)
  have h₄ := (h₃.tail (.load _ 1 5 2 .routeList 0 rfl rfl)).tail (.agree _ 1 5 2 0 rfl rfl)
  have h₅ := (h₄.tail (.delLock _ 5 rfl)).tail (.scan _ 5 .routeList 0 rfl rfl)
  have h₆ := (h₅.tail (.testAgree _ 5 .routeList 0 rfl rfl)).tail (.skip _ .routeList 0 rfl)
  have h₇ := (h₆.tail (.unlockDel _ 0 rfl)).tail (.flag _ 0 rfl)
  exact ⟨_, h₇.tail (.checkFreed _ 1 5 2 0 rfl), rfl⟩

/-- How many turns a lookup has left until it returns, if no writer comes in. -/
def Left (sl : SeqLock W) (s : State W) (l : List Nat) (m : Nat) : Reader W → Prop
  | .load _ w repp => w = sl.begin_ s.seq ∧ ∃ front back, l = front ++ back ∧ repp.After front ∧ 2 * back.length + 3 ≤ m
  | .compare _ w a => w = sl.begin_ s.seq ∧ ∃ front back, l = front ++ a :: back ∧ 2 * back.length + 4 ≤ m
  | .check _ w a => w = sl.begin_ s.seq ∧ a ∈ l ∧ 3 ≤ m
  | .read _ w a => w = sl.begin_ s.seq ∧ a ∈ l ∧ 2 ≤ m
  | .verify _ w _ => w = sl.begin_ s.seq ∧ 1 ≤ m
  | .returned _ _ => True
  | _ => False

theorem Inv.allocated (hi : Inv sl s l) {a : Nat} (ha : a ∈ l) : s.stage a = .linked ∧ s.reFreed a = false := by
  have hst := hi.linked a ha
  refine ⟨hst, ?_⟩
  cases hf : s.reFreed a with
  | false => rfl
  | true => rcases hi.flag a hf with h | h <;> cases hst.symm.trans h

theorem Left.turn {m : Nat} {r r' : Reader W} (hi : Inv sl s l) (hw : s.writer = none) (ht : Turn sl s r r')
    (hr : ∀ addr ret, r ≠ .returned addr ret) (h : Left sl s l m r) : ∃ k, k < m ∧ Left sl s l k r' := by
  cases ht with
  | load addr w repp rep hn =>
    obtain ⟨hb, front, back, rfl, hf, hm⟩ := h
    rw [hi.next_eq hf] at hn
    cases back with
    | nil => cases hn
    | cons b back =>
      cases hn
      rw [List.length_cons] at hm
      exact ⟨2 * back.length + 4, by omega, hb, front, back, rfl, le_rfl⟩
  | loadNull addr w repp hn =>
    obtain ⟨hb, front, back, -, -, hm⟩ := h
    exact ⟨1, by omega, hb, le_rfl⟩
  | differ addr w rep =>
    obtain ⟨hb, front, back, rfl, hm⟩ := h
    exact ⟨2 * back.length + 3, by omega, hb, front ++ [rep], back, by simp, ⟨front, rfl⟩, le_rfl⟩
  | agree addr w rep =>
    obtain ⟨hb, front, back, rfl, hm⟩ := h
    exact ⟨3, by omega, hb, by simp, le_rfl⟩
  | abort addr w rep hf =>
    obtain ⟨-, ha, -⟩ := h
    cases (hi.allocated ha).2.symm.trans hf
  | pass addr w rep =>
    obtain ⟨hb, ha, hm⟩ := h
    exact ⟨2, by omega, hb, ha, le_rfl⟩
  | loadIface addr w rep =>
    obtain ⟨hb, -, hm⟩ := h
    exact ⟨1, by omega, hb, le_rfl⟩
  | again addr w ret hre =>
    obtain ⟨hb, -⟩ := h
    rw [hb, sl.quiet s.seq (hi.idle.1 hw)] at hre
    cases hre
  | done addr w ret =>
    obtain ⟨-, hm⟩ := h
    exact ⟨0, by omega, trivial⟩
  | return_ addr ret => exact absurd rfl (hr addr ret)
  | call | seqbegin => exact h.elim

theorem Left.pos {m : Nat} {r : Reader W} (hr : ∀ addr ret, r ≠ .returned addr ret) (h : Left sl s l m r) : 0 < m := by
  cases r with
  | load addr w repp =>
    obtain ⟨-, front, back, -, -, hm⟩ := h
    omega
  | compare addr w a =>
    obtain ⟨-, front, back, -, hm⟩ := h
    omega
  | check addr w a | read addr w a =>
    obtain ⟨-, -, hm⟩ := h
    omega
  | verify addr w ret => exact h.2
  | returned addr ret => exact absurd rfl (hr addr ret)
  | _ => exact h.elim

theorem Left.mem_of_uses {m a : Nat} {r : Reader W} (h : Left sl s l m r) (hu : r.uses? = some a) : a ∈ l := by
  cases r with
  | load addr w repp =>
    obtain ⟨-, front, back, rfl, hf, -⟩ := h
    cases repp with
    | routeList => cases hu
    | entry b =>
      cases hu
      exact List.mem_append_left _ hf.mem
  | compare addr w b =>
    cases hu
    obtain ⟨-, front, back, rfl, -⟩ := h
    simp
  | check addr w b | read addr w b =>
    cases hu
    exact h.2.1
  | _ => cases hu

/-- No writer is in before the step or after it. -/
theorem Step.seq_eq (hs : Step sl s s') (hw : s.writer = none) (hw' : s'.writer = none) : s'.seq = s.seq := by
  have hsome : ∀ {sec : Section}, s.writer = some sec → s'.seq = s.seq := by
    intro sec h
    cases hw.symm.trans h
  cases hs with
  | addLock a h _ | delLock addr _ | clearLock _ => cases hw'
  | unlock h | unlockDel rep h => exact hsome h
  | _ => rfl

def Bound (sl : SeqLock W) (t : Nat) (s : State W) (m : Nat) : Prop := ∃ l, Inv sl s l ∧ Left sl s l m (s.reader t)

/-- The step is a turn of the thread. -/
def Turns (t : Nat) (s s' : State W) : Prop := s'.reader t ≠ s.reader t

theorem Bound.own {m : Nat} (hb : Bound sl t s m) (hw : s.writer = none)
    (hr : ∀ addr ret, s.reader t ≠ .returned addr ret)
    (hs : Step sl s s') (ho : Turns t s s') : ∃ k, k < m ∧ Bound sl t s' k := by
  obtain ⟨l, hi, hl⟩ := hb
  obtain ⟨l', hi', hsame⟩ := hi.step hs
  rw [hsame hw] at hi'
  rcases hs.turn t with hre | ⟨r, hturn, rfl⟩
  · exact absurd hre ho
  · obtain ⟨k, hk, hl'⟩ := hl.turn hi hw hturn hr
    refine ⟨k, hk, l, hi', ?_⟩
    rw [setReader_self]
    exact hl'

theorem Bound.other {m : Nat} (hb : Bound sl t s m) (hw : s.writer = none) (hw' : s'.writer = none)
    (hs : Step sl s s') (ho : ¬ Turns t s s') : Bound sl t s' m := by
  obtain ⟨l, hi, hl⟩ := hb
  obtain ⟨l', hi', hsame⟩ := hi.step hs
  rw [hsame hw] at hi'
  refine ⟨l, hi', ?_⟩
  rw [not_not.1 ho]
  unfold Left at hl ⊢
  rw [hs.seq_eq hw hw']
  exact hl

/-- While no writer is in, a lookup that has called `read_seqbegin` does not abort, start over or
come to freed memory, and returns after at most two turns for each route and three more. -/
theorem lookup_undisturbed {u : State W} {visited : List (State W)} {n : Nat} {addr : BitVec 64}
    (h : Reachable Init (Step sl) s) (hload : s.reader t = .load addr (sl.begin_ s.seq) .routeList)
    (hr : PacedRun (Step sl) (Turns t) s visited n u) (hno : ∀ v ∈ visited, v.writer = none)
    (hret : ∀ v ∈ visited, ∀ addr ret, v.reader t ≠ .returned addr ret) :
    n ≤ 2 * s.table.length + 2 ∧ u.reader t ≠ .aborted ∧ (∀ addr', u.reader t ≠ .retry addr') ∧
      ∀ a, (u.reader t).uses? = some a → u.stage a = .linked ∧ u.reFreed a = false := by
  obtain ⟨l, hi⟩ := inv_of_reachable h
  have hfirst : Left sl s l (2 * s.table.length + 3) (s.reader t) := by
    rw [hload]
    refine ⟨rfl, [], l, rfl, rfl, ?_⟩
    simp [hi.table]
  have hok : ∀ v ∈ visited, v.writer = none ∧ ∀ addr ret, v.reader t ≠ .returned addr ret :=
    fun v hv => ⟨hno v hv, hret v hv⟩
  obtain ⟨k, hk, l', hi', hl⟩ := hr.le_of_bound (Bound sl t) hok ⟨l, hi, hfirst⟩
    (fun v v' m hv _ hb hst ho => hb.own hv.1 hv.2 hst ho)
    (fun v v' m hv hv' hb hst ho => hb.other hv.1 hv'.1 hst ho)
  have hpos := hl.pos (hret u hr.end_mem)
  refine ⟨by omega, fun hre => ?_, fun addr' hre => ?_, fun a ha => hi'.allocated (hl.mem_of_uses ha)⟩
  · rw [hre] at hl
    exact hl
  · rw [hre] at hl
    exact hl

/-- The lookup goes past one of two routes while another thread gets memory. -/
theorem lookup_undisturbed_two : ∃ (s u : State Nat) (visited : List (State Nat)) (n : Nat),
    PacedRun (Step SeqLock.parity) (Turns 1) s visited n u ∧ s.table = [⟨6, 8⟩, ⟨5, 7⟩] ∧ n = 6 ∧
    u.reader 1 = .verify 5 4 7 ∧ n ≤ 2 * s.table.length + 2 ∧ ∀ addr', u.reader 1 ≠ .retry addr' := by
  have h₀ : Reachable Init (Step SeqLock.parity) unused := .of_init init_unused
  have h₁ := ((h₀.tail (.malloc _ 0 5 7 rfl)).tail (.addLock _ 0 rfl rfl)).tail (.link _ 0 rfl)
  have h₂ := (h₁.tail (.publish _ 0 rfl)).tail (.unlock _ rfl)
  have h₃ := ((h₂.tail (.malloc _ 1 6 8 rfl)).tail (.addLock _ 1 rfl rfl)).tail (.link _ 1 rfl)
  have h₄ := (h₃.tail (.publish _ 1 rfl)).tail (.unlock _ rfl)
  have h := (h₄.tail (.call _ 1 5 rfl)).tail (.seqbegin _ 1 5 rfl)
  have start : ∀ {s : State Nat}, Reachable Init (Step SeqLock.parity) s →
      PacedRun (Step SeqLock.parity) (Turns 1) s [s] 0 s := fun _ => .start
  have r₁ := (start h).own (.load _ 1 5 4 .routeList 1 rfl rfl) nofun
  have r₂ := r₁.own (.differ _ 1 5 4 1 rfl (by decide)) nofun
  have r₃ := r₂.other (.malloc _ 2 9 9 rfl) (not_not_intro rfl)
  have r₄ := r₃.own (.load _ 1 5 4 (.entry 1) 0 rfl rfl) nofun
  have r₅ := r₄.own (.agree _ 1 5 4 0 rfl rfl) nofun
  have r₆ := r₅.own (.checkFreed _ 1 5 4 0 rfl) nofun
  have r₇ := r₆.own (.loadIface _ 1 5 4 0 rfl) nofun
  have hu := lookup_undisturbed h rfl r₇ ?_ ?_
  · exact ⟨_, _, _, _, r₇, rfl, rfl, rfl, hu.1, hu.2.2.1⟩
  · intro v hv
    simp only [List.mem_append, List.mem_singleton] at hv
    rcases hv with ((((((rfl | rfl) | rfl) | rfl) | rfl) | rfl) | rfl) | rfl <;> rfl
  · intro v hv
    simp only [List.mem_append, List.mem_singleton] at hv
    rcases hv with ((((((rfl | rfl) | rfl) | rfl) | rfl) | rfl) | rfl) | rfl <;> exact nofun

end Wizard.RouteSeqlock
