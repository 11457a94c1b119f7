import Wizard.LockFreeQueueShadow
import Wizard.Tickets

/-! The pops of `lock_free_queue.h` take the objects in the order in which pushes have put them
into nodes. -/

namespace Wizard.LockFreeQueue.Shared

variable {T Tid : Type*} {s s' : State T Tid} {q b b' : LockFreeQueue.State T Tid} {t u : Tid} {p : Pop}
  {seen seen' : List Nat} {a i k : Nat}

theorem getElem?_append_some {α : Type*} {l : List α} {x : α} (h : l[i]? = some x) (m : List α) :
    (l ++ m)[i]? = some x := (List.getElem?_append_left (List.getElem?_eq_some_iff.1 h).1).trans h

/-- The number of a pop that has moved head and not taken the data. -/
def Pop.turn? : Pop → Option Nat
  | .data _ turn => some turn
  | _ => none

/-- What a pop knows, where `seen` are the nodes that tail has been at. -/
def Pop.Ok (seen : List Nat) (swung : Nat) (popped : List (Option (Option Nat))) : Pop → Prop
  | .tail old => ∃ i ≤ popped.length, old.ptr = seen[i]?
  | .next old => ∃ i ≤ popped.length, i < swung ∧ old.ptr = seen[i]?
  | .head old new => ∃ i ≤ popped.length, i < swung ∧ old.ptr = seen[i]? ∧ new.ptr = seen[i + 1]?
  | .data old turn => turn < popped.length ∧ old.ptr = seen[turn]?
  | .freeLoad _ res | .freeCas _ _ res | .returned res => ∃ k : Nat, popped[k]? = some (some res)
  | .empty drained => drained = true
  | _ => True

/-- A pop has taken the object of the node. -/
def State.Taken (s : State T Tid) (seen : List Nat) (a : Nat) : Prop :=
  ∃ (k : Nat) (r : Option Nat), seen[k]? = some a ∧ s.popped[k]? = some (some r)

/-- Tail has been at the nodes `seen`, in this order, and `b` is the queue without the pops. -/
structure Inv (s : State T Tid) (b : LockFreeQueue.State T Tid) (seen : List Nat) : Prop where
  pushes : ∃ front last rest, seen = front ++ [last] ∧ LockFreeQueue.Inv b front last rest
  shadow : Shadow s.made (s.Taken seen) s.queue b
  swung : s.swung + 1 = seen.length
  cells : ∀ (k a : Nat), seen[k]? = some a → (b.node a).data = s.pushed[k]?
  pushed : s.pushed.length ≤ s.swung + 1
  popped : s.popped.length ≤ s.swung
  head : s.queue.head.ptr = seen[s.popped.length]?
  tickets : Tickets s.pushed s.popped fun t => (s.pop t).turn?
  pops : ∀ t, (s.pop t).Ok seen s.swung s.popped

theorem Pop.Ok.mono {swung swung' : Nat} {popped popped' : List (Option (Option Nat))} (h : p.Ok seen swung popped)
    (hseen : ∀ i ≤ swung, seen'[i]? = seen[i]?) (hle : popped.length ≤ swung) (hswung : swung ≤ swung')
    (hlen : popped.length ≤ popped'.length)
    (hpop : ∀ (k : Nat) (r : Option Nat), popped[k]? = some (some r) → popped'[k]? = some (some r)) :
    p.Ok seen' swung' popped' := by
  cases p with
  | tail old =>
    obtain ⟨i, hi, ho⟩ := h
    exact ⟨i, hi.trans hlen, ho.trans (hseen i (hi.trans hle)).symm⟩
  | next old =>
    obtain ⟨i, hi, hlt, ho⟩ := h
    exact ⟨i, hi.trans hlen, hlt.trans_le hswung, ho.trans (hseen i hlt.le).symm⟩
  | head old next =>
    obtain ⟨i, hi, hlt, ho, hn⟩ := h
    exact ⟨i, hi.trans hlen, hlt.trans_le hswung, ho.trans (hseen i hlt.le).symm, hn.trans (hseen (i + 1) hlt).symm⟩
  | data old turn =>
    obtain ⟨hlt, ho⟩ := h
    exact ⟨hlt.trans_le hlen, ho.trans (hseen turn (hlt.le.trans hle)).symm⟩
  | freeLoad _ res | freeCas _ _ res | returned res =>
    obtain ⟨k, hk⟩ := h
    exact ⟨k, hpop k res hk⟩
  | empty drained => exact h
  | _ => trivial

section Facts

variable (h : Inv s b seen)
include h

theorem Inv.nodup : seen.Nodup := by
  obtain ⟨front, last, rest, rfl, hi⟩ := h.pushes
  exact hi.seen_nodup

theorem Inv.exists_seen (hi : i ≤ s.swung) : ∃ a, seen[i]? = some a := by
  have hswung := h.swung
  exact ⟨seen[i], List.getElem?_eq_getElem (by omega)⟩

/-- A node has one place. -/
theorem Inv.index (hi : seen[i]? = some a) (hk : seen[k]? = some a) : i = k := by
  obtain ⟨hlt, rfl⟩ := List.getElem?_eq_some_iff.1 hi
  obtain ⟨hlt', he⟩ := List.getElem?_eq_some_iff.1 hk
  exact (h.nodup.getElem_inj_iff.1 he).symm

theorem Inv.tail_ptr : s.queue.tail.ptr = seen[s.swung]? := by
  obtain ⟨front, last, rest, rfl, hi⟩ := h.pushes
  have hswung := h.swung
  rw [List.length_append, List.length_singleton] at hswung
  rw [← h.shadow.tail, hi.tail, Nat.add_right_cancel hswung, List.getElem?_concat_length]

/-- Where tail has gone on, there is an object. -/
theorem Inv.swung_le : s.swung ≤ s.pushed.length := by
  obtain ⟨front, last, rest, rfl, hi⟩ := h.pushes
  have hswung := h.swung
  rw [List.length_append, List.length_singleton] at hswung
  by_contra hlt
  have hk : s.pushed.length < front.length := by omega
  have ha : (front ++ [last])[s.pushed.length]? = some front[s.pushed.length] := by
    rw [List.getElem?_append_left hk, List.getElem?_eq_getElem hk]
  have hd := h.cells _ _ ha
  rw [List.getElem?_eq_none le_rfl] at hd
  exact hi.full _ (List.getElem_mem hk) hd

theorem Inv.not_taken (ha : seen[k]? = some a) (hk : ∀ r, s.popped[k]? ≠ some (some r)) : ¬ s.Taken seen a := by
  rintro ⟨m, r, hm, hr⟩
  rw [h.index hm ha] at hr
  exact hk r hr

/-- The node where tail is still has its object. -/
theorem Inv.tail_not_taken (ha : s.queue.tail.ptr = some a) : ¬ s.Taken seen a := by
  refine h.not_taken (h.tail_ptr.symm.trans ha) fun r hr => ?_
  have hlt := (List.getElem?_eq_some_iff.1 hr).1
  have hle := h.popped
  omega

/-- From a node that tail has left the next one is that of the next place. -/
theorem Inv.next (hi : i < s.swung) (ha : seen[i]? = some a) : (s.queue.node a).next.ptr = seen[i + 1]? := by
  obtain ⟨front, last, rest, rfl, hq⟩ := h.pushes
  have hswung := h.swung
  rw [List.length_append, List.length_singleton] at hswung
  rw [← h.shadow.next]
  exact hq.next_seen (by omega) ha

end Facts

section Pushes

variable [DecidableEq Tid]

omit [DecidableEq Tid] in
/-- The places of the nodes, and the objects, after a step of a push. -/
theorem Inv.push_ledger {o : Option Nat} (h : Inv s b seen) (hg : Grows b b' seen o seen')
    (ht : b'.tail.ptr = q.tail.ptr) (hpushed : (s.push t q).pushed = s.pushed ++ o.toList) :
    (∀ i ≤ s.swung, seen'[i]? = seen[i]?) ∧ s.swung ≤ (s.push t q).swung ∧
      (s.push t q).swung + 1 = seen'.length ∧
      (∀ (k a : Nat), seen'[k]? = some a → (b'.node a).data = (s.push t q).pushed[k]?) ∧
      (s.push t q).pushed.length ≤ (s.push t q).swung + 1 := by
  have hswung := h.swung
  have hlen := h.pushed
  have hmem : ∀ {k a : Nat}, seen[k]? = some a → a ∈ seen := fun hk => List.mem_of_getElem? hk
  have hsame : b'.tail.ptr = b.tail.ptr → (s.push t q).swung = s.swung := fun hb =>
    if_pos (by rw [← ht, hb, h.shadow.tail])
  cases hg with
  | same hb hd =>
    have hp : (s.push t q).pushed = s.pushed := by simpa using hpushed
    rw [hsame hb, hp]
    refine ⟨fun _ _ => rfl, le_rfl, hswung, fun k a ha => ?_, hlen⟩
    rw [hd a (hmem ha)]
    exact h.cells k a ha
  | fill v last hb hlast hnone hsome hd =>
    have hplace : seen[s.swung]? = some last := by rw [← h.tail_ptr, ← h.shadow.tail, hlast]
    have hfull : s.pushed.length = s.swung := by
      have hcell := h.cells _ _ hplace
      rw [hnone] at hcell
      have hle := List.getElem?_eq_none_iff.1 hcell.symm
      have hge := h.swung_le
      omega
    rw [hsame hb, hpushed]
    refine ⟨fun _ _ => rfl, le_rfl, hswung, fun k a ha => ?_, ?_⟩
    · by_cases hk : k = s.swung
      · rw [hk, hplace] at ha
        cases ha
        rw [hk, hsome, ← hfull]
        exact List.getElem?_concat_length.symm
      · have hne : a ≠ last := by
          rintro rfl
          exact hk (h.index ha hplace)
        have hlt := (List.getElem?_eq_some_iff.1 ha).1
        rw [hd a (hmem ha) hne, List.getElem?_append_left (by omega)]
        exact h.cells k a ha
    · simp [hfull]
  | swing last next hb hlast hsome hnone hd =>
    have hmore : (s.push t q).swung = s.swung + 1 := if_neg (by rwa [← ht, ← h.shadow.tail])
    have hp : (s.push t q).pushed = s.pushed := by simpa using hpushed
    have hfull : s.pushed.length = s.swung + 1 := by
      have hplace : seen[s.swung]? = some last := by rw [← h.tail_ptr, ← h.shadow.tail, hlast]
      rw [h.cells _ _ hplace] at hsome
      have hlt := List.getElem?_eq_none_iff.not.1 hsome
      omega
    rw [hmore, hp]
    refine ⟨fun i hi => List.getElem?_append_left (by omega), Nat.le_succ _, ?_, fun k a ha => ?_, by omega⟩
    · rw [List.length_append, List.length_singleton, hswung]
    · by_cases hk : k < seen.length
      · rw [List.getElem?_append_left hk] at ha
        rw [hd a (hmem ha)]
        exact h.cells k a ha
      · have hlt := (List.getElem?_eq_some_iff.1 ha).1
        rw [List.length_append, List.length_singleton] at hlt
        obtain rfl : k = seen.length := by omega
        rw [List.getElem?_concat_length] at ha
        cases ha
        rw [hnone, List.getElem?_eq_none (by omega)]

theorem Inv.push (h : Inv s b seen) (hs : LockFreeQueue.Step t s.queue q) (hsteady : Steady t s (s.push t q)) :
    ∃ b' seen', Inv (s.push t q) b' seen' ∧ Grows b b' seen (filled? (s.queue.pc t) (q.pc t)) seen' := by
  obtain ⟨front, last, rest, rfl, hi⟩ := h.pushes
  obtain ⟨b', front', last', rest', hi', hg, hshadow⟩ := h.shadow.step hi hs hsteady.careful
    (fun k n old p hpc hp hnone => h.tail_not_taken (hsteady.data k n old p hpc hp hnone)) hsteady.fresh
  obtain ⟨hseen, hle, hswung, hcells, hlen⟩ := h.push_ledger hg (congrArg CountedNodePtr.ptr hshadow.tail) rfl
  refine ⟨b', _, ⟨⟨front', last', rest', rfl, hi'⟩, ?_, hswung, hcells, hlen, h.popped.trans hle, ?_, ?_, fun u => ?_⟩,
    hg⟩
  · refine hshadow.mono fun a ht => ?_
    obtain ⟨k, r, hk, hr⟩ := ht
    have hlt := (List.getElem?_eq_some_iff.1 hr).1
    have hpop := h.popped
    exact ⟨k, r, (hseen k (by omega)).trans hk, hr⟩
  · change q.head.ptr = _
    rw [hs.head_eq, h.head]
    exact (hseen _ h.popped).symm
  · exact h.tickets.push _
  · exact (h.pops u).mono hseen h.popped hle le_rfl fun _ _ hr => hr

end Pushes

section Pops

variable [DecidableEq Tid]

theorem setPop_self (s : State T Tid) (t : Tid) (p : Pop) : (s.setPop t p).pop t = p := Function.update_self ..

theorem turn_setPop (s : State T Tid) (t u : Tid) (hp : p.turn? = (s.pop t).turn?) :
    ((s.setPop t p).pop u).turn? = (s.pop u).turn? := by
  by_cases hu : u = t
  · rw [hu, ← hp, setPop_self]
  · exact congrArg Pop.turn? (Function.update_of_ne hu _ _)

/-- A pop goes on, and may change the counts. -/
theorem Inv.goOn (h : Inv s b seen) (hq : Shadow s.made (s.Taken seen) q b) (hhead : q.head.ptr = s.queue.head.ptr)
    (hturn : p.turn? = (s.pop t).turn?) (hok : p.Ok seen s.swung s.popped) :
    Inv ({ s with queue := q }.setPop t p) b seen where
  pushes := h.pushes
  shadow := hq
  swung := h.swung
  cells := h.cells
  pushed := h.pushed
  popped := h.popped
  head := hhead.trans h.head
  tickets := h.tickets.congr fun u => turn_setPop s t u hturn
  pops := (Function.forall_update_iff s.pop fun _ p => p.Ok seen s.swung s.popped).2 ⟨hok, fun u _ => h.pops u⟩

theorem Inv.move (h : Inv s b seen) (hturn : p.turn? = (s.pop t).turn?) (hok : p.Ok seen s.swung s.popped) :
    Inv (s.setPop t p) b seen := h.goOn h.shadow rfl hturn hok

/-- A pop wins head. -/
theorem Inv.takeHead (h : Inv s b seen) {old next : CountedNodePtr} (ht : s.pop t = .head old next)
    (he : s.queue.head = old) :
    Inv (({ s with popped := s.popped ++ [none] }.setHead next).setPop t (.data old s.popped.length)) b seen := by
  have hok := h.pops t
  rw [ht] at hok
  obtain ⟨i, hi, hlt, ho, hn⟩ := hok
  obtain ⟨a, ha⟩ := h.exists_seen hlt.le
  have hplace : seen[s.popped.length]? = seen[i]? := by rw [← ho, ← h.head, he]
  obtain rfl : i = s.popped.length := h.index ha (hplace.trans ha)
  have hkeep : ∀ (k : Nat) (r : Option Nat), s.popped[k]? = some (some r) → (s.popped ++ [none])[k]? = some (some r) :=
    fun k r hr => getElem?_append_some hr _
  have hlen : (s.popped ++ [none]).length = s.popped.length + 1 := by simp
  constructor
  case pushes => exact h.pushes
  case shadow =>
    have htaken : Shadow s.made (State.Taken { s with popped := s.popped ++ [none] } seen) s.queue b :=
      h.shadow.mono fun a ⟨k, r, hk, hr⟩ => ⟨k, r, hk, hkeep k r hr⟩
    exact ⟨htaken.tail, htaken.values, htaken.next, htaken.data, htaken.live, htaken.pc⟩
  case swung => exact h.swung
  case cells => exact h.cells
  case pushed => exact h.pushed
  case popped => exact hlen.trans_le hlt
  case head =>
    change next.ptr = seen[(s.popped ++ [none]).length]?
    rw [hlen]
    exact hn
  case tickets =>
    refine h.tickets.draw (hlt.trans_le h.swung_le) (by rw [ht]; rfl) ?_ fun u hu => ?_
    · exact congrArg Pop.turn? (setPop_self _ t _)
    · exact congrArg Pop.turn? (Function.update_of_ne hu _ _)
  case pops =>
    refine (Function.forall_update_iff s.pop fun _ p => p.Ok seen s.swung (s.popped ++ [none])).2
      ⟨⟨?_, ho⟩, fun u _ => ?_⟩
    · rw [hlen]
      exact Nat.lt_succ_self _
    · exact (h.pops u).mono (fun _ _ => rfl) h.popped le_rfl (by simp) hkeep

/-- A pop takes the data of the node from which it has moved head. -/
theorem Inv.takeData (h : Inv s b seen) {old : CountedNodePtr} {turn : Nat} (ht : s.pop t = .data old turn)
    (hp : old.ptr = some a) :
    (s.queue.node a).data = s.pushed[turn]? ∧
      Inv ({ s with
        queue := s.queue.setNode a { s.queue.node a with data := none }
        popped := s.popped.set turn (some (s.queue.node a).data) }.setPop t (.freeLoad old (s.queue.node a).data))
        b seen := by
  have hok := h.pops t
  rw [ht] at hok
  obtain ⟨hlt, ho⟩ := hok
  have hplace : seen[turn]? = some a := ho.symm.trans hp
  have hmine : (s.pop t).turn? = some turn := by rw [ht]; rfl
  have hnone := h.tickets.turns.mem_own t turn hmine
  have hdata : (s.queue.node a).data = s.pushed[turn]? := by
    rw [← h.cells turn a hplace]
    refine (h.shadow.data a (.inr (h.not_taken hplace fun r hr => ?_))).symm
    cases hnone.symm.trans hr
  have hkeep : ∀ (k : Nat) (r : Option Nat), s.popped[k]? = some (some r) →
      (s.popped.set turn (some (s.queue.node a).data))[k]? = some (some r) := by
    intro k r hr
    refine (List.getElem?_set_ne ?_).trans hr
    rintro rfl
    cases hnone.symm.trans hr
  have hself : (s.popped.set turn (some (s.queue.node a).data))[turn]? = some (some (s.queue.node a).data) :=
    List.getElem?_set_self hlt
  have hlen : (s.popped.set turn (some (s.queue.node a).data)).length = s.popped.length := by simp
  refine ⟨hdata, ?_⟩
  constructor
  case pushes => exact h.pushes
  case shadow =>
    have hb : b.setNode a (b.node a) = b := by simp [State.setNode]
    have htaken : Shadow s.made (fun x => x = a ∨ s.Taken seen x) s.queue b := h.shadow.mono fun x ht => .inr ht
    have hset : Shadow s.made (fun x => x = a ∨ s.Taken seen x)
        (s.queue.setNode a { s.queue.node a with data := none }) (b.setNode a (b.node a)) :=
      htaken.setNode (h.shadow.next a) (by simp)
    rw [hb] at hset
    refine hset.mono fun x ht => ?_
    rcases ht with rfl | ⟨k, r, hk, hr⟩
    · exact ⟨turn, _, hplace, hself⟩
    · exact ⟨k, r, hk, hkeep k r hr⟩
  case swung => exact h.swung
  case cells => exact h.cells
  case pushed => exact h.pushed
  case popped => exact hlen.trans_le h.popped
  case head => exact h.head.trans (congrArg (seen[·]?) hlen.symm)
  case tickets =>
    change Tickets s.pushed (s.popped.set turn (some (s.queue.node a).data)) _
    rw [hdata]
    refine h.tickets.redeem hmine ?_ fun u hu => ?_
    · exact congrArg Pop.turn? (setPop_self _ t _)
    · exact congrArg Pop.turn? (Function.update_of_ne hu _ _)
  case pops =>
    refine (Function.forall_update_iff s.pop fun _ p => p.Ok seen s.swung (s.popped.set turn _)).2
      ⟨⟨turn, hself⟩, fun u _ => ?_⟩
    exact (h.pops u).mono (fun _ _ => rfl) h.popped le_rfl hlen.ge hkeep

omit [DecidableEq Tid] in
/-- Where a pop has counted its reference, it has found head. -/
theorem Inv.drained (h : Inv s b seen) {old : CountedNodePtr} (ht : s.pop t = .tail old)
    (he : old.ptr = s.queue.tail.ptr) : s.swung = s.popped.length := by
  have hok := h.pops t
  rw [ht] at hok
  obtain ⟨i, hi, ho⟩ := hok
  obtain ⟨a, ha⟩ := h.exists_seen (hi.trans h.popped)
  have hplace : seen[s.swung]? = some a := by rw [← h.tail_ptr, ← he, ho, ha]
  rw [h.index ha hplace] at hi
  exact hi.antisymm h.popped

theorem Inv.step (h : Inv s b seen) (hs : Step t s s') (hsteady : Steady t s s') :
    ∃ b' seen', Inv s' b' seen' ∧ seen <+: seen' := by
  have hok := h.pops t
  cases hs with
  | push q ht hq =>
    obtain ⟨b', seen', hi, hg⟩ := h.push hq hsteady
    exact ⟨b', seen', hi, hg.initial⟩
  | pop ht hq | load ht | increaseFail old ht he | headFail old next p ht hp he | releaseLoad p old ht
    | releaseCasFail p old c ht he | return_ res ht | returnEmpty drained ht =>
    exact ⟨b, seen, h.move (by rw [ht]; rfl) trivial, List.prefix_rfl⟩
  | increaseOk old ht he =>
    subst he
    have hq : Shadow s.made (s.Taken seen) { s.queue with head := s.queue.head.increase } b :=
      ⟨h.shadow.tail, h.shadow.values, h.shadow.next, h.shadow.data, h.shadow.live, h.shadow.pc⟩
    exact ⟨b, seen, h.goOn hq rfl (by rw [ht]; rfl) ⟨_, le_rfl, h.head⟩, List.prefix_rfl⟩
  | tail old ht =>
    rw [ht] at hok
    obtain ⟨i, hi, ho⟩ := hok
    refine ⟨b, seen, h.move ?_ ?_, List.prefix_rfl⟩
    · rw [ht]
      split <;> rfl
    · split
      · next he => exact decide_eq_true (h.drained ht he)
      · next hne =>
        refine ⟨i, hi, lt_of_le_of_ne (hi.trans h.popped) ?_, ho⟩
        rintro rfl
        exact hne (ho.trans h.tail_ptr.symm)
  | next old p ht hp =>
    rw [ht] at hok
    obtain ⟨i, hi, hlt, ho⟩ := hok
    exact ⟨b, seen, h.move (by rw [ht]; rfl) ⟨i, hi, hlt, ho, h.next hlt (ho.symm.trans hp)⟩, List.prefix_rfl⟩
  | headOk old next ht he => exact ⟨b, seen, h.takeHead ht he, List.prefix_rfl⟩
  | data old turn p ht hp => exact ⟨b, seen, (h.takeData ht hp).2, List.prefix_rfl⟩
  | freeLoad old res p ht hp | freeCasFail old c res p ht hp he =>
    rw [ht] at hok
    exact ⟨b, seen, h.move (by rw [ht]; rfl) hok, List.prefix_rfl⟩
  | freeCasOk old c res p ht hp he =>
    rw [ht] at hok
    exact ⟨b, seen, h.goOn (h.shadow.recount p _) rfl (by rw [ht]; rfl) hok, List.prefix_rfl⟩
  | releaseCasOk p old c ht he =>
    exact ⟨b, seen, h.goOn (h.shadow.recount p _) rfl (by rw [ht]; rfl) trivial, List.prefix_rfl⟩

end Pops

section Runs

variable [DecidableEq Tid]

omit [DecidableEq Tid] in
theorem inv_make (dummy : Nat) : Inv (.make dummy : State T Tid) (.make dummy) [dummy] where
  pushes := ⟨[], dummy, none, rfl, LockFreeQueue.inv_make dummy⟩
  shadow := ⟨rfl, rfl, fun _ => rfl, fun _ _ => rfl, fun _ ha => ha, fun _ => rfl⟩
  swung := rfl
  cells _ _ _ := rfl
  pushed := Nat.zero_le 1
  popped := le_rfl
  head := rfl
  tickets := .nil fun _ => rfl
  pops _ := trivial

theorem exists_inv (h : Reachable Init SteadyStep s) : ∃ b seen, Inv s b seen := by
  apply h.invariant
  · rintro s ⟨dummy, rfl⟩
    exact ⟨_, _, inv_make dummy⟩
  · rintro s s' - ⟨b, seen, h⟩ ⟨t, hs, hsteady⟩
    obtain ⟨b', seen', h', -⟩ := h.step hs hsteady
    exact ⟨b', seen', h'⟩

theorem filterMap_eq_of_getElem? {α β : Type*} {f : α → Option β} {l : List α} {m : List β}
    (h : ∀ (k : Nat) (a : α), l[k]? = some a → f a = m[k]?) (hle : m.length ≤ l.length) : l.filterMap f = m := by
  induction l generalizing m with
  | nil => exact (List.eq_nil_of_length_eq_zero (Nat.le_zero.1 hle)).symm
  | cons a l ih =>
    have hhead : f a = m[0]? := h 0 a rfl
    have htail : l.filterMap f = m.tail := by
      refine ih (fun k x hx => ?_) ?_
      · rw [List.getElem?_tail]
        exact h (k + 1) x hx
      · rw [List.length_tail]
        exact Nat.sub_le_of_le_add hle
    cases m with
    | nil => rw [List.filterMap_cons_none hhead, htail, List.tail_nil]
    | cons v m => rw [List.filterMap_cons_some hhead, htail, List.tail_cons]

omit [DecidableEq Tid] in
/-- The nodes hold what has been pushed. -/
theorem Inv.held_eq (h : Inv s b seen) : b.held seen = s.pushed :=
  filterMap_eq_of_getElem? h.cells (h.pushed.trans h.swung.le)

omit [DecidableEq Tid] in
/-- The objects are in nodes that tail has been at, and nodes have different objects. -/
theorem Inv.pushed_nodup_lt (h : Inv s b seen) : s.pushed.Nodup ∧ ∀ k ∈ s.pushed, k < s.queue.values.length := by
  obtain ⟨front, last, rest, hseen, hq⟩ := h.pushes
  have hsub : seen.Sublist (front ++ last :: rest.toList) := by
    rw [hseen]
    simp
  rw [← h.held_eq, ← h.shadow.values]
  exact ⟨hq.once.sublist (hsub.filterMap _), fun k hk => hq.objects.mem_shared k ((hsub.filterMap _).subset hk)⟩

omit [DecidableEq Tid] in
/-- The nodes from head on hold what has not been popped. -/
theorem Inv.held_drop (h : Inv s b seen) :
    s.queue.held (seen.drop s.popped.length) = s.pushed.drop s.popped.length := by
  refine filterMap_eq_of_getElem? (fun k a ha => ?_) ?_
  · rw [List.getElem?_drop] at ha ⊢
    rw [← h.cells _ a ha]
    refine (h.shadow.data a (.inr (h.not_taken ha fun r hr => ?_))).symm
    have hlt := (List.getElem?_eq_some_iff.1 hr).1
    omega
  · rw [List.length_drop, List.length_drop]
    exact Nat.sub_le_sub_right (h.pushed.trans h.swung.le) _

omit [DecidableEq Tid] in
/-- When no push is under way the nodes from head to tail are a chain that holds what has not been popped. -/
theorem Inv.at_rest (h : Inv s b seen) (hpush : ∀ t, s.queue.pc t = .idle) :
    s.pushed.Perm (List.range s.queue.values.length) ∧ ∃ l last,
      Segment (fun a => (s.queue.node a).next.ptr) s.queue.head.ptr (l ++ [last]) none ∧
      s.queue.tail.ptr = some last ∧ s.queue.held (l ++ [last]) = s.pushed.drop s.popped.length := by
  have hnodup := h.pushed_nodup_lt.1
  obtain ⟨front, last, rest, rfl, hq⟩ := h.pushes
  have hnone : ∀ g : Pc → Option Nat, g .idle = none → ∀ t, g (b.pc t) = none := by
    intro g hg t
    rw [h.shadow.pc, hpush t]
    exact hg
  have hrest : rest = none := by
    by_contra hr
    obtain ⟨t, ht⟩ := hq.carried hr
    cases (hnone Pc.swinging? rfl t).symm.trans ht
  subst hrest
  have hle : s.popped.length ≤ front.length := by
    have hswung := h.swung
    rw [List.length_append, List.length_singleton] at hswung
    have hpopped := h.popped
    omega
  refine ⟨?_, front.drop s.popped.length, last, ?_, ?_, ?_⟩
  · refine (List.perm_ext_iff_of_nodup hnodup List.nodup_range).2 fun k => ?_
    rw [List.mem_range, ← h.held_eq, ← h.shadow.values]
    exact (hq.objects.iff_of_none (hnone Pc.newData? rfl) k).symm
  · rw [← List.drop_append_of_le_length hle]
    have hl : Segment (fun a => (s.queue.node a).next.ptr) b.head.ptr (front ++ [last]) none :=
      hq.linked.congr fun a _ => congrArg CountedNodePtr.ptr (h.shadow.next a).symm
    rw [← List.take_append_drop s.popped.length (front ++ [last])] at hl
    obtain ⟨m, -, hm⟩ := Segment.append_iff.1 hl
    rwa [h.head, ← List.head?_drop, ← hm.start_eq_head?]
  · rw [← h.shadow.tail]
    exact hq.tail
  · rw [← List.drop_append_of_le_length hle]
    exact h.held_drop

theorem Inv.tail_step (h : Inv s b seen) (hs : Step t s s') (hsteady : Steady t s s') :
    s'.queue.tail.ptr = s.queue.tail.ptr ∨ ∃ a b, s.queue.tail.ptr = some a ∧ (s.queue.node a).next.ptr = some b ∧
      s'.queue.tail.ptr = some b := by
  cases hs with
  | push q ht hq =>
    refine or_iff_not_imp_left.2 fun hmove => ?_
    obtain ⟨b', seen', h', hg⟩ := h.push hq hsteady
    have htail : q.tail.ptr = b'.tail.ptr := congrArg CountedNodePtr.ptr h'.shadow.tail.symm
    have hmove' : b'.tail.ptr ≠ b.tail.ptr := by
      rw [← htail, h.shadow.tail]
      exact hmove
    generalize filled? (s.queue.pc t) (q.pc t) = o at hg
    cases hg with
    | same hb => exact absurd hb hmove'
    | fill k last hb => exact absurd hb hmove'
    | swing last next hb hlast hsome hnone hd =>
      rw [h.shadow.tail] at hlast
      have hswung := h.swung
      have hswung' := h'.swung
      rw [List.length_append, List.length_singleton, ← hswung] at hswung'
      have hplace : (seen ++ [next])[s.swung]? = some last := by
        rw [List.getElem?_append_left (by omega), ← h.tail_ptr, hlast]
      have hnew : (seen ++ [next])[s.swung + 1]? = some next := by
        rw [hswung, List.getElem?_concat_length]
      refine ⟨last, next, hlast, ?_, ?_⟩
      · rw [← hq.node_of_tail hmove, ← hnew]
        exact h'.next (by omega) hplace
      · rw [h'.tail_ptr, ← hnew, Nat.add_right_cancel hswung']
  | _ => exact .inl rfl

/-- Pops take the objects in the order in which pushes have put them into nodes, and one that
returns empty has found that all that tail had left was taken. -/
theorem popped_in_order (h : Reachable Init SteadyStep s) :
    s.popped.length ≤ s.pushed.length ∧ s.pushed.Nodup ∧
      (∀ (k : Nat) (r : Option Nat), s.popped[k]? = some (some r) → ∃ v, r = some v ∧ s.pushed[k]? = some v) ∧
      (∀ t res, s.pop t = .returned res → ∃ k : Nat, s.popped[k]? = some (some res)) ∧
      ∀ t drained, s.pop t = .empty drained → drained = true := by
  obtain ⟨b, seen, hi⟩ := exists_inv h
  refine ⟨hi.tickets.le, hi.pushed_nodup_lt.1, fun k r hr => hi.tickets.exists_value hr, fun t res ht => ?_,
    fun t drained ht => ?_⟩
  · have hok := hi.pops t
    rwa [ht] at hok
  · have hok := hi.pops t
    rwa [ht] at hok

/-- Tail moves along the nodes also while pops are under way, and when no call is under way the
nodes from head to tail hold what has been pushed and not popped. -/
theorem rest_on_chain (h : Reachable Init SteadyStep s) :
    (∀ s', SteadyStep s s' → s'.queue.tail.ptr = s.queue.tail.ptr ∨ ∃ a b, s.queue.tail.ptr = some a ∧
      (s.queue.node a).next.ptr = some b ∧ s'.queue.tail.ptr = some b) ∧
    ((∀ t, s.queue.pc t = .idle) → (∀ t, s.pop t = .idle) → ∃ l last,
      Segment (fun a => (s.queue.node a).next.ptr) s.queue.head.ptr (l ++ [last]) none ∧
      s.queue.tail.ptr = some last ∧ s.queue.held (l ++ [last]) = s.pushed.drop s.popped.length ∧
      s.popped = (s.pushed.take s.popped.length).map (fun v => some (some v)) ∧
      s.pushed.Perm (List.range s.queue.values.length)) := by
  obtain ⟨b, seen, hi⟩ := exists_inv h
  refine ⟨fun s' ⟨t, hs, hsteady⟩ => hi.tail_step hs hsteady, fun hpush hpop => ?_⟩
  obtain ⟨hperm, l, last, hl, htail, hheld⟩ := hi.at_rest hpush
  refine ⟨l, last, hl, htail, hheld, hi.tickets.eq_take fun t => ?_, hperm⟩
  rw [hpop t]
  rfl

/-- The next access is neither the compare-exchange of data nor one of tail. -/
def quiet : Pc → Bool
  | .data _ _ _ | .swing _ _ _ _ => false
  | _ => true

omit [DecidableEq Tid] in
theorem Steady.of_quiet (h : quiet (s.queue.pc t) = true) (hf : ∀ a, s'.queue.live a → s.queue.live a ∨ ¬ s.made a) :
    Steady t s s' := by
  refine ⟨careful_of_ne fun _ _ _ _ hs => ?_, fun _ _ _ _ hd => ?_, hf⟩
  · rw [hs] at h
    cases h
  · rw [hd] at h
    cases h

theorem SteadyStep.of_new (hq : quiet (s.queue.pc t) = true) (ht : s.pop t = .idle) (h : LockFreeQueue.Step t s.queue q)
    (hf : ∀ a, q.live a → s.queue.live a ∨ ¬ s.made a) : SteadyStep s (s.push t q) :=
  ⟨t, .push s q ht h, .of_quiet hq hf⟩

theorem SteadyStep.of_quiet (hq : quiet (s.queue.pc t) = true) (ht : s.pop t = .idle)
    (h : LockFreeQueue.Step t s.queue q) (hl : ∀ a, q.live a → s.queue.live a) : SteadyStep s (s.push t q) :=
  .of_new hq ht h fun a ha => .inl (hl a ha)

/-- An object is put into the node where tail is. -/
theorem SteadyStep.of_data {k n : Nat} {old : CountedNodePtr} (hpc : s.queue.pc t = .data k n old)
    (htail : s.queue.tail.ptr = old.ptr) (ht : s.pop t = .idle) (h : LockFreeQueue.Step t s.queue q)
    (hl : ∀ a, q.live a → s.queue.live a) : SteadyStep s (s.push t q) := by
  refine ⟨t, .push s q ht h, careful_of_ne fun old p new k hs => ?_, fun _ _ _ p hd hp _ => ?_,
    fun a ha => .inl (hl a ha)⟩
  · cases hpc.symm.trans hs
  · cases hpc.symm.trans hd
    exact htail.trans hp

theorem SteadyStep.of_swing {p : Nat} {old new : CountedNodePtr} {k : After} (hpc : s.queue.pc t = .swing old p new k)
    (ht : s.pop t = .idle) (h : LockFreeQueue.Step t s.queue q) (hfirst : s.queue.tail.ptr = some p → q.tail = new)
    (hagain : s.queue.tail.ptr ≠ some p → q.tail = s.queue.tail ∨ s.queue.tail.ptr = new.ptr)
    (hl : ∀ a, q.live a → s.queue.live a) : SteadyStep s (s.push t q) := by
  refine ⟨t, .push s q ht h, ⟨fun _ _ _ _ hs => ?_, fun _ _ _ _ hs => ?_⟩, fun k n old p hd => ?_,
    fun a ha => .inl (hl a ha)⟩
  · cases hpc.symm.trans hs
    exact hfirst
  · cases hpc.symm.trans hs
    exact hagain
  · cases hpc.symm.trans hd

theorem SteadyStep.of_pop (hpc : s.queue.pc t = .idle) (h : Step t s s') (hl : ∀ a, s'.queue.live a → s.queue.live a) :
    SteadyStep s s' :=
  ⟨t, h, .of_quiet (by rw [hpc]; rfl) fun a ha => .inl (hl a ha)⟩

end Runs

/-- The second push links its node before the first one does and goes on with a new node. The first
object is popped meanwhile, the second one later. -/
theorem exists_popped : ∃ s s' : State Nat Bool, (Reachable Init SteadyStep s ∧ (∀ t, s.queue.pc t = .idle) ∧
    (∀ t, s.pop t = .idle) ∧ s.pushed = [0, 1] ∧ s.popped = [some (some 0)]) ∧
    Reachable Init SteadyStep s' ∧ (∀ t, s'.queue.pc t = .idle) ∧ (∀ t, s'.pop t = .idle) ∧
      s'.pushed = [0, 1] ∧ s'.popped = [some (some 0), some (some 1)] := by
  have h₀ : Reachable Init SteadyStep (.make 0 : State Nat Bool) := .of_init ⟨0, rfl⟩
  -- the first push puts its object into node 0, the second one links its node there
  have h₁ := h₀.tail (.of_new (t := false) rfl rfl (.push _ 7 1 rfl Nat.one_ne_zero) fun a ha => by
    rcases ha with rfl | ha
    · exact .inr Nat.one_ne_zero
    · exact .inl ha)
  have h₂ := (h₁.tail (.of_quiet (t := false) rfl rfl (.load _ 0 1 rfl) fun _ ha => ha)).tail
    (.of_quiet (t := false) rfl rfl (.increaseOk _ 0 1 _ rfl rfl) fun _ ha => ha)
  have h₃ := h₂.tail (.of_data (t := false) rfl rfl rfl (.dataOk _ 0 1 _ 0 rfl rfl rfl) fun _ ha => ha)
  have h₄ := h₃.tail (.of_new (t := true) rfl rfl (.push _ 8 2 rfl (by rintro (h | h) <;> cases h)) fun a ha => by
    rcases ha with rfl | ha
    · refine .inr ?_
      simp [State.push, State.make, LockFreeQueue.State.make, LockFreeQueue.State.setPc, LockFreeQueue.State.setNode]
    · exact .inl ha)
  have h₅ := (h₄.tail (.of_quiet (t := true) rfl rfl (.load _ 1 2 rfl) fun _ ha => ha)).tail
    (.of_quiet (t := true) rfl rfl (.increaseOk _ 1 2 _ rfl rfl) fun _ ha => ha)
  have h₆ := h₅.tail (.of_data (t := true) rfl rfl rfl (.dataFail _ 1 2 _ 0 rfl rfl (Option.some_ne_none _))
    fun _ ha => ha)
  have h₇ := h₆.tail (.of_quiet (t := true) rfl rfl (.helpOk _ 1 2 _ 0 rfl rfl rfl) fun _ ha => ha)
  have h₈ := h₇.tail (.of_new (t := true) rfl rfl (.renew _ 1 _ 0 _ 3 rfl (by rintro (h | h | h) <;> cases h))
      fun a ha => by
    rcases ha with rfl | ha
    · refine .inr ?_
      simp [State.push, State.make, LockFreeQueue.State.make, LockFreeQueue.State.setPc, LockFreeQueue.State.setNode]
    · exact .inl ha)
  have h₉ := h₈.tail (.of_swing (t := true) rfl rfl (.swingOk _ ⟨3, some 0⟩ 0 (.first 2) (.again 1 3) rfl rfl)
    (fun _ => rfl) (fun h => absurd rfl h) fun _ ha => ha)
  -- the first push finds tail behind its node
  have h₁₀ := h₉.tail (.of_quiet (t := false) rfl rfl (.nextFail _ 1 _ 0 rfl rfl (by decide)) fun _ ha => ha.2)
  have h₁₁ := h₁₀.tail (.of_swing (t := false) rfl rfl (.swingFail _ ⟨2, some 0⟩ 0 (.first 2) .done rfl)
    (fun h => by cases h) (fun _ => .inl rfl) fun _ ha => ha)
  have h₁₂ := h₁₁.tail (.of_swing (t := false) rfl rfl (.swingOk _ (.first 2) 0 (.first 2) .done rfl rfl)
    (fun h => by cases h) (fun _ => .inl rfl) fun _ ha => ha)
  have h₁₃ := (h₁₂.tail (.of_quiet (t := false) rfl rfl (.releaseLoad _ 0 _ .done rfl) fun _ ha => ha)).tail
    (.of_quiet (t := false) rfl rfl (.releaseCasOk _ 0 _ _ .done rfl rfl) fun _ ha => ha)
  -- a pop takes the first object while the second push goes on
  have h₁₄ := (h₁₃.tail (.of_pop (t := false) rfl (.pop _ rfl rfl) fun _ ha => ha)).tail
    (.of_pop (t := false) rfl (.load _ rfl) fun _ ha => ha)
  have h₁₅ := (h₁₄.tail (.of_pop (t := false) rfl (.increaseOk _ _ rfl rfl) fun _ ha => ha)).tail
    (.of_pop (t := false) rfl (.tail _ _ rfl) fun _ ha => ha)
  have h₁₆ := (h₁₅.tail (.of_pop (t := false) rfl (.next _ _ 0 rfl rfl) fun _ ha => ha)).tail
    (.of_pop (t := false) rfl (.headOk _ _ _ rfl rfl) fun _ ha => ha)
  have h₁₇ := h₁₆.tail (.of_pop (t := false) rfl (.data _ _ _ 0 rfl rfl) fun _ ha => ha)
  have h₁₈ := h₁₇.tail (.of_quiet (t := true) rfl rfl (.freeLoad _ _ _ 0 rfl rfl) fun _ ha => ha)
  have h₁₉ := h₁₈.tail (.of_quiet (t := true) rfl rfl (.freeCasOk _ _ _ _ 0 rfl rfl rfl) fun _ ha => ha)
  have h₂₀ := h₁₉.tail (.of_quiet (t := true) rfl rfl (.increaseFail _ 1 3 _ rfl (by decide)) fun _ ha => ha)
  have h₂₁ := h₂₀.tail (.of_quiet (t := true) rfl rfl (.increaseOk _ 1 3 _ rfl rfl) fun _ ha => ha)
  have h₂₂ := h₂₁.tail (.of_pop (t := false) rfl (.freeLoad _ _ _ 0 rfl rfl) fun _ ha => ha)
  have h₂₃ := (h₂₂.tail (.of_pop (t := false) rfl (.freeCasOk _ _ _ _ 0 rfl rfl rfl) fun _ ha => ha.2)).tail
    (.of_pop (t := false) rfl (.return_ _ _ rfl) fun _ ha => ha)
  have h₂₄ := h₂₃.tail (.of_data (t := true) rfl rfl rfl (.dataOk _ 1 3 _ 2 rfl rfl rfl) fun _ ha => ha)
  have h₂₅ := h₂₄.tail (.of_quiet (t := true) rfl rfl (.nextOk _ 3 _ 2 rfl rfl rfl) fun _ ha => ha)
  have h₂₆ := h₂₅.tail (.of_swing (t := true) rfl rfl (.swingOk _ ⟨2, some 2⟩ 2 (.first 3) .done rfl rfl)
    (fun _ => rfl) (fun h => absurd rfl h) fun _ ha => ha)
  have h₂₇ := h₂₆.tail (.of_quiet (t := true) rfl rfl (.freeLoad _ _ _ 2 rfl rfl) fun _ ha => ha)
  have h₂₈ := h₂₇.tail (.of_quiet (t := true) rfl rfl (.freeCasOk _ _ _ _ 2 rfl rfl rfl) fun _ ha => ha)
  have h₂₉ := (h₂₈.tail (.of_pop (t := true) rfl (.pop _ rfl rfl) fun _ ha => ha)).tail
    (.of_pop (t := true) rfl (.load _ rfl) fun _ ha => ha)
  have h₃₀ := (h₂₉.tail (.of_pop (t := true) rfl (.increaseOk _ _ rfl rfl) fun _ ha => ha)).tail
    (.of_pop (t := true) rfl (.tail _ _ rfl) fun _ ha => ha)
  have h₃₁ := (h₃₀.tail (.of_pop (t := true) rfl (.next _ _ 2 rfl rfl) fun _ ha => ha)).tail
    (.of_pop (t := true) rfl (.headOk _ _ _ rfl rfl) fun _ ha => ha)
  have h₃₂ := (h₃₁.tail (.of_pop (t := true) rfl (.data _ _ _ 2 rfl rfl) fun _ ha => ha)).tail
    (.of_pop (t := true) rfl (.freeLoad _ _ _ 2 rfl rfl) fun _ ha => ha)
  have h₃₃ := (h₃₂.tail (.of_pop (t := true) rfl (.freeCasOk _ _ _ _ 2 rfl rfl rfl) fun _ ha => ha.2)).tail
    (.of_pop (t := true) rfl (.return_ _ _ rfl) fun _ ha => ha)
  refine ⟨_, _, ⟨h₂₈, ?_, ?_, rfl, rfl⟩, h₃₃, ?_, ?_, rfl, rfl⟩ <;> rintro (_ | _) <;> rfl

theorem popped_in_order_two : ∃ s : State Nat Bool, Reachable Init SteadyStep s ∧ s.pushed = [0, 1] ∧
    s.popped = [some (some 0), some (some 1)] ∧ s.popped.length ≤ s.pushed.length ∧ s.pushed.Nodup ∧
      ∀ (k : Nat) (r : Option Nat), s.popped[k]? = some (some r) → ∃ v, r = some v ∧ s.pushed[k]? = some v := by
  obtain ⟨-, s, -, h, -, -, hpushed, hpopped⟩ := exists_popped
  obtain ⟨hle, hnodup, horder, -⟩ := popped_in_order h
  exact ⟨s, h, hpushed, hpopped, hle, hnodup, horder⟩

theorem rest_on_chain_one_left : ∃ s : State Nat Bool, Reachable Init SteadyStep s ∧ s.popped = [some (some 0)] ∧
    ∃ l last, Segment (fun a => (s.queue.node a).next.ptr) s.queue.head.ptr (l ++ [last]) none ∧
      s.queue.tail.ptr = some last ∧ s.queue.held (l ++ [last]) = [1] := by
  obtain ⟨s, -, ⟨h, hpush, hpop, hpushed, hpopped⟩, -⟩ := exists_popped
  obtain ⟨l, last, hl, htail, hheld, -, -⟩ := (rest_on_chain h).2 hpush hpop
  rw [hpushed, hpopped] at hheld
  exact ⟨s, h, hpopped, l, last, hl, htail, hheld⟩

end Wizard.LockFreeQueue.Shared
