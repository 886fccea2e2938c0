import NekoProto.Rpc.ExecutionLimiter
import Mathlib.Data.List.Basic

/-!
# The accounts of the execution limiter

What the limiter is for, as a ledger of the admissions themselves (`Ledger`): where each live one
is, whether it was admitted beyond the active ones, and whether it has started. The counters of the
limiter are the counts of this ledger in every run (`limiter_accounts`).

1. A live admission is a ticket. An operation on the objects moves, changes or drops tickets, and
   the number of tickets decides on the next admission.
2. `Accounts` says that the tickets are the objects with an owner and that each counter is a count
   of tickets. Every operation keeps it (`accounts_step`).
-/

namespace NekoProto.Rpc.ExecutionLimiter

/-! ## The ledger -/

/-- A live admission. -/
structure Ticket where
  /-- It was admitted while at least as many were live as may be active. -/
  beyond : Bool
  started : Bool
  deriving DecidableEq, Repr

/-- A live admission that was admitted beyond the active ones and has not started. -/
def Ticket.waiting (ticket : Ticket) : Bool := ticket.beyond && !ticket.started

/-- The live admissions, by the objects that hold them, with the history of the others. -/
structure Ledger where
  tickets : List (Option Ticket) := []
  finished : ℕ := 0
  refused : ℕ := 0
  rejects : ℕ := 0
  deriving DecidableEq, Repr

namespace Ledger

variable (l : Ledger)

/-- The number of live admissions that satisfy `p`. -/
def count (p : Ticket → Bool) : ℕ := l.tickets.countP fun ticket => ticket.any p

/-- The number of live admissions. -/
def live : ℕ := l.count fun _ => true

/-- The ticket of an object. -/
def ticket (i : ℕ) : Option Ticket := l.tickets[i]?.join

def store (i : ℕ) (ticket : Option Ticket) : Ledger :=
  { l with tickets := l.tickets.set i ticket }

/-- A live admission ends. -/
def drop (i : ℕ) : Ledger :=
  { l with
    tickets := l.tickets.set i none
    finished := if (l.ticket i).any Ticket.started then l.finished + 1 else l.finished }

/-- A ticket moves to another object, whose own one is dropped. -/
def move (i j : ℕ) : Ledger :=
  if i = j then l else ((l.drop i).store i (l.ticket j)).store j none

/-- One operation. -/
def step (maxActive maxQueued : ℕ) : Op → Ledger
  | .tryAdmit =>
    if 0 < maxActive ∧ l.live < maxActive + maxQueued then
      { l with tickets := l.tickets ++ [some ⟨maxActive ≤ l.live, false⟩] }
    else { l with refused := l.refused + 1 }
  | .reject => { l with rejects := l.rejects + 1 }
  | .construct => { l with tickets := l.tickets ++ [none] }
  | .start i => l.store i ((l.ticket i).map fun ticket => { ticket with started := true })
  | .moveConstruct j =>
    { l with tickets := l.tickets.set j none ++ [l.ticket j] }
  | .moveAssign i j => l.move i j
  | .destroy i => l.drop i
  | .markTimedOut => l
  | .markCanceled _ => l

/-- A run. -/
def run (maxActive maxQueued : ℕ) (ops : List Op) : Ledger :=
  ops.foldl (fun l op => l.step maxActive maxQueued op) {}

end Ledger

/-! ## Accounts -/

/-- The ticket of an admission that has an owner. -/
def Admission.ticket (admission : Admission) : Option Ticket :=
  if admission.owner then some ⟨admission.queued, admission.started⟩ else none

/-- The counters of a limiter are the counts of a ledger. -/
structure Balanced (L : Limiter) (l : Ledger) : Prop where
  outstanding : L.outstanding = l.live
  queued : L.queued = l.count Ticket.waiting
  active : L.active = l.count Ticket.started
  completed : L.completed = l.finished
  rejected : L.rejected = l.refused + l.rejects

/-- The tickets are the objects with an owner, and the counters count them. -/
structure Accounts (maxActive maxQueued : ℕ) (s : State) (l : Ledger) : Prop where
  active_eq : s.limiter.maxActive = maxActive
  queued_eq : s.limiter.maxQueued = maxQueued
  tickets : l.tickets = s.objects.map fun object => object.bind Admission.ticket
  balanced : Balanced s.limiter l
  live_le : l.live ≤ maxActive + maxQueued

/-! ## Counts -/

section

variable {l : Ledger} {p : Ticket → Bool} {i j : ℕ} {ticket : Option Ticket}

theorem lt_of_ticket {t : Ticket} (h : l.ticket i = some t) : i < l.tickets.length := by
  unfold Ledger.ticket at h
  by_contra hge
  rw [List.getElem?_eq_none (Nat.not_lt.mp hge)] at h
  cases h

/-- One ticket for another one. -/
theorem count_store (p : Ticket → Bool) (ticket : Option Ticket) (h : i < l.tickets.length) :
    (l.store i ticket).count p + (if (l.ticket i).any p then 1 else 0) =
      l.count p + (if ticket.any p then 1 else 0) := by
  have hticket : l.ticket i = l.tickets[i] := by
    unfold Ledger.ticket
    rw [List.getElem?_eq_getElem h]
    rfl
  show (l.tickets.set i ticket).countP (fun t => t.any p) + _ = _
  rw [List.countP_set h, hticket]
  by_cases hold : (l.tickets[i]).any p = true
  · have hpos : 0 < l.tickets.countP fun t => t.any p :=
      List.countP_pos_iff.mpr ⟨_, List.getElem_mem h, hold⟩
    rw [if_pos hold]
    show _ = l.tickets.countP (fun t => t.any p) + _
    omega
  · rw [if_neg hold]
    rfl

theorem count_append {tickets : List (Option Ticket)} :
    Ledger.count { l with tickets := tickets ++ [ticket] } p =
      Ledger.count { l with tickets := tickets } p + (if ticket.any p then 1 else 0) := by
  unfold Ledger.count
  rw [List.countP_append, List.countP_singleton]

/-- A ticket moves to an object that has none. -/
theorem count_move (hne : i ≠ j) (hi : i < l.tickets.length) (hj : j < l.tickets.length)
    (hnone : l.ticket i = none) :
    ((l.store i (l.ticket j)).store j none).count p = l.count p := by
  have hfirst := count_store p (l.ticket j) hi
  have hlength : j < (l.store i (l.ticket j)).tickets.length := by
    show j < (l.tickets.set i _).length
    rw [List.length_set]
    exact hj
  have hsecond := count_store p none hlength
  have hsame : (l.store i (l.ticket j)).ticket j = l.ticket j := by
    show (l.tickets.set i _)[j]?.join = _
    rw [List.getElem?_set_ne hne]
    rfl
  rw [hsame] at hsecond
  rw [hnone] at hfirst
  simp only [Option.any_none, Bool.false_eq_true, if_false] at hfirst hsecond
  omega

theorem Ledger.count_le_live (l : Ledger) (p : Ticket → Bool) : l.count p ≤ l.live := by
  refine List.countP_mono_left fun ticket _ h => ?_
  cases ticket with
  | none => exact h
  | some t => rfl

theorem store_ticket (h : i < l.tickets.length) : l.store i (l.ticket i) = l := by
  have hself : l.tickets.set i (l.ticket i) = l.tickets := by
    unfold Ledger.ticket
    rw [List.getElem?_eq_getElem h]
    exact List.set_getElem_self h
  unfold Ledger.store
  rw [hself]

end

/-! ## Changes of one admission -/

section

variable {L : Limiter} {l : Ledger} {i : ℕ} {admission : Admission}

/-- An admission that has not started starts. -/
theorem Balanced.start (h : Balanced L l)
    (hticket : l.ticket i = some ⟨admission.queued, false⟩) :
    Balanced (L.start admission).1 (l.store i (some ⟨admission.queued, true⟩)) ∧
      (l.store i (some ⟨admission.queued, true⟩)).live = l.live := by
  generalize hnew : l.store i (some ⟨admission.queued, true⟩) = l'
  have hcount : ∀ p, l'.count p + _ = l.count p + _ := fun p =>
    hnew ▸ count_store p (some ⟨admission.queued, true⟩) (lt_of_ticket hticket)
  rw [hticket] at hcount
  have hlive : l'.live = l.live := Nat.add_right_cancel (hcount fun _ => true)
  have hactive : l'.count Ticket.started = l.count Ticket.started + 1 := hcount Ticket.started
  have hhistory : l'.finished = l.finished ∧ l'.refused = l.refused ∧ l'.rejects = l.rejects := by
    subst hnew
    exact ⟨rfl, rfl, rfl⟩
  have hwaiting := hcount Ticket.waiting
  obtain ⟨ho, hq, ha, hc, hr⟩ := h
  refine ⟨?_, hlive⟩
  unfold Limiter.start
  cases hqueued : admission.queued with
  | true =>
    rw [hqueued] at hwaiting
    have hwaiting' : l'.count Ticket.waiting + 1 = l.count Ticket.waiting := hwaiting
    exact ⟨by show L.outstanding = _; omega, by show L.queued - 1 = _; omega,
      by show L.active + 1 = _; omega, by show L.completed = _; omega,
      by show L.rejected = _; omega⟩
  | false =>
    rw [hqueued] at hwaiting
    have hwaiting' : l'.count Ticket.waiting = l.count Ticket.waiting := hwaiting
    exact ⟨by show L.outstanding = _; omega, by show L.queued = _; omega,
      by show L.active + 1 = _; omega, by show L.completed = _; omega,
      by show L.rejected = _; omega⟩

/-- A new admission. -/
theorem Balanced.admit (h : Balanced L l) (beyond : Prop) [Decidable beyond] :
    Balanced { L with
        outstanding := L.outstanding + 1
        queued := L.queued + if beyond then 1 else 0 }
      { l with tickets := l.tickets ++ [some ⟨beyond, false⟩] } ∧
    Ledger.live { l with tickets := l.tickets ++ [some ⟨beyond, false⟩] } = l.live + 1 := by
  have hcount := fun p => @count_append l p (some ⟨beyond, false⟩) l.tickets
  have hlive : Ledger.live { l with tickets := l.tickets ++ [some ⟨beyond, false⟩] } = l.live + 1 :=
    hcount fun _ => true
  obtain ⟨ho, hq, ha, hc, hr⟩ := h
  refine ⟨⟨?_, ?_, ?_, hc, hr⟩, hlive⟩
  · show L.outstanding + 1 = _
    rw [hlive, ho]
    exact (Nat.cast_succ _).symm
  · show L.queued + _ = _
    rw [hcount, hq]
    by_cases hbeyond : beyond
    · simp [hbeyond, Ticket.waiting]
    · simp [hbeyond, Ticket.waiting]
  · show L.active = _
    rw [hcount, ha]
    rfl

/-- A live admission ends. -/
theorem Balanced.release (h : Balanced L l)
    (hticket : l.ticket i = some ⟨admission.queued, admission.started⟩) :
    Balanced (L.release admission) (l.drop i) ∧ (l.drop i).live + 1 = l.live := by
  generalize hnew : l.drop i = l'
  have hcount : ∀ p, l'.count p + _ = l.count p + _ := fun p =>
    hnew ▸ show (l.drop i).count p + _ = l.count p + _ from
      count_store p none (lt_of_ticket hticket)
  rw [hticket] at hcount
  have hlive : l'.live + 1 = l.live := hcount fun _ => true
  have hactive := hcount Ticket.started
  have hwaiting := hcount Ticket.waiting
  have hfinished : l'.finished = if admission.started then l.finished + 1 else l.finished := by
    subst hnew
    show (if (l.ticket i).any Ticket.started = true then _ else _) = _
    rw [hticket]
    rfl
  have hhistory : l'.refused = l.refused ∧ l'.rejects = l.rejects := by
    subst hnew
    exact ⟨rfl, rfl⟩
  obtain ⟨ho, hq, ha, hc, hr⟩ := h
  refine ⟨?_, hlive⟩
  unfold Limiter.release
  cases hstarted : admission.started with
  | true =>
    rw [hstarted] at hactive hwaiting hfinished
    have hactive' : l'.count Ticket.started + 1 = l.count Ticket.started := hactive
    have hwaiting' : l'.count Ticket.waiting = l.count Ticket.waiting := by
      cases hqueued : admission.queued with
      | true =>
        rw [hqueued] at hwaiting
        exact hwaiting
      | false =>
        rw [hqueued] at hwaiting
        exact hwaiting
    have hfinished' : l'.finished = l.finished + 1 := hfinished
    exact ⟨by show L.outstanding - 1 = _; omega, by show L.queued = _; omega,
      by show L.active - 1 = _; omega, by show L.completed + 1 = _; omega,
      by show L.rejected = _; omega⟩
  | false =>
    rw [hstarted] at hactive hwaiting hfinished
    have hactive' : l'.count Ticket.started = l.count Ticket.started := hactive
    have hfinished' : l'.finished = l.finished := hfinished
    cases hqueued : admission.queued with
    | true =>
      rw [hqueued] at hwaiting
      have hwaiting' : l'.count Ticket.waiting + 1 = l.count Ticket.waiting := hwaiting
      exact ⟨by show L.outstanding - 1 = _; omega, by show L.queued - 1 = _; omega,
        by show L.active = _; omega, by show L.completed = _; omega,
        by show L.rejected = _; omega⟩
    | false =>
      rw [hqueued] at hwaiting
      have hwaiting' : l'.count Ticket.waiting = l.count Ticket.waiting := hwaiting
      exact ⟨by show L.outstanding - 1 = _; omega, by show L.queued = _; omega,
        by show L.active = _; omega, by show L.completed = _; omega,
        by show L.rejected = _; omega⟩

end

/-! ## Operations -/

section

variable {maxActive maxQueued : ℕ} {s : State} {l : Ledger}

/-- The ticket of an object that is there. -/
theorem Accounts.ticket (h : Accounts maxActive maxQueued s l) {i : ℕ} {admission : Admission}
    (hobject : s.object i = some admission) :
    l.ticket i = admission.ticket ∧ i < l.tickets.length := by
  have hsome : s.objects[i]? = some (some admission) := Option.join_eq_some_iff.mp hobject
  have hlt : i < s.objects.length := (List.getElem?_eq_some_iff.mp hsome).1
  constructor
  · unfold Ledger.ticket
    rw [h.tickets, List.getElem?_map, hsome]
    rfl
  · rw [h.tickets, List.length_map]
    exact hlt

theorem Admission.ticket_of_owner {admission : Admission} (h : admission.owner = true) :
    admission.ticket = some ⟨admission.queued, admission.started⟩ := if_pos h

theorem Admission.ticket_of_no_owner {admission : Admission} (h : admission.owner = false) :
    admission.ticket = none := if_neg (h ▸ Bool.false_ne_true)

theorem Limiter.start_limits (L : Limiter) (admission : Admission) :
    (L.start admission).1.maxActive = L.maxActive ∧
      (L.start admission).1.maxQueued = L.maxQueued := by
  unfold Limiter.start
  cases admission.queued with
  | true => exact ⟨rfl, rfl⟩
  | false => exact ⟨rfl, rfl⟩

theorem Limiter.release_limits (L : Limiter) (admission : Admission) :
    (L.release admission).maxActive = L.maxActive ∧
      (L.release admission).maxQueued = L.maxQueued := by
  unfold Limiter.release
  cases admission.started with
  | true => exact ⟨rfl, rfl⟩
  | false =>
    cases admission.queued with
    | true => exact ⟨rfl, rfl⟩
    | false => exact ⟨rfl, rfl⟩

/-- The tickets after another object was stored. -/
theorem Accounts.tickets_store (h : Accounts maxActive maxQueued s l) (L : Limiter) (i : ℕ)
    (object : Option Admission) : l.tickets.set i (object.bind Admission.ticket) =
      (s.store L i object).objects.map fun object => object.bind Admission.ticket := by
  rw [h.tickets]
  exact List.map_set.symm

/-- The tickets after another object was constructed. -/
theorem Accounts.tickets_append (h : Accounts maxActive maxQueued s l)
    (object : Option Admission) : l.tickets ++ [object.bind Admission.ticket] =
      (s.objects ++ [object]).map fun object => object.bind Admission.ticket := by
  rw [h.tickets, List.map_append]
  rfl

/-- A ledger with the same counts. -/
theorem Balanced.congr {L : Limiter} {l l' : Ledger} (h : Balanced L l)
    (hcount : ∀ p, l'.count p = l.count p) (hfinished : l'.finished = l.finished)
    (hrefused : l'.refused = l.refused) (hrejects : l'.rejects = l.rejects) : Balanced L l' := by
  obtain ⟨ho, hq, ha, hc, hr⟩ := h
  refine ⟨?_, ?_, ?_, ?_, ?_⟩
  · unfold Ledger.live
    rw [hcount]
    exact ho
  · rw [hcount, hq]
  · rw [hcount, ha]
  · rw [hfinished, hc]
  · rw [hrefused, hrejects, hr]

/-- A limiter with the same counters. -/
theorem Balanced.of_metrics {L L' : Limiter} {l : Ledger} (h : Balanced L l)
    (ho : L'.outstanding = L.outstanding) (hq : L'.queued = L.queued) (ha : L'.active = L.active)
    (hc : L'.completed = L.completed) (hr : L'.rejected = L.rejected) : Balanced L' l :=
  ⟨ho.trans h.outstanding, hq.trans h.queued, ha.trans h.active, hc.trans h.completed,
    hr.trans h.rejected⟩

/-- A refusal. -/
theorem accounts_refused (h : Accounts maxActive maxQueued s l) :
    Accounts maxActive maxQueued { s with limiter := s.limiter.reject }
      { l with refused := l.refused + 1 } := by
  obtain ⟨hactive, hqueued, htickets, ⟨ho, hq, ha, hc, hr⟩, hle⟩ := h
  refine ⟨hactive, hqueued, htickets, ⟨ho, hq, ha, hc, ?_⟩, hle⟩
  show s.limiter.rejected + 1 = _
  push_cast
  omega

/-- The limiter refuses when the ledger does. -/
theorem tryAdmit_refused (h : Accounts maxActive maxQueued s l)
    (hfull : ¬(0 < maxActive ∧ l.live < maxActive + maxQueued)) :
    s.limiter.tryAdmit = (s.limiter.reject, none) := by
  have ho := h.balanced.outstanding
  have hactive := h.active_eq
  have hqueued := h.queued_eq
  unfold Limiter.tryAdmit
  by_cases hzero : s.limiter.maxActive = 0
  · rw [if_pos hzero]
  · rw [if_neg hzero]
    refine if_pos ⟨decide_eq_true ?_, ?_⟩
    · omega
    · omega

/-- Otherwise it admits, and says whether the admission waits. -/
theorem tryAdmit_admitted (h : Accounts maxActive maxQueued s l)
    (hroom : 0 < maxActive ∧ l.live < maxActive + maxQueued) :
    s.limiter.tryAdmit =
      ({ s.limiter with
          outstanding := s.limiter.outstanding + 1
          queued := s.limiter.queued + if maxActive ≤ l.live then 1 else 0 },
        some { owner := true, queued := maxActive ≤ l.live }) := by
  have ho := h.balanced.outstanding
  have hactive := h.active_eq
  have hqueued := h.queued_eq
  have hbeyond : (s.limiter.maxActive : ℤ) ≤ s.limiter.outstanding ↔ maxActive ≤ l.live := by omega
  unfold Limiter.tryAdmit
  rw [if_neg (show s.limiter.maxActive ≠ 0 by omega)]
  simp only [hbeyond]
  rw [if_neg (fun hfull => by have := of_decide_eq_true hfull.1; omega)]
  by_cases hle : maxActive ≤ l.live
  · simp only [hle, decide_true, if_true]
  · simp only [hle, decide_false, Bool.false_eq_true, if_false, add_zero]

theorem accounts_tryAdmit (h : Accounts maxActive maxQueued s l) {s' : State}
    (hstep : s.step .tryAdmit = some s') :
    Accounts maxActive maxQueued s' (l.step maxActive maxQueued .tryAdmit) := by
  unfold State.step at hstep
  show Accounts _ _ _ (if _ then _ else _)
  by_cases hroom : 0 < maxActive ∧ l.live < maxActive + maxQueued
  · rw [tryAdmit_admitted h hroom] at hstep
    cases hstep
    rw [if_pos hroom]
    obtain ⟨hbalanced, hlive⟩ := h.balanced.admit (maxActive ≤ l.live)
    refine ⟨h.active_eq, h.queued_eq,
      h.tickets_append (some { owner := true, queued := maxActive ≤ l.live }), hbalanced, ?_⟩
    rw [hlive]
    exact hroom.2
  · rw [tryAdmit_refused h hroom] at hstep
    cases hstep
    rw [if_neg hroom]
    exact accounts_refused h

theorem accounts_start (h : Accounts maxActive maxQueued s l) {i : ℕ} {admission : Admission}
    (hobject : s.object i = some admission) :
    Accounts maxActive maxQueued
      (s.store (admission.start s.limiter).1 i (some (admission.start s.limiter).2))
      (l.step maxActive maxQueued (.start i)) := by
  obtain ⟨hticket, hlt⟩ := h.ticket hobject
  show Accounts _ _ _ (l.store i ((l.ticket i).map fun ticket => { ticket with started := true }))
  by_cases hstarts : admission.owner ∧ ¬admission.started
  · obtain ⟨howner, hnot⟩ := hstarts
    have heq : admission.start s.limiter = s.limiter.start admission := if_pos ⟨howner, hnot⟩
    have hafter : (s.limiter.start admission).2.ticket = some ⟨admission.queued, true⟩ :=
      if_pos howner
    rw [Admission.ticket_of_owner howner, Bool.eq_false_iff.mpr hnot] at hticket
    obtain ⟨hbalanced, hlive⟩ := h.balanced.start hticket
    obtain ⟨hactive, hqueued⟩ := s.limiter.start_limits admission
    rw [heq, hticket]
    refine ⟨hactive.trans h.active_eq, hqueued.trans h.queued_eq, ?_, hbalanced,
      hlive.trans_le h.live_le⟩
    rw [← h.tickets_store, Option.bind_some, hafter]
    rfl
  · have heq : admission.start s.limiter = (s.limiter, admission) := if_neg hstarts
    have hsame : (l.ticket i).map (fun ticket => { ticket with started := true }) =
        l.ticket i := by
      rw [hticket]
      cases howner : admission.owner with
      | false =>
        rw [Admission.ticket_of_no_owner howner]
        rfl
      | true =>
        have hstarted : admission.started = true := by
          by_contra hnot
          exact hstarts ⟨howner, hnot⟩
        rw [Admission.ticket_of_owner howner, hstarted]
        rfl
    rw [heq, hsame, store_ticket hlt]
    refine ⟨h.active_eq, h.queued_eq, ?_, h.balanced, h.live_le⟩
    rw [← h.tickets_store, Option.bind_some, ← hticket]
    exact (congrArg Ledger.tickets (store_ticket hlt)).symm

theorem accounts_release (h : Accounts maxActive maxQueued s l) {i : ℕ} {admission : Admission}
    (hobject : s.object i = some admission) :
    Accounts maxActive maxQueued (s.store (admission.release s.limiter).1 i none) (l.drop i) := by
  obtain ⟨hticket, hlt⟩ := h.ticket hobject
  cases howner : admission.owner with
  | true =>
    have heq : (admission.release s.limiter).1 = s.limiter.release admission := by
      unfold Admission.release
      rw [if_pos howner]
    rw [Admission.ticket_of_owner howner] at hticket
    obtain ⟨hbalanced, hlive⟩ := h.balanced.release hticket
    obtain ⟨hactive, hqueued⟩ := s.limiter.release_limits admission
    rw [heq]
    refine ⟨hactive.trans h.active_eq, hqueued.trans h.queued_eq, h.tickets_store _ i none,
      hbalanced, ?_⟩
    have := h.live_le
    omega
  | false =>
    have heq : (admission.release s.limiter).1 = s.limiter := by
      unfold Admission.release
      rw [if_neg (howner ▸ Bool.false_ne_true)]
    rw [Admission.ticket_of_no_owner howner] at hticket
    have hdrop : l.drop i = l := by
      unfold Ledger.drop
      rw [hticket]
      exact (congrArg (l.store i) hticket.symm).trans (store_ticket hlt)
    rw [heq, hdrop]
    refine ⟨h.active_eq, h.queued_eq, ?_, h.balanced, h.live_le⟩
    rw [← h.tickets_store, Option.bind_none, ← hticket]
    exact (congrArg Ledger.tickets (store_ticket hlt)).symm

theorem accounts_move (h : Accounts maxActive maxQueued s l) {i j : ℕ} {other : Admission}
    (hne : i ≠ j) (hi : i < l.tickets.length) (hnone : l.ticket i = none)
    (hother : s.object j = some other) :
    Accounts maxActive maxQueued
      ((s.store s.limiter i (some other)).store s.limiter j (some other.movedFrom))
      ((l.store i (l.ticket j)).store j none) := by
  obtain ⟨hticket, hj⟩ := h.ticket hother
  have hcount := fun p => @count_move l p i j hne hi hj hnone
  refine ⟨h.active_eq, h.queued_eq, ?_, h.balanced.congr hcount rfl rfl rfl, ?_⟩
  · show (l.tickets.set i (l.ticket j)).set j none = _
    rw [hticket, h.tickets]
    show ((s.objects.map _).set i ((some other).bind Admission.ticket)).set j
      ((some other.movedFrom).bind Admission.ticket) = _
    rw [← List.map_set, ← List.map_set]
    rfl
  · exact (hcount fun _ => true).trans_le h.live_le

theorem accounts_reject (h : Accounts maxActive maxQueued s l) :
    Accounts maxActive maxQueued { s with limiter := s.limiter.reject }
      { l with rejects := l.rejects + 1 } := by
  obtain ⟨hactive, hqueued, htickets, ⟨ho, hq, ha, hc, hr⟩, hle⟩ := h
  refine ⟨hactive, hqueued, htickets, ⟨ho, hq, ha, hc, ?_⟩, hle⟩
  show s.limiter.rejected + 1 = _
  push_cast
  omega

theorem accounts_construct (h : Accounts maxActive maxQueued s l) :
    Accounts maxActive maxQueued { s with objects := s.objects ++ [some {}] }
      { l with tickets := l.tickets ++ [none] } := by
  have hcount : ∀ p, Ledger.count { l with tickets := l.tickets ++ [none] } p = l.count p :=
    fun p => @count_append l p none l.tickets
  exact ⟨h.active_eq, h.queued_eq, h.tickets_append (some {}),
    h.balanced.congr hcount rfl rfl rfl, (hcount fun _ => true).trans_le h.live_le⟩

theorem accounts_moveConstruct (h : Accounts maxActive maxQueued s l) {j : ℕ} {other : Admission}
    (hother : s.object j = some other) :
    Accounts maxActive maxQueued
      { s.store s.limiter j (some other.movedFrom) with
        objects := (s.store s.limiter j (some other.movedFrom)).objects ++ [some other] }
      { l with tickets := l.tickets.set j none ++ [l.ticket j] } := by
  obtain ⟨hticket, hj⟩ := h.ticket hother
  have hcount : ∀ p, Ledger.count { l with tickets := l.tickets.set j none ++ [l.ticket j] } p =
      l.count p := by
    intro p
    have hstore := count_store p none hj
    have happend := @count_append l p (l.ticket j) (l.tickets.set j none)
    exact happend.trans hstore
  refine ⟨h.active_eq, h.queued_eq, ?_, h.balanced.congr hcount rfl rfl rfl,
    (hcount fun _ => true).trans_le h.live_le⟩
  rw [List.map_append, ← h.tickets_store, hticket]
  rfl

theorem accounts_moveAssign (h : Accounts maxActive maxQueued s l) {i j : ℕ}
    {admission other : Admission} (hobject : s.object i = some admission)
    (hother : s.object j = some other) :
    Accounts maxActive maxQueued (s.moveAssign i j admission other) (l.move i j) := by
  unfold State.moveAssign Ledger.move
  by_cases hself : i = j
  · rw [if_pos hself, if_pos hself]
    exact h
  rw [if_neg hself, if_neg hself]
  have hdropped := accounts_release h hobject
  obtain ⟨-, hi⟩ := h.ticket hobject
  have hticket : (l.drop i).ticket j = l.ticket j := by
    show (l.tickets.set i none)[j]?.join = _
    rw [List.getElem?_set_ne hself]
    rfl
  have hnone : (l.drop i).ticket i = none := by
    show (l.tickets.set i none)[i]?.join = _
    rw [List.getElem?_set_self hi]
    rfl
  have hother' : (s.store (admission.release s.limiter).1 i none).object j = some other := by
    show (s.objects.set i none)[j]?.join = _
    rw [List.getElem?_set_ne hself]
    exact hother
  have hmoved := accounts_move hdropped hself (by
    show i < (l.tickets.set i none).length
    rw [List.length_set]
    exact hi) hnone hother'
  rw [hticket] at hmoved
  have hstore : ∀ L object, (s.store L i none).store L i object = s.store L i object := by
    intro L object
    unfold State.store
    rw [List.set_set]
  show Accounts _ _ ((s.store (admission.release s.limiter).1 i (some other)).store _ _ _) _
  rw [← hstore]
  exact hmoved

/-- **One operation** keeps the accounts. -/
theorem accounts_step (h : Accounts maxActive maxQueued s l) {op : Op} {s' : State}
    (hstep : s.step op = some s') :
    Accounts maxActive maxQueued s' (l.step maxActive maxQueued op) := by
  cases op with
  | tryAdmit => exact accounts_tryAdmit h hstep
  | reject =>
    cases hstep
    exact accounts_reject h
  | markTimedOut =>
    cases hstep
    exact ⟨h.active_eq, h.queued_eq, h.tickets, h.balanced.of_metrics rfl rfl rfl rfl rfl,
      h.live_le⟩
  | markCanceled count =>
    cases hstep
    exact ⟨h.active_eq, h.queued_eq, h.tickets, h.balanced.of_metrics rfl rfl rfl rfl rfl,
      h.live_le⟩
  | construct =>
    cases hstep
    exact accounts_construct h
  | start i =>
    obtain ⟨admission, hobject, hrest⟩ := Option.bind_eq_some_iff.mp hstep
    cases hrest
    exact accounts_start h hobject
  | moveConstruct j =>
    obtain ⟨other, hother, hrest⟩ := Option.bind_eq_some_iff.mp hstep
    cases hrest
    exact accounts_moveConstruct h hother
  | moveAssign i j =>
    obtain ⟨admission, hobject, hrest⟩ := Option.bind_eq_some_iff.mp hstep
    obtain ⟨other, hother, hrest⟩ := Option.bind_eq_some_iff.mp hrest
    cases hrest
    exact accounts_moveAssign h hobject hother
  | destroy i =>
    obtain ⟨admission, hobject, hrest⟩ := Option.bind_eq_some_iff.mp hstep
    cases hrest
    exact accounts_release h hobject

end

/-- **Runs.** -/
theorem accounts_run {maxActive maxQueued : ℕ} (ops : List Op) : ∀ {s s' : State} {l : Ledger},
    Accounts maxActive maxQueued s l → s.run ops = some s' →
    Accounts maxActive maxQueued s' (ops.foldl (fun l op => l.step maxActive maxQueued op) l) := by
  induction ops with
  | nil =>
    intro s s' l h hrun
    cases hrun
    exact h
  | cons op ops ih =>
    intro s s' l h hrun
    obtain ⟨t, hstep, hrest⟩ := Option.bind_eq_some_iff.mp hrun
    exact ih (accounts_step h hstep) hrest

theorem accounts_configured (maxActive maxQueued : ℕ) :
    Accounts (min maxActive semaphoreMax) maxQueued (State.configured maxActive maxQueued) {} :=
  ⟨rfl, rfl, rfl, ⟨rfl, rfl, rfl, rfl, rfl⟩, Nat.zero_le _⟩

/-- **The accounts.** After one `configure` and any operations, the counters are the counts of the
admissions: outstanding are the live ones, within both limits, queued those that were admitted
beyond the active ones and have not started, active the started ones, completed the started ones
that ended, and rejected the refusals with the explicit rejects. None is below zero, and without
live admissions nothing is outstanding, queued or active. -/
theorem limiter_accounts (maxActive maxQueued : ℕ) (ops : List Op) (s : State)
    (h : (State.configured maxActive maxQueued).run ops = some s) :
    let l := Ledger.run (min maxActive semaphoreMax) maxQueued ops
    (l.tickets = s.objects.map fun object => object.bind Admission.ticket) ∧
      s.limiter.outstanding = l.live ∧ l.live ≤ min maxActive semaphoreMax + maxQueued ∧
      s.limiter.queued = l.count Ticket.waiting ∧ s.limiter.active = l.count Ticket.started ∧
      s.limiter.completed = l.finished ∧ s.limiter.rejected = l.refused + l.rejects ∧
      (0 ≤ s.limiter.outstanding ∧ 0 ≤ s.limiter.queued ∧ 0 ≤ s.limiter.active ∧
        0 ≤ s.limiter.completed ∧ 0 ≤ s.limiter.rejected) ∧
      (l.live = 0 → s.limiter.outstanding = 0 ∧ s.limiter.queued = 0 ∧ s.limiter.active = 0) := by
  intro l
  obtain ⟨-, -, htickets, ⟨ho, hq, ha, hc, hr⟩, hle⟩ :=
    accounts_run ops (accounts_configured maxActive maxQueued) h
  have hqueued : s.limiter.queued = l.count Ticket.waiting := hq
  have hactive : s.limiter.active = l.count Ticket.started := ha
  have houtstanding : s.limiter.outstanding = l.live := ho
  have hcompleted : s.limiter.completed = l.finished := hc
  have hrejected : s.limiter.rejected = l.refused + l.rejects := hr
  refine ⟨htickets, ho, hle, hq, ha, hc, hr, ⟨by omega, by omega, by omega, by omega, by omega⟩, ?_⟩
  intro hnone
  have hwaiting := l.count_le_live Ticket.waiting
  have hstarted := l.count_le_live Ticket.started
  exact ⟨by omega, by omega, by omega⟩

/-- A program: of three requests to admit, the third one is refused; the second admission starts,
moves and is assigned over the first one. -/
def mixedOps : List Op :=
  [.tryAdmit, .tryAdmit, .tryAdmit, .start 1, .moveConstruct 1, .moveAssign 0 2, .start 1,
    .moveAssign 0 0, .destroy 1]

theorem limiter_accounts_mixed : ∃ s, (State.configured 1 1).run mixedOps = some s ∧
    s.limiter.outstanding = (Ledger.run 1 1 mixedOps).live := by
  refine ⟨_, rfl, ?_⟩
  exact (limiter_accounts 1 1 mixedOps _ rfl).2.1

end NekoProto.Rpc.ExecutionLimiter
