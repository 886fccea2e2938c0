import NekoProto.Rpc.NekoRpcBackend

/-!
# Response correlation

Calls, retries, timeouts, cancellations, responses in any order and the end of the connection:
`client_correlation` holds in every state that a run of the client reaches.

1. The pending table and the history fit together (`LedgerOk`): every delivery put a frame into
   the channel of an attempt with the frame's id, and every frame in a channel was delivered.
2. A call knows its own attempt (`CallOk`), and what it decoded came from that attempt's channel.
3. Each step keeps both (`step_inv`).
-/

namespace NekoProto.Rpc

open Correlation

section

variable {Id Context Session Method Value : Type}

/-- What a call decoded from a response. -/
def Phase.result : Phase Value → Option (Except ErrorCode Value)
  | .recovering error => some (.error error)
  | .done (.decoded result) => some result
  | _ => none

/-- The claim on a state: who got which frame. -/
structure Correlated (backend : ClientBackend Id Context Session Method Value)
    (s : ClientState Id Context Session Method Value) : Prop where
  /-- A frame goes to at most one attempt, and thus to one call. -/
  frame_once : (s.deliveries.map Prod.fst).Nodup
  /-- An attempt gets at most one frame. -/
  attempt_once : (s.deliveries.map Prod.snd).Nodup
  /-- A decoded result came from a frame with the id of the call's own current attempt. -/
  decoded : ∀ c call result, s.calls[c]? = some call → call.phase = .done (.decoded result) →
    ∃ k id n message context session, call.attempt = some (k, id) ∧ s.owners[k]? = some c ∧
      (n, k) ∈ s.deliveries ∧ s.received[n]? = some message ∧
      backend.responseId message = some id ∧
      (backend.decodeResponse context session call.method message id).2 = result
  /-- The ids of pending attempts are different. -/
  pending_nodup : (s.pending.outstanding.map Prod.fst).Nodup
  pending_le : s.pending.outstanding.length ≤ backend.maxPendingCalls

/-! ## The invariant -/

variable (backend : ClientBackend Id Context Session Method Value)

/-- The pending table and the history fit together. -/
structure LedgerOk (pending : Table Id PendingResult) (owners : List ℕ)
    (received : List MessageType) (deliveries : List (ℕ × ℕ)) : Prop where
  table : pending.Valid
  length_eq : owners.length = pending.tickets.length
  pending_le : pending.outstanding.length ≤ backend.maxPendingCalls
  frame_once : (deliveries.map Prod.fst).Nodup
  attempt_once : (deliveries.map Prod.snd).Nodup
  delivered : ∀ d ∈ deliveries, ∃ message id, received[d.1]? = some message ∧
    backend.responseId message = some id ∧
    pending.tickets[d.2]? = some { key := id, answer := some (.ok message) }
  answered : ∀ (k : ℕ) id message,
    pending.tickets[k]? = some { key := id, answer := some (.ok message) } →
      ∃ n, (n, k) ∈ deliveries ∧ received[n]? = some message

/-- A call knows its attempt, and what it decoded. -/
structure CallOk (tickets : List (Ticket Id PendingResult)) (owners : List ℕ) (c : ℕ)
    (call : ClientCall Id Method Value) : Prop where
  own : ∀ k id, call.attempt = some (k, id) →
    owners[k]? = some c ∧ ∃ answer, tickets[k]? = some { key := id, answer := answer }
  decoded : ∀ result, call.phase.result = some result →
    ∃ k id message context session, call.attempt = some (k, id) ∧
      tickets[k]? = some { key := id, answer := some (.ok message) } ∧
      (backend.decodeResponse context session call.method message id).2 = result

/-- The invariant of a client. -/
structure ClientState.Inv (s : ClientState Id Context Session Method Value) : Prop where
  ledger : LedgerOk backend s.pending s.owners s.received s.deliveries
  calls : ∀ c call, s.calls[c]? = some call → CallOk backend s.pending.tickets s.owners c call

/-! ## The ledger -/

section Ledger

variable {backend} {pending pending' : Table Id PendingResult} {owners : List ℕ}
  {received : List MessageType} {deliveries : List (ℕ × ℕ)}

/-- Failing attempts. -/
theorem LedgerOk.settle (h : LedgerOk backend pending owners received deliveries)
    (hvalid : pending'.Valid) {error : CallError}
    (hsettles : Table.Settles (.error error) pending.tickets pending'.tickets)
    (hle : pending'.outstanding.length ≤ pending.outstanding.length) :
    LedgerOk backend pending' owners received deliveries where
  table := hvalid
  length_eq := h.length_eq.trans hsettles.length_eq.symm
  pending_le := Nat.le_trans hle h.pending_le
  frame_once := h.frame_once
  attempt_once := h.attempt_once
  delivered := by
    intro d hd
    obtain ⟨message, id, hn, hid, hk⟩ := h.delivered d hd
    obtain ⟨⟨key, answer⟩, hk', hkey, hanswer⟩ := hsettles.extends d.2 _ hk
    obtain rfl : key = id := hkey
    obtain rfl : answer = some (.ok message) := hanswer _ rfl
    exact ⟨message, key, hn, hid, hk'⟩
  answered := by
    intro k id message hk
    rcases hsettles k with heq | ⟨key, -, hk'⟩
    · exact h.answered k id message (heq ▸ hk)
    · rw [hk'] at hk
      exact absurd hk (by simp)

/-- A frame that goes nowhere. -/
theorem LedgerOk.ignore (h : LedgerOk backend pending owners received deliveries)
    (message : MessageType) :
    LedgerOk backend pending owners (received ++ [message]) deliveries where
  table := h.table
  length_eq := h.length_eq
  pending_le := h.pending_le
  frame_once := h.frame_once
  attempt_once := h.attempt_once
  delivered := by
    intro d hd
    obtain ⟨m, id, hn, hid, hk⟩ := h.delivered d hd
    exact ⟨m, id, AppendOnly.getElem?_append_of_some hn _, hid, hk⟩
  answered := by
    intro k id m hk
    obtain ⟨n, hd, hn⟩ := h.answered k id m hk
    exact ⟨n, hd, AppendOnly.getElem?_append_of_some hn _⟩

/-- A new attempt. -/
theorem LedgerOk.issue (h : LedgerOk backend pending owners received deliveries) {id : Id}
    (hfree : id ∉ pending.outstanding.map Prod.fst)
    (hroom : pending.outstanding.length < backend.maxPendingCalls) (c : ℕ) :
    LedgerOk backend (pending.issue id) (owners ++ [c]) received deliveries where
  table := (Table.issue_valid h.table hfree).1
  length_eq := by
    show (owners ++ [c]).length = (pending.tickets ++ [_]).length
    rw [List.length_append, List.length_append, h.length_eq]
    rfl
  pending_le := by
    show (pending.outstanding ++ [_]).length ≤ _
    rw [List.length_append]
    exact hroom
  frame_once := h.frame_once
  attempt_once := h.attempt_once
  delivered := by
    intro d hd
    obtain ⟨m, id, hn, hid, hk⟩ := h.delivered d hd
    exact ⟨m, id, hn, hid, AppendOnly.getElem?_append_of_some hk _⟩
  answered := by
    intro k id m hk
    rcases AppendOnly.getElem?_concat_eq_some.mp hk with hk | ⟨-, heq⟩
    · exact h.answered k id m hk
    · exact absurd (congrArg Ticket.answer heq) (by simp)

/-- Giving up on an attempt. -/
theorem LedgerOk.revoke [DecidableEq Id]
    (h : LedgerOk backend pending owners received deliveries) (id : Id) :
    LedgerOk backend (pending.revoke id) owners received deliveries :=
  h.settle (Table.revoke_valid h.table id)
    (Table.Settles.refl (.error .canceled) pending.tickets) (List.length_filter_le _ _)

/-- **A delivery.** The last frame goes to the attempt that is pending under its id. -/
theorem LedgerOk.deliver [DecidableEq Id]
    (h : LedgerOk backend pending owners received deliveries) {message : MessageType} {id : Id}
    (hid : backend.responseId message = some id) {k : ℕ} (hk : (id, k) ∈ pending.outstanding)
    (hanswer : pending.answer id (.ok message) = (pending.revoke id).post k (.ok message)) :
    LedgerOk backend (pending.answer id (.ok message)) owners (received ++ [message])
      (deliveries ++ [(received.length, k)]) := by
  obtain ⟨hvalid, hsettles, -⟩ := Table.answer_valid h.table id (.ok message)
  have hopen : pending.tickets[k]? = some { key := id, answer := none } := h.table.waiting _ hk
  have hpost : (pending.answer id (.ok message)).tickets[k]? =
      some { key := id, answer := some (.ok message) } := by
    rw [hanswer, Table.getElem?_post, if_pos rfl]
    show (pending.tickets[k]?).map _ = _
    rw [hopen]
    rfl
  constructor
  case table => exact hvalid
  case length_eq => exact h.length_eq.trans hsettles.length_eq.symm
  case pending_le =>
    rw [hanswer]
    exact Nat.le_trans (List.length_filter_le _ _) h.pending_le
  case frame_once =>
    rw [List.map_append, List.map_singleton]
    refine List.nodup_append.mpr ⟨h.frame_once, List.nodup_singleton _, fun a ha b hb heq => ?_⟩
    obtain rfl : b = received.length := List.mem_singleton.mp hb
    obtain ⟨d, hd, rfl⟩ := List.mem_map.mp ha
    obtain ⟨_, _, hn, -⟩ := h.delivered d hd
    have hlt := (List.getElem?_eq_some_iff.mp hn).1
    omega
  case attempt_once =>
    rw [List.map_append, List.map_singleton]
    refine List.nodup_append.mpr
      ⟨h.attempt_once, List.nodup_singleton _, fun a ha b hb heq => ?_⟩
    obtain rfl : b = k := List.mem_singleton.mp hb
    obtain ⟨d, hd, rfl⟩ := List.mem_map.mp ha
    -- the attempt had nothing in its channel
    obtain ⟨_, _, -, -, hd'⟩ := h.delivered d hd
    rw [heq, hopen] at hd'
    exact absurd (congrArg (Option.map Ticket.answer) hd') (by simp)
  case delivered =>
    intro d hd
    rcases List.mem_append.mp hd with hd | hd
    · obtain ⟨m, key, hn, hkey, hd'⟩ := h.delivered d hd
      obtain ⟨⟨key', answer⟩, hd'', hkey', hanswer'⟩ := hsettles.extends d.2 _ hd'
      obtain rfl : key' = key := hkey'
      obtain rfl : answer = some (.ok m) := hanswer' _ rfl
      exact ⟨m, key', AppendOnly.getElem?_append_of_some hn _, hkey, hd''⟩
    · obtain rfl := List.mem_singleton.mp hd
      exact ⟨message, id, by simp, hid, hpost⟩
  case answered =>
    intro i key m hi
    by_cases hik : k = i
    · subst hik
      rw [hpost] at hi
      cases hi
      exact ⟨received.length, List.mem_append.mpr (Or.inr (List.mem_singleton_self _)), by simp⟩
    · rw [hanswer, Table.getElem?_post, if_neg hik] at hi
      obtain ⟨n, hd, hn⟩ := h.answered i key m hi
      exact ⟨n, List.mem_append.mpr (Or.inl hd), AppendOnly.getElem?_append_of_some hn _⟩

end Ledger

/-! ## Calls -/

section Calls

variable {backend} {xs ys : List (Ticket Id PendingResult)} {owners : List ℕ} {c : ℕ}
  {call : ClientCall Id Method Value}

/-- What a call knows stays true. -/
theorem CallOk.mono (h : CallOk backend xs owners c call)
    (hext : AppendOnly.Extends Correlation.Succeeds xs ys) (more : List ℕ) :
    CallOk backend ys (owners ++ more) c call where
  own := by
    intro k id hattempt
    obtain ⟨howner, answer, hk⟩ := h.own k id hattempt
    obtain ⟨⟨key, answer'⟩, hk', hkey, -⟩ := hext k _ hk
    obtain rfl : key = id := hkey
    exact ⟨AppendOnly.getElem?_append_of_some howner _, answer', hk'⟩
  decoded := by
    intro result hresult
    obtain ⟨k, id, message, context, session, hattempt, hk, hdecode⟩ := h.decoded result hresult
    obtain ⟨⟨key, answer'⟩, hk', hkey, hanswer⟩ := hext k _ hk
    obtain rfl : key = id := hkey
    obtain rfl : answer' = some (.ok message) := hanswer _ rfl
    exact ⟨k, key, message, context, session, hattempt, hk', hdecode⟩

/-- A call that goes on to a phase without a result. -/
theorem CallOk.phase (h : CallOk backend xs owners c call) {phase : Phase Value}
    (hphase : phase.result = none) : CallOk backend xs owners c { call with phase := phase } where
  own := h.own
  decoded := by
    intro result hresult
    rw [show phase.result = some result from hresult] at hphase
    exact absurd hphase (by simp)

end Calls

end

/-! ## The steps -/

namespace ClientState

section

variable {Id Context Session Method Value : Type}
  {backend : ClientBackend Id Context Session Method Value}
  {s : ClientState Id Context Session Method Value} {c : ℕ} {call : ClientCall Id Method Value}

theorem new_inv (backend : ClientBackend Id Context Session Method Value) (context : Context) :
    (new backend context).Inv backend where
  ledger := {
    table := Table.Valid.empty
    length_eq := rfl
    pending_le := Nat.zero_le _
    frame_once := List.nodup_nil
    attempt_once := List.nodup_nil
    delivered := List.forall_mem_nil _
    answered := fun k _ _ hk => absurd hk (by simp [new]) }
  calls := fun c call hc => absurd hc (by simp [new])

theorem Inv.setCall (h : s.Inv backend)
    (hcall : CallOk backend s.pending.tickets s.owners c call) :
    (s.setCall c call).Inv backend where
  ledger := h.ledger
  calls := by
    intro c' call' hc'
    rw [show (s.setCall c call).calls = s.calls.set c call from rfl, List.getElem?_set] at hc'
    split_ifs at hc' with heq hlt
    · subst heq
      obtain rfl := Option.some.inj hc'
      exact hcall
    · exact h.calls c' call' hc'

/-- A change of the pending table that calls can live with. -/
theorem Inv.pending (h : s.Inv backend) {pending : Table Id PendingResult}
    {received : List MessageType} {deliveries : List (ℕ × ℕ)}
    (hledger : LedgerOk backend pending s.owners received deliveries)
    (hext : AppendOnly.Extends Correlation.Succeeds s.pending.tickets pending.tickets) :
    ({ s with pending := pending, received := received, deliveries := deliveries } :
      ClientState Id Context Session Method Value).Inv backend where
  ledger := hledger
  calls := by
    intro c call hc
    have hmono := (h.calls c call hc).mono hext []
    rwa [List.append_nil] at hmono

theorem Inv.failAllPending (h : s.Inv backend) (error : CallError) :
    (s.failAllPending error).Inv backend := by
  obtain ⟨hvalid, hsettles, -⟩ := Table.answerAll_spec h.ledger.table (.error error)
  refine h.pending (h.ledger.settle hvalid hsettles ?_) hsettles.extends
  rw [Table.answerAll_outstanding]
  exact Nat.zero_le _

theorem Inv.close (h : s.Inv backend) : s.close.Inv backend := by
  have hfailed := h.failAllPending clientNotInit
  exact ⟨hfailed.ledger, hfailed.calls⟩

theorem Inv.setEndpoint (h : s.Inv backend) : s.setEndpoint.Inv backend :=
  ⟨h.close.ledger, h.close.calls⟩

theorem Inv.shutdown (h : s.Inv backend) (endpoint : ℕ) (error : Option ErrorCode) :
    (s.shutdown endpoint error).Inv backend := by
  have hfailed := h.failAllPending (error.elim clientNotInit .code)
  unfold ClientState.shutdown
  simp only
  split_ifs
  · exact ⟨hfailed.ledger, hfailed.calls⟩
  · exact hfailed

theorem Inv.disconnect (h : s.Inv backend) (endpoint : ℕ) (error : CallError) :
    (s.disconnect endpoint error).Inv backend := by
  have hfailed := h.failAllPending error
  unfold ClientState.disconnect
  simp only
  split_ifs
  · exact ⟨hfailed.ledger, hfailed.calls⟩
  · exact ⟨hfailed.ledger, hfailed.calls⟩

theorem Inv.start (h : s.Inv backend) (method : Method) (notification : Bool) :
    (s.start backend method notification).Inv backend where
  ledger := h.ledger
  calls := by
    intro c call hc
    rcases AppendOnly.getElem?_concat_eq_some.mp hc with hc | ⟨rfl, rfl⟩
    · exact h.calls c call hc
    · constructor
      · exact fun k id hattempt => absurd hattempt (by simp)
      · intro result hresult
        simp only at hresult
        split_ifs at hresult <;> exact absurd hresult (by simp [Phase.result])

theorem Inv.ensureReceiver (h : s.Inv backend) (hcall : s.calls[c]? = some call)
    (exchange : MessageType → Except ErrorCode MessageType) (meanwhile : Session → Session) :
    (s.ensureReceiver backend c call exchange meanwhile).Inv backend := by
  have hok := h.calls c call hcall
  unfold ClientState.ensureReceiver
  simp only
  split
  · exact Inv.setCall ⟨h.ledger, h.calls⟩ (hok.phase rfl)
  · split_ifs
    all_goals exact Inv.setCall ⟨h.ledger, h.calls⟩ (hok.phase rfl)

theorem Inv.recover (h : s.Inv backend) (hcall : s.calls[c]? = some call) {error : ErrorCode}
    (hphase : call.phase = .recovering error) : (s.recover backend c call error).Inv backend := by
  have hok := h.calls c call hcall
  unfold ClientState.recover
  simp only
  split_ifs
  · refine Inv.setCall ⟨h.ledger, h.calls⟩ ⟨?_, ?_⟩
    · exact fun k id hattempt => absurd hattempt (by simp)
    · exact fun result hresult => absurd hresult (by simp [Phase.result])
  · refine Inv.setCall ⟨h.ledger, h.calls⟩ ⟨hok.own, fun result hresult => ?_⟩
    exact hok.decoded result (by rw [hphase]; exact hresult)

/-- What the invariant says about who got which frame. -/
theorem Inv.correlated (h : s.Inv backend) : Correlated backend s where
  frame_once := h.ledger.frame_once
  attempt_once := h.ledger.attempt_once
  pending_nodup := h.ledger.table.nodup
  pending_le := h.ledger.pending_le
  decoded := by
    intro c call result hcall hphase
    have hok := h.calls c call hcall
    obtain ⟨k, id, message, context, session, hattempt, hk, hdecode⟩ :=
      hok.decoded result (by rw [hphase]; rfl)
    obtain ⟨n, hd, hn⟩ := h.ledger.answered k id message hk
    obtain ⟨message', id', hn', hid, hk'⟩ := h.ledger.delivered _ hd
    obtain rfl := Option.some.inj (hn.symm.trans hn')
    obtain rfl : id = id' := congrArg Ticket.key (Option.some.inj (hk.symm.trans hk'))
    exact ⟨k, id, n, message, context, session, hattempt, (hok.own k id hattempt).1, hd, hn, hid,
      hdecode⟩

end

section

variable {Id Context Session Method Value : Type} [DecidableEq Id]
  {backend : ClientBackend Id Context Session Method Value}
  {s s' : ClientState Id Context Session Method Value} {c : ℕ}
  {call : ClientCall Id Method Value}

theorem Inv.abandonPending (h : s.Inv backend) (call : ClientCall Id Method Value) :
    (s.abandonPending call).Inv backend := by
  unfold ClientState.abandonPending
  split
  · exact h
  · exact h.pending (h.ledger.revoke _) (AppendOnly.Extends.refl _)

/-- A call that fails. -/
theorem Inv.fail (h : s.Inv backend) (hcall : s.calls[c]? = some call) (error : CallError) :
    (s.fail c call error).Inv backend := by
  have habandoned := h.abandonPending call
  have hcalls : (s.abandonPending call).calls = s.calls := by
    unfold ClientState.abandonPending
    split <;> rfl
  exact habandoned.setCall ((habandoned.calls c call (hcalls ▸ hcall)).phase rfl)

theorem Inv.beginAttempt (h : s.Inv backend) (hcall : s.calls[c]? = some call) :
    (s.beginAttempt backend c call).Inv backend := by
  have hok := h.calls c call hcall
  unfold ClientState.beginAttempt
  simp only
  split
  · exact Inv.setCall ⟨h.ledger, h.calls⟩ (hok.phase rfl)
  rename_i message id _
  split_ifs with hnotification hreject
  · exact Inv.setCall ⟨h.ledger, h.calls⟩ (hok.phase rfl)
  · exact Inv.setCall ⟨h.ledger, h.calls⟩ (hok.phase rfl)
  -- a new attempt
  rw [not_or, Nat.not_le] at hreject
  have hfree : id ∉ s.pending.outstanding.map Prod.fst := by
    intro hmem
    obtain ⟨⟨key, k⟩, hp, rfl⟩ := List.mem_map.mp hmem
    exact hreject.2 (by rw [h.ledger.table.lookup_eq_some.mpr hp]; rfl)
  have hledger := h.ledger.issue hfree hreject.1 c
  have hext := (Table.issue_valid h.ledger.table hfree).2
  refine Inv.setCall ⟨hledger, fun c' call' hc' => (h.calls c' call' hc').mono hext [c]⟩ ⟨?_, ?_⟩
  · intro k id' hattempt
    obtain ⟨rfl, rfl⟩ := Prod.mk.inj (Option.some.inj hattempt)
    constructor
    · show (s.owners ++ [c])[s.pending.tickets.length]? = some c
      rw [← h.ledger.length_eq]
      simp
    · exact ⟨none, by simp [Table.issue]⟩
  · exact fun result hresult => absurd hresult (by simp [Phase.result])

theorem Inv.finishSend (h : s.Inv backend) (hcall : s.calls[c]? = some call)
    (message : MessageType) (written : Except ErrorCode ℕ) :
    (s.finishSend c call message written).Inv backend := by
  have hok := h.calls c call hcall
  unfold ClientState.finishSend
  split
  · exact h.fail hcall _
  split_ifs
  · exact h.fail hcall _
  · exact h.setCall (hok.phase rfl)
  · exact h.setCall (hok.phase rfl)

/-- A call that resumes decodes the frame of its own attempt, or fails. -/
theorem Inv.resume (h : s.Inv backend) (hcall : s.calls[c]? = some call)
    (hstep : s.resume backend c call = some s') : s'.Inv backend := by
  have hok := h.calls c call hcall
  unfold ClientState.resume at hstep
  split at hstep
  · exact absurd hstep (by simp)
  rename_i k id hattempt
  obtain ⟨-, answer, hk⟩ := hok.own k id hattempt
  rw [hk] at hstep
  simp only at hstep
  split at hstep
  · rename_i message
    have hresult : ∀ (phase : Phase Value) result, phase.result = some result →
        (backend.decodeResponse s.context s.session call.method message id).2 = result →
        CallOk backend s.pending.tickets s.owners c { call with phase := phase } := by
      refine fun phase result hphase hdecode => ⟨hok.own, fun result' hresult' => ?_⟩
      obtain rfl := Option.some.inj (hphase.symm.trans hresult')
      exact ⟨k, id, message, s.context, s.session, hattempt, hk, hdecode⟩
    split at hstep
    · rename_i value hdecode
      obtain rfl := Option.some.inj hstep
      exact Inv.setCall ⟨h.ledger, h.calls⟩ (hresult _ _ rfl hdecode)
    · rename_i error hdecode
      obtain rfl := Option.some.inj hstep
      exact Inv.setCall ⟨h.ledger, h.calls⟩ (hresult _ _ rfl hdecode)
  · obtain rfl := Option.some.inj hstep
    exact h.fail hcall _
  · split_ifs at hstep
    obtain rfl := Option.some.inj hstep
    exact h.fail hcall _

theorem Inv.cancel (h : s.Inv backend) (hcall : s.calls[c]? = some call) {timedOut : Bool}
    (hstep : s.cancel c call timedOut = some s') : s'.Inv backend := by
  have hok := h.calls c call hcall
  unfold ClientState.cancel at hstep
  simp only at hstep
  split at hstep
  · exact absurd hstep (by simp)
  · obtain rfl := Option.some.inj hstep
    exact h.fail hcall _
  · obtain rfl := Option.some.inj hstep
    exact h.fail hcall _
  · obtain rfl := Option.some.inj hstep
    exact h.setCall (hok.phase rfl)

/-- A frame goes to the attempt pending under its id, or nowhere. -/
theorem Inv.receive (h : s.Inv backend) (endpoint : ℕ) (message : MessageType) :
    (s.receive backend endpoint message).Inv backend := by
  have hreceived : ({ s with received := s.received ++ [message] } :
      ClientState Id Context Session Method Value).Inv backend :=
    ⟨h.ledger.ignore message, h.calls⟩
  unfold ClientState.receive
  simp only
  by_cases hnil : message = []
  · rw [if_pos hnil]
    exact hreceived.disconnect _ _
  rw [if_neg hnil]
  split
  · exact hreceived.disconnect _ _
  split_ifs
  · exact ⟨hreceived.ledger, hreceived.calls⟩
  split
  · exact ⟨hreceived.ledger, hreceived.calls⟩
  rename_i id hid
  split
  · exact ⟨hreceived.ledger, hreceived.calls⟩
  rename_i k hlookup
  have hk := h.ledger.table.lookup_eq_some.mp hlookup
  have hanswer : s.pending.answer id (.ok message) =
      (s.pending.revoke id).post k (.ok message) := by
    unfold Table.answer
    rw [hlookup]
  obtain ⟨-, hsettles, -⟩ := Table.answer_valid h.ledger.table id (.ok message)
  have hinv := h.pending (h.ledger.deliver hid hk hanswer) hsettles.extends
  exact ⟨hinv.ledger, hinv.calls⟩

/-- **A step keeps the invariant.** -/
theorem Inv.step_inv (h : s.Inv backend) {action : ClientAction Id Session Method}
    (hstep : s.step backend action = some s') : s'.Inv backend := by
  cases action with
  | setEndpoint => exact Option.some.inj hstep ▸ h.setEndpoint
  | close => exact Option.some.inj hstep ▸ h.close
  | shutdown endpoint error => exact Option.some.inj hstep ▸ h.shutdown endpoint error
  | start method notification => exact Option.some.inj hstep ▸ h.start method notification
  | ensureReceiver c exchange meanwhile =>
    obtain ⟨call, hcall, -, rfl⟩ := step_ensureReceiver hstep
    exact h.ensureReceiver hcall exchange meanwhile
  | attempt c =>
    obtain ⟨call, hcall, -, rfl⟩ := step_attempt hstep
    exact h.beginAttempt hcall
  | send c written =>
    obtain ⟨call, message, hcall, -, rfl⟩ := step_send hstep
    exact h.finishSend hcall message written
  | resume c =>
    obtain ⟨call, hcall, -, hresume⟩ := step_resume hstep
    exact h.resume hcall hresume
  | recover c =>
    obtain ⟨call, error, hcall, hphase, rfl⟩ := step_recover hstep
    exact h.recover hcall hphase
  | cancel c timedOut =>
    obtain ⟨call, hcall, hcancel⟩ := step_cancel hstep
    exact h.cancel hcall hcancel
  | cancelRemote id =>
    obtain rfl := Option.some.inj hstep
    obtain ⟨hvalid, hsettles, hsub⟩ := Table.answer_valid h.ledger.table id (.error .canceled)
    exact h.pending (h.ledger.settle hvalid hsettles hsub.length_le) hsettles.extends
  | receive endpoint message =>
    obtain ⟨-, rfl⟩ := step_receive hstep
    exact h.receive endpoint message
  | receiveError endpoint error =>
    obtain ⟨-, rfl⟩ := step_receiveError hstep
    exact h.disconnect endpoint (.code error)

theorem run_inv {actions : List (ClientAction Id Session Method)} :
    ∀ {s s' : ClientState Id Context Session Method Value}, s.Inv backend →
      run backend actions s = some s' → s'.Inv backend := by
  induction actions with
  | nil => intro s s' h hrun; exact Option.some.inj hrun ▸ h
  | cons action actions ih =>
    intro s s' h hrun
    obtain ⟨t, hstep, hrun'⟩ := Option.bind_eq_some_iff.mp hrun
    exact ih (h.step_inv hstep) hrun'

end

end ClientState

/-- **Response correlation.** In every state that a client reaches by any interleaving of its
calls, their retries, timeouts and cancellations, the frames its receive loops get and the ends of
its connections, each frame went to at most one attempt, each attempt got at most one frame, what
a call decoded came from a frame with the id of its own current attempt, and the pending ids are
different and at most as many as the options allow. -/
theorem client_correlation {Id Context Session Method Value : Type} [DecidableEq Id]
    (backend : ClientBackend Id Context Session Method Value) (context : Context)
    (actions : List (ClientAction Id Session Method))
    (s : ClientState Id Context Session Method Value)
    (hrun : ClientState.run backend actions (ClientState.new backend context) = some s) :
    Correlated backend s :=
  (ClientState.run_inv (ClientState.new_inv backend context) hrun).correlated

/-- A call of a method `a` by its method id, and its response. -/
theorem client_correlation_call :
    let backend := nekoRpcBackend runLengthCodec 1 plainSerializer
      (fun _ => RpcError.internalError.toErrorCode) 1024
    let server : BackendServerContext := {
      options := {}
      methodTable := MethodIdTable.updates { maxEntries := 4 } [.upsert [97] 1] }
    let hello := encodeHello (methodIdTableExtensions server.toServerContext true) 1
    let response := encodeFrame (makeResponse 1 1 [] 0 [])
    let actions : List (ClientAction UInt64 BackendSession RemoteMethod) :=
      [.setEndpoint, .start ⟨[97], some []⟩ false, .ensureReceiver 0 (fun _ => .ok hello) id,
        .attempt 0, .send 0 (.ok 56), .receive 0 response, .resume 0]
    ∃ s, ClientState.run backend actions (ClientState.new backend { options := {} }) = some s ∧
      s.deliveries = [(0, 0)] ∧ Correlated backend s := by
  intro backend server hello response actions
  have hrun : (ClientState.run backend actions
      (ClientState.new backend { options := {} })).map ClientState.deliveries = some [(0, 0)] := by
    decide +kernel +revert
  obtain ⟨s, hs, hdeliveries⟩ := Option.map_eq_some_iff.mp hrun
  exact ⟨s, hs, hdeliveries, client_correlation backend { options := {} } actions s hs⟩

end NekoProto.Rpc
