import NekoProto.Rpc.ClientCorrelation

/-!
# Stranded calls

When the receive loop of an endpoint ends, `_disconnect` fails all pending calls, once. A call
that enters the pending table of a dead endpoint later on, its first attempt or the retry after a
recovery, waits for a response that nobody reads.

1. No step but `beginAttempt` puts anything into the pending table (`Narrows`).
2. As long as attempts begin on live endpoints only, no call is stranded
   (`no_stranded_call_when`).
3. A retry that begins after the end of the connection strands its call
   (`no_stranded_call_fails`).
-/

namespace NekoProto.Rpc

open Correlation

section

variable {Id Context Session Method Value : Type}

/-- No call made on an endpoint whose receive loop has ended waits in the pending table with its
request sent. -/
def NoStrandedCall (s : ClientState Id Context Session Method Value) : Prop :=
  ∀ e ∈ s.disconnected, ∀ (c : ℕ) call k id, s.calls[c]? = some call →
    call.endpoint = some e → call.phase = .waiting → call.attempt = some (k, id) →
      (id, k) ∉ s.pending.outstanding

/-- An attempt begins before the receive loop of its endpoint has ended. -/
def beginsLive (s : ClientState Id Context Session Method Value) :
    ClientAction Id Session Method → Bool
  | .attempt c =>
    match s.calls[c]? with
    | none => true
    | some call =>
      call.notification ||
        match call.endpoint with
        | none => true
        | some e => e ∉ s.disconnected
  | _ => true

/-- A condition on the state before each step of a run. -/
def everyStep [DecidableEq Id] (backend : ClientBackend Id Context Session Method Value)
    (p : ClientState Id Context Session Method Value → ClientAction Id Session Method → Bool) :
    List (ClientAction Id Session Method) → ClientState Id Context Session Method Value → Bool
  | [], _ => true
  | action :: actions, s =>
    p s action &&
      match s.step backend action with
      | none => true
      | some s' => everyStep backend p actions s'

/-- The invariant: no pending attempt was made on an endpoint whose receive loop has ended. -/
def PendingLive (s : ClientState Id Context Session Method Value) : Prop :=
  ∀ (c : ℕ) call k id e, s.calls[c]? = some call → call.attempt = some (k, id) →
    call.endpoint = some e → (id, k) ∈ s.pending.outstanding → e ∉ s.disconnected

theorem PendingLive.noStrandedCall {s : ClientState Id Context Session Method Value}
    (h : PendingLive s) : NoStrandedCall s :=
  fun e he c call k id hcall hendpoint _ hattempt hmem =>
    h c call k id e hcall hattempt hendpoint hmem he

/-! ## Steps that put nothing into the pending table -/

/-- What is pending in `s'` was pending in `s`, for the same calls, and no endpoint got
disconnected. -/
structure Narrows (s s' : ClientState Id Context Session Method Value) : Prop where
  pending_sub : ∀ p ∈ s'.pending.outstanding, p ∈ s.pending.outstanding
  disconnected_eq : s'.disconnected = s.disconnected
  calls : ∀ (c : ℕ) call', s'.calls[c]? = some call' → call'.attempt = none ∨
    ∃ call, s.calls[c]? = some call ∧ call'.attempt = call.attempt ∧
      call'.endpoint = call.endpoint

theorem Narrows.of_eq {s s' : ClientState Id Context Session Method Value}
    (hpending : ∀ p ∈ s'.pending.outstanding, p ∈ s.pending.outstanding)
    (hdisconnected : s'.disconnected = s.disconnected) (hcalls : s'.calls = s.calls) :
    Narrows s s' :=
  ⟨hpending, hdisconnected, fun _ call hcall => Or.inr ⟨call, hcalls ▸ hcall, rfl, rfl⟩⟩

theorem PendingLive.narrow {s s' : ClientState Id Context Session Method Value}
    (hlive : PendingLive s) (h : Narrows s s') : PendingLive s' := by
  intro c call' k id e hcall' hattempt' hendpoint' hmem
  rw [h.disconnected_eq]
  rcases h.calls c call' hcall' with hnone | ⟨call, hcall, hattempt, hendpoint⟩
  · rw [hnone] at hattempt'
    exact absurd hattempt' (by simp)
  · exact hlive c call k id e hcall (hattempt.symm.trans hattempt')
      (hendpoint.symm.trans hendpoint') (h.pending_sub _ hmem)

namespace ClientState

variable {backend : ClientBackend Id Context Session Method Value}
  {s : ClientState Id Context Session Method Value} {c : ℕ} {call : ClientCall Id Method Value}

/-- A call that goes on, with its attempt or without. -/
theorem narrows_setCall {t : ClientState Id Context Session Method Value} (h : Narrows s t)
    (hcalls : t.calls = s.calls) (hcall : s.calls[c]? = some call)
    {call' : ClientCall Id Method Value} (hcall' : call'.attempt = none ∨
      call'.attempt = call.attempt ∧ call'.endpoint = call.endpoint) :
    Narrows s (t.setCall c call') where
  pending_sub := h.pending_sub
  disconnected_eq := h.disconnected_eq
  calls := by
    intro i x hx
    rw [show (t.setCall c call').calls = t.calls.set c call' from rfl, hcalls,
      List.getElem?_set] at hx
    split_ifs at hx with heq hlt
    · subst heq
      obtain rfl := Option.some.inj hx
      exact hcall'.imp_right fun ⟨hattempt, hendpoint⟩ => ⟨call, hcall, hattempt, hendpoint⟩
    · exact Or.inr ⟨x, hx, rfl, rfl⟩

theorem narrows_phase {t : ClientState Id Context Session Method Value} (h : Narrows s t)
    (hcalls : t.calls = s.calls) (hcall : s.calls[c]? = some call) (phase : Phase Value) :
    Narrows s (t.setCall c { call with phase := phase }) :=
  narrows_setCall h hcalls hcall (Or.inr ⟨rfl, rfl⟩)

theorem narrows_failed {s' : ClientState Id Context Session Method Value} {error : CallError}
    (hpending : s'.pending = (s.failAllPending error).pending)
    (hdisconnected : s'.disconnected = s.disconnected) (hcalls : s'.calls = s.calls) :
    Narrows s s' := by
  refine Narrows.of_eq (fun p hp => ?_) hdisconnected hcalls
  rw [hpending, show (s.failAllPending error).pending.outstanding = [] from
    Table.answerAll_outstanding _ _] at hp
  exact absurd hp List.not_mem_nil

theorem narrows_shutdown (s : ClientState Id Context Session Method Value) (endpoint : ℕ)
    (error : Option ErrorCode) : Narrows s (s.shutdown endpoint error) := by
  unfold shutdown
  simp only
  split_ifs
  · exact narrows_failed rfl rfl rfl
  · exact narrows_failed rfl rfl rfl

theorem narrows_start (s : ClientState Id Context Session Method Value) (method : Method)
    (notification : Bool) : Narrows s (s.start backend method notification) where
  pending_sub := fun _ hp => hp
  disconnected_eq := rfl
  calls := by
    intro c call hc
    rcases AppendOnly.getElem?_concat_eq_some.mp hc with hc | ⟨-, rfl⟩
    · exact Or.inr ⟨call, hc, rfl, rfl⟩
    · exact Or.inl rfl

theorem narrows_ensureReceiver (hcall : s.calls[c]? = some call)
    (exchange : MessageType → Except ErrorCode MessageType) (meanwhile : Session → Session) :
    Narrows s (s.ensureReceiver backend c call exchange meanwhile) := by
  unfold ensureReceiver
  simp only
  split
  · refine narrows_phase ?_ ?_ hcall _
    · exact Narrows.of_eq (fun _ hp => hp) rfl rfl
    · rfl
  · split_ifs
    all_goals
      refine narrows_phase ?_ ?_ hcall _
      · exact Narrows.of_eq (fun _ hp => hp) rfl rfl
      · rfl

theorem narrows_recover (hcall : s.calls[c]? = some call) (error : ErrorCode) :
    Narrows s (s.recover backend c call error) := by
  unfold recover
  simp only
  split_ifs
  · refine narrows_setCall ?_ ?_ hcall (Or.inl ?_)
    · exact Narrows.of_eq (fun _ hp => hp) rfl rfl
    · rfl
    · rfl
  · refine narrows_phase ?_ ?_ hcall _
    · exact Narrows.of_eq (fun _ hp => hp) rfl rfl
    · rfl

/-- The end of a receive loop leaves nothing pending. -/
theorem disconnect_pendingLive (s : ClientState Id Context Session Method Value) (endpoint : ℕ)
    (error : CallError) : PendingLive (s.disconnect endpoint error) := by
  intro c call k id e _ _ _ hmem
  have hnil : (s.disconnect endpoint error).pending.outstanding = [] := by
    unfold disconnect
    simp only
    split_ifs
    · exact Table.answerAll_outstanding _ _
    · exact Table.answerAll_outstanding _ _
  rw [hnil] at hmem
  exact absurd hmem List.not_mem_nil

section

variable [DecidableEq Id] {s' : ClientState Id Context Session Method Value}

/-- A call that fails. -/
theorem narrows_fail (hcall : s.calls[c]? = some call) (error : CallError) :
    Narrows s (s.fail c call error) := by
  unfold fail abandonPending
  split
  · refine narrows_phase ?_ ?_ hcall _
    · exact Narrows.of_eq (fun _ hp => hp) rfl rfl
    · rfl
  · rename_i k id _
    refine narrows_phase ?_ ?_ hcall _
    · exact Narrows.of_eq (fun p hp => ((Table.revoke_outstanding id s.pending).mp hp).1) rfl rfl
    · rfl

theorem narrows_finishSend (hcall : s.calls[c]? = some call) (message : MessageType)
    (written : Except ErrorCode ℕ) : Narrows s (s.finishSend c call message written) := by
  unfold finishSend
  split
  · exact narrows_fail hcall _
  split_ifs
  · exact narrows_fail hcall _
  · refine narrows_phase ?_ ?_ hcall _
    · exact Narrows.of_eq (fun _ hp => hp) rfl rfl
    · rfl
  · refine narrows_phase ?_ ?_ hcall _
    · exact Narrows.of_eq (fun _ hp => hp) rfl rfl
    · rfl

theorem narrows_resume (hcall : s.calls[c]? = some call)
    (h : s.resume backend c call = some s') : Narrows s s' := by
  unfold resume at h
  split at h
  · exact absurd h (by simp)
  split at h
  · exact absurd h (by simp)
  split at h
  · simp only at h
    split at h
    all_goals
      obtain rfl := Option.some.inj h
      refine narrows_phase ?_ ?_ hcall _
      · exact Narrows.of_eq (fun _ hp => hp) rfl rfl
      · rfl
  · obtain rfl := Option.some.inj h
    exact narrows_fail hcall _
  · split_ifs at h
    obtain rfl := Option.some.inj h
    exact narrows_fail hcall _

theorem narrows_cancel {timedOut : Bool} (hcall : s.calls[c]? = some call)
    (h : s.cancel c call timedOut = some s') : Narrows s s' := by
  unfold cancel at h
  simp only at h
  split at h
  · exact absurd h (by simp)
  · obtain rfl := Option.some.inj h
    exact narrows_fail hcall _
  · obtain rfl := Option.some.inj h
    exact narrows_fail hcall _
  · obtain rfl := Option.some.inj h
    refine narrows_phase ?_ ?_ hcall _
    · exact Narrows.of_eq (fun _ hp => hp) rfl rfl
    · rfl

theorem narrows_answer (hinv : s.Inv backend) (id : Id) (result : PendingResult) :
    ∀ p ∈ (s.pending.answer id result).outstanding, p ∈ s.pending.outstanding :=
  fun _ hp => (Table.answer_valid hinv.ledger.table id result).2.2.subset hp

/-- A frame ends the receive loop, or takes something out of the pending table at most. -/
theorem receive_pendingLive (hinv : s.Inv backend) (hlive : PendingLive s) (endpoint : ℕ)
    (message : MessageType) : PendingLive (s.receive backend endpoint message) := by
  unfold receive
  simp only
  by_cases hnil : message = []
  · rw [if_pos hnil]
    exact disconnect_pendingLive _ _ _
  rw [if_neg hnil]
  split
  · exact disconnect_pendingLive _ _ _
  split_ifs
  · exact hlive.narrow (Narrows.of_eq (fun _ hp => hp) rfl rfl)
  split
  · exact hlive.narrow (Narrows.of_eq (fun _ hp => hp) rfl rfl)
  split
  · exact hlive.narrow (Narrows.of_eq (fun _ hp => hp) rfl rfl)
  · exact hlive.narrow (Narrows.of_eq (narrows_answer hinv _ _) rfl rfl)

/-- **An attempt.** It enters the pending table of a live endpoint, or does not enter it. -/
theorem beginAttempt_pendingLive (hinv : s.Inv backend) (hlive : PendingLive s)
    (hcall : s.calls[c]? = some call)
    (hbegins : beginsLive s (.attempt c : ClientAction Id Session Method) = true) :
    PendingLive (s.beginAttempt backend c call) := by
  have hkeep : ∀ context phase, PendingLive (({ s with context := context } :
      ClientState Id Context Session Method Value).setCall c { call with phase := phase }) := by
    intro context phase
    refine hlive.narrow (narrows_phase ?_ ?_ hcall phase)
    · exact Narrows.of_eq (fun _ hp => hp) rfl rfl
    · rfl
  unfold beginAttempt
  simp only
  split
  · exact hkeep _ _
  rename_i message id _
  split_ifs with hnotification hreject
  · exact hkeep _ _
  · exact hkeep _ _
  intro i x k key e hx hattempt hendpoint hmem
  rw [show ∀ (t : ClientState Id Context Session Method Value) (y : ClientCall Id Method Value),
    (t.setCall c y).calls = t.calls.set c y from fun _ _ => rfl, List.getElem?_set] at hx
  split_ifs at hx with heq hlt
  · -- the new attempt
    obtain rfl := Option.some.inj hx
    have hendpoint' : call.endpoint = some e := hendpoint
    simp only [beginsLive, hcall, hendpoint', hnotification, Bool.false_or] at hbegins
    exact of_decide_eq_true hbegins
  · -- an older one
    obtain ⟨-, answer, hk⟩ := (hinv.calls i x hx).own k key hattempt
    refine hlive i x k key e hx hattempt hendpoint ?_
    rcases List.mem_append.mp hmem with hmem | hmem
    · exact hmem
    · cases List.mem_singleton.mp hmem
      exact absurd (List.getElem?_eq_some_iff.mp hk).1 (Nat.lt_irrefl _)

theorem step_pendingLive (hinv : s.Inv backend) (hlive : PendingLive s)
    {action : ClientAction Id Session Method} (hbegins : beginsLive s action = true)
    (hstep : s.step backend action = some s') : PendingLive s' := by
  cases action with
  | setEndpoint =>
    obtain rfl := Option.some.inj hstep
    exact hlive.narrow (narrows_failed rfl rfl rfl)
  | close =>
    obtain rfl := Option.some.inj hstep
    exact hlive.narrow (narrows_failed rfl rfl rfl)
  | shutdown endpoint error =>
    obtain rfl := Option.some.inj hstep
    exact hlive.narrow (narrows_shutdown s endpoint error)
  | start method notification =>
    obtain rfl := Option.some.inj hstep
    exact hlive.narrow (narrows_start s method notification)
  | ensureReceiver c exchange meanwhile =>
    obtain ⟨call, hcall, -, rfl⟩ := step_ensureReceiver hstep
    exact hlive.narrow (narrows_ensureReceiver hcall exchange meanwhile)
  | attempt c =>
    obtain ⟨call, hcall, -, rfl⟩ := step_attempt hstep
    exact beginAttempt_pendingLive hinv hlive hcall hbegins
  | send c written =>
    obtain ⟨call, message, hcall, -, rfl⟩ := step_send hstep
    exact hlive.narrow (narrows_finishSend hcall message written)
  | resume c =>
    obtain ⟨call, hcall, -, hresume⟩ := step_resume hstep
    exact hlive.narrow (narrows_resume hcall hresume)
  | recover c =>
    obtain ⟨call, error, hcall, -, rfl⟩ := step_recover hstep
    exact hlive.narrow (narrows_recover hcall error)
  | cancel c timedOut =>
    obtain ⟨call, hcall, hcancel⟩ := step_cancel hstep
    exact hlive.narrow (narrows_cancel hcall hcancel)
  | cancelRemote id =>
    obtain rfl := Option.some.inj hstep
    exact hlive.narrow (Narrows.of_eq (narrows_answer hinv _ _) rfl rfl)
  | receive endpoint message =>
    obtain ⟨-, rfl⟩ := step_receive hstep
    exact receive_pendingLive hinv hlive endpoint message
  | receiveError endpoint error =>
    obtain ⟨-, rfl⟩ := step_receiveError hstep
    exact disconnect_pendingLive s endpoint _

theorem run_pendingLive {actions : List (ClientAction Id Session Method)} :
    ∀ {s s' : ClientState Id Context Session Method Value}, s.Inv backend → PendingLive s →
      everyStep backend beginsLive actions s = true → run backend actions s = some s' →
      PendingLive s' := by
  induction actions with
  | nil => intro s s' _ hlive _ hrun; exact Option.some.inj hrun ▸ hlive
  | cons action actions ih =>
    intro s s' hinv hlive hsteps hrun
    obtain ⟨t, hstep, hrun'⟩ := Option.bind_eq_some_iff.mp hrun
    unfold everyStep at hsteps
    rw [hstep, Bool.and_eq_true] at hsteps
    exact ih (hinv.step_inv hstep) (step_pendingLive hinv hlive hsteps.1 hstep) hsteps.2 hrun'

end

end ClientState

end

/-- **No stranded call.** In every run of a client whose attempts all begin before the receive
loop of their endpoint has ended, no call made on an endpoint whose loop has ended waits in the
pending table with its request sent. -/
theorem no_stranded_call_when {Id Context Session Method Value : Type} [DecidableEq Id]
    (backend : ClientBackend Id Context Session Method Value) (context : Context)
    (actions : List (ClientAction Id Session Method))
    (s : ClientState Id Context Session Method Value)
    (hbegins : everyStep backend beginsLive actions (ClientState.new backend context) = true)
    (hrun : ClientState.run backend actions (ClientState.new backend context) = some s) :
    NoStrandedCall s := by
  refine PendingLive.noStrandedCall (ClientState.run_pendingLive
    (ClientState.new_inv backend context) (fun c call k id e hcall => ?_) hbegins hrun)
  exact absurd hcall (by simp [ClientState.new])

/-- A call that is waiting when the connection ends gets the error of the end. -/
theorem no_stranded_call_pending :
    let backend := nekoRpcBackend runLengthCodec 1 plainSerializer
      (fun _ => RpcError.internalError.toErrorCode) 1024
    let actions : List (ClientAction UInt64 BackendSession RemoteMethod) :=
      [.setEndpoint, .start ⟨[97], some []⟩ false, .ensureReceiver 0 (fun _ => .ok []) id,
        .attempt 0, .send 0 (.ok 25), .receive 0 [], .resume 0]
    ∃ s, ClientState.run backend actions
        (ClientState.new backend { options := { methodId := .disable } }) = some s ∧
      s.disconnected = [0] ∧ NoStrandedCall s := by
  intro backend actions
  have hrun : (ClientState.run backend actions
      (ClientState.new backend { options := { methodId := .disable } })).map
        ClientState.disconnected = some [0] := by
    decide +kernel +revert
  obtain ⟨s, hs, hdisconnected⟩ := Option.map_eq_some_iff.mp hrun
  exact ⟨s, hs, hdisconnected, no_stranded_call_when backend { options := { methodId := .disable } }
    actions s (by decide +kernel +revert) hs⟩

/-- The server refuses a method id as outdated, the connection ends, and the client, which takes
up the response afterwards, sends the request again: nobody is left to receive the answer. -/
theorem no_stranded_call_fails :
    let backend := nekoRpcBackend runLengthCodec 1 plainSerializer
      (fun _ => RpcError.internalError.toErrorCode) 1024
    let server : BackendServerContext := {
      options := {}
      methodTable := MethodIdTable.updates { maxEntries := 4 } [.upsert [97] 1] }
    let hello := encodeHello (methodIdTableExtensions server.toServerContext true) 1
    let response := encodeFrame (makeErrorResponse plainSerializer (fun _ => []) 1 1
      RpcError.methodTableOutdated.toErrorCode [])
    let actions : List (ClientAction UInt64 BackendSession RemoteMethod) :=
      [.setEndpoint, .start ⟨[97], some []⟩ false, .ensureReceiver 0 (fun _ => .ok hello) id,
        .attempt 0, .send 0 (.ok 56), .receive 0 response, .receive 0 [], .resume 0, .recover 0,
        .attempt 0, .send 0 (.ok 25)]
    ∃ s, ClientState.run backend actions (ClientState.new backend { options := {} }) = some s ∧
      ¬NoStrandedCall s := by
  intro backend server hello response actions
  have hends : (ClientState.run backend actions (ClientState.new backend { options := {} })).map
      (fun s => (s.disconnected, s.pending.outstanding)) = some ([0], [(2, 1)]) := by
    decide +kernel +revert
  have hwaits : (ClientState.run backend actions (ClientState.new backend { options := {} })).map
      (fun s => s.calls.map fun call => (call.endpoint, call.attempt, call.phase.isWaiting)) =
      some [(some 0, some (1, 2), true)] := by
    decide +kernel +revert
  obtain ⟨s, hs, hends⟩ := Option.map_eq_some_iff.mp hends
  obtain ⟨hdisconnected, hpending⟩ := Prod.mk.inj hends
  rw [hs] at hwaits
  obtain ⟨call, hcall, hview⟩ := List.map_eq_singleton_iff.mp (Option.some.inj hwaits)
  obtain ⟨hendpoint, hview⟩ := Prod.mk.inj hview
  obtain ⟨hattempt, hwaiting⟩ := Prod.mk.inj hview
  refine ⟨s, hs, fun h => h 0 ?_ 0 call 1 2 ?_ hendpoint ?_ hattempt ?_⟩
  · rw [hdisconnected]
    exact List.mem_singleton_self 0
  · rw [hcall]
    rfl
  · exact Phase.isWaiting_iff.mp hwaiting
  · rw [hpending]
    exact List.mem_singleton_self _

end NekoProto.Rpc
