import NekoProto.Rpc.ClientCorrelation

/-!
# The requests of a client

Where the messages that a client sends come from, and which ids they carry.

1. No step but `beginAttempt` encodes a request, issues an id or hands a message to an endpoint
   (`Quiet`, `step_cases`).
2. So what is sent is a request of the call that sends it, with the id of one of its attempts
   (`Originates`, `originates_step`).
3. As long as the backend allocates new ids, no two attempts have the same one (`Numbered`,
   `numbered_step`).
-/

namespace NekoProto.Rpc

open Correlation AppendOnly

section

variable {Id Context Session Method Value : Type}

/-- The same call, later. -/
structure ClientCall.Later (call call' : ClientCall Id Method Value) : Prop where
  method_eq : call'.method = call.method
  notification_eq : call'.notification = call.notification
  endpoint_eq : call'.endpoint = call.endpoint

instance : @Std.Refl (ClientCall Id Method Value) ClientCall.Later :=
  ⟨fun _ => ⟨rfl, rfl, rfl⟩⟩

instance : IsTrans (ClientCall Id Method Value) ClientCall.Later :=
  ⟨fun _ _ _ h k => ⟨k.method_eq.trans h.method_eq, k.notification_eq.trans h.notification_eq,
    k.endpoint_eq.trans h.endpoint_eq⟩⟩

namespace ClientState

/-! ## Steps that begin no attempt -/

/-- A step that begins no attempt: it encodes nothing and issues no id, and the calls that send
were sending before. -/
structure Quiet (action : ClientAction Id Session Method)
    (s s' : ClientState Id Context Session Method Value) : Prop where
  context_eq : s'.context = s.context
  keys_eq : s'.pending.keys = s.pending.keys
  owners_eq : s'.owners = s.owners
  received : ∀ message ∈ s'.received, message ∈ s.received ∨
    ∃ endpoint, action = .receive endpoint message
  calls : Extends ClientCall.Later s.calls s'.calls
  sending : ∀ (c : ℕ) (call' : ClientCall Id Method Value) message, s'.calls[c]? = some call' →
    call'.phase = .sending message → ∃ call, s.calls[c]? = some call ∧
      call.phase = .sending message

section

variable {action : ClientAction Id Session Method}
  {s s' t : ClientState Id Context Session Method Value} {c : ℕ}
  {call call' : ClientCall Id Method Value}

theorem Quiet.trans (h : Quiet action s t) (h' : Quiet action t s') : Quiet action s s' where
  context_eq := h'.context_eq.trans h.context_eq
  keys_eq := h'.keys_eq.trans h.keys_eq
  owners_eq := h'.owners_eq.trans h.owners_eq
  received := by
    intro message hmem
    rcases h'.received message hmem with hold | hnew
    · exact h.received message hold
    · exact Or.inr hnew
  calls := h.calls.trans h'.calls
  sending := by
    intro c call' message hcall' hphase'
    obtain ⟨x, hx, hphase⟩ := h'.sending c call' message hcall' hphase'
    exact h.sending c x message hx hphase

/-- The calls stay as they are. -/
theorem Quiet.of_calls_eq (hcontext : s'.context = s.context)
    (hkeys : s'.pending.keys = s.pending.keys) (howners : s'.owners = s.owners)
    (hreceived : s'.received = s.received) (hcalls : s'.calls = s.calls) : Quiet action s s' where
  context_eq := hcontext
  keys_eq := hkeys
  owners_eq := howners
  received _ hmem := Or.inl (hreceived ▸ hmem)
  calls := hcalls ▸ Extends.refl _
  sending _ call' _ hcall hphase := ⟨call', hcalls ▸ hcall, hphase⟩

/-- A call that goes on, among the others. -/
theorem setCall_cases {t : ClientState Id Context Session Method Value} (hcalls : t.calls = s.calls)
    (hcall : s.calls[c]? = some call) (hlater : call.Later call') :
    Extends ClientCall.Later s.calls (t.setCall c call').calls ∧
      ∀ (i : ℕ) (x : ClientCall Id Method Value), (t.setCall c call').calls[i]? = some x →
        s.calls[i]? = some x ∨ i = c ∧ x = call' := by
  have hset : (t.setCall c call').calls = s.calls.set c call' :=
    congrArg (List.set · c call') hcalls
  rw [hset]
  refine ⟨fun i x hx => ?_, fun i x hx => ?_⟩
  · rw [List.getElem?_set]
    by_cases heq : c = i
    · subst heq
      rw [if_pos rfl, if_pos (List.getElem?_eq_some_iff.mp hcall).1]
      obtain rfl := Option.some.inj (hcall.symm.trans hx)
      exact ⟨call', rfl, hlater⟩
    · rw [if_neg heq]
      exact ⟨x, hx, Std.Refl.refl x⟩
  · rw [List.getElem?_set] at hx
    split_ifs at hx with heq
    · exact Or.inr ⟨heq.symm, (Option.some.inj hx).symm⟩
    · exact Or.inl hx

/-- A call goes on, and does not begin to send. -/
theorem Quiet.setCall (h : Quiet action s t) (hcalls : t.calls = s.calls)
    (hcall : s.calls[c]? = some call) (hlater : call.Later call')
    (hphase : ∀ message, call'.phase = .sending message → call.phase = .sending message) :
    Quiet action s (t.setCall c call') := by
  obtain ⟨hcalls', hcases⟩ := setCall_cases hcalls hcall hlater
  refine ⟨h.context_eq, h.keys_eq, h.owners_eq, h.received, hcalls', fun i x message hx hx' => ?_⟩
  rcases hcases i x hx with hold | ⟨rfl, rfl⟩
  · exact ⟨x, hold, hx'⟩
  · exact ⟨call, hcall, hphase message hx'⟩

theorem quiet_disconnect (endpoint : ℕ) (error : CallError) :
    Quiet action s (s.disconnect endpoint error) := by
  have hkeys := Table.keys_answerAll (.error error) s.pending
  unfold disconnect
  simp only
  split_ifs
  · exact .of_calls_eq rfl hkeys rfl rfl rfl
  · exact .of_calls_eq rfl hkeys rfl rfl rfl

theorem quiet_shutdown (endpoint : ℕ) (error : Option ErrorCode) :
    Quiet action s (s.shutdown endpoint error) := by
  have hkeys := Table.keys_answerAll (.error (error.elim clientNotInit .code)) s.pending
  unfold shutdown
  simp only
  split_ifs
  · exact .of_calls_eq rfl hkeys rfl rfl rfl
  · exact .of_calls_eq rfl hkeys rfl rfl rfl

/-- A call goes on to a phase in which it sends nothing. -/
theorem quiet_phase (hcontext : t.context = s.context) (hkeys : t.pending.keys = s.pending.keys)
    (howners : t.owners = s.owners) (hreceived : t.received = s.received)
    (hcalls : t.calls = s.calls) (hcall : s.calls[c]? = some call) (hlater : call.Later call')
    (hphase : ∀ message, call'.phase ≠ .sending message) :
    Quiet action s (t.setCall c call') :=
  (Quiet.of_calls_eq hcontext hkeys howners hreceived hcalls).setCall hcalls hcall hlater
    fun message h => absurd h (hphase message)

theorem quiet_start (backend : ClientBackend Id Context Session Method Value) (method : Method)
    (notification : Bool) : Quiet action s (s.start backend method notification) := by
  refine ⟨rfl, rfl, rfl, fun message hmem => Or.inl hmem, Extends.append _ _, ?_⟩
  intro c call' message hcall hphase
  rcases getElem?_concat_eq_some.mp hcall with hold | ⟨-, rfl⟩
  · exact ⟨call', hold, hphase⟩
  · simp only at hphase
    split_ifs at hphase

theorem quiet_ensureReceiver (backend : ClientBackend Id Context Session Method Value)
    (hcall : s.calls[c]? = some call) (exchange : MessageType → Except ErrorCode MessageType)
    (meanwhile : Session → Session) :
    Quiet action s (s.ensureReceiver backend c call exchange meanwhile) := by
  unfold ensureReceiver
  simp only
  split
  · exact quiet_phase rfl rfl rfl rfl rfl hcall ⟨rfl, rfl, rfl⟩ (by simp)
  · split_ifs
    all_goals exact quiet_phase rfl rfl rfl rfl rfl hcall ⟨rfl, rfl, rfl⟩ (by simp)

theorem quiet_recover (backend : ClientBackend Id Context Session Method Value)
    (hcall : s.calls[c]? = some call) (error : ErrorCode) :
    Quiet action s (s.recover backend c call error) := by
  unfold recover
  simp only
  split_ifs
  · exact quiet_phase rfl rfl rfl rfl rfl hcall ⟨rfl, rfl, rfl⟩ (by simp)
  · exact quiet_phase rfl rfl rfl rfl rfl hcall ⟨rfl, rfl, rfl⟩ (by simp)

variable [DecidableEq Id]

/-- A call that fails. -/
theorem quiet_fail (hcall : s.calls[c]? = some call) (error : CallError) :
    Quiet action s (s.fail c call error) := by
  unfold fail abandonPending
  split
  · exact quiet_phase rfl rfl rfl rfl rfl hcall ⟨rfl, rfl, rfl⟩ (by simp)
  · exact quiet_phase rfl rfl rfl rfl rfl hcall ⟨rfl, rfl, rfl⟩ (by simp)

theorem quiet_finishSend (hcall : s.calls[c]? = some call) (message : MessageType)
    (written : Except ErrorCode ℕ) : Quiet action s (s.finishSend c call message written) := by
  unfold finishSend
  split
  · exact quiet_fail hcall _
  split_ifs
  · exact quiet_fail hcall _
  · exact quiet_phase rfl rfl rfl rfl rfl hcall ⟨rfl, rfl, rfl⟩ (by simp)
  · exact quiet_phase rfl rfl rfl rfl rfl hcall ⟨rfl, rfl, rfl⟩ (by simp)

theorem quiet_resume {backend : ClientBackend Id Context Session Method Value}
    (hcall : s.calls[c]? = some call) (h : s.resume backend c call = some s') :
    Quiet action s s' := by
  unfold resume at h
  split at h
  · cases h
  split at h
  · cases h
  split at h
  · simp only at h
    split at h
    all_goals
      obtain rfl := Option.some.inj h
      exact quiet_phase rfl rfl rfl rfl rfl hcall ⟨rfl, rfl, rfl⟩ (by simp)
  · obtain rfl := Option.some.inj h
    exact quiet_fail hcall _
  · split_ifs at h
    obtain rfl := Option.some.inj h
    exact quiet_fail hcall _

theorem quiet_cancel {timedOut : Bool} (hcall : s.calls[c]? = some call)
    (h : s.cancel c call timedOut = some s') : Quiet action s s' := by
  unfold cancel at h
  simp only at h
  split at h
  · cases h
  · obtain rfl := Option.some.inj h
    exact quiet_fail hcall _
  · obtain rfl := Option.some.inj h
    exact quiet_fail hcall _
  · obtain rfl := Option.some.inj h
    exact quiet_phase rfl rfl rfl rfl rfl hcall ⟨rfl, rfl, rfl⟩ (by simp)

/-- A turn of the receive loop is the only step that receives something. -/
theorem quiet_receive (backend : ClientBackend Id Context Session Method Value) (endpoint : ℕ)
    (message : MessageType) :
    Quiet (.receive endpoint message) s (s.receive backend endpoint message) := by
  have hreceived : Quiet (.receive endpoint message) s
      { s with received := s.received ++ [message] } := by
    refine ⟨rfl, rfl, rfl, fun m hmem => ?_, Extends.refl _, fun c call' m hcall hphase =>
      ⟨call', hcall, hphase⟩⟩
    rcases List.mem_append.mp hmem with hold | hnew
    · exact Or.inl hold
    · obtain rfl := List.mem_singleton.mp hnew
      exact Or.inr ⟨endpoint, rfl⟩
  unfold receive
  simp only
  by_cases hnil : message = []
  · rw [if_pos hnil]
    exact hreceived.trans (quiet_disconnect _ _)
  rw [if_neg hnil]
  split
  · exact hreceived.trans (quiet_disconnect _ _)
  split_ifs
  · exact hreceived.trans (.of_calls_eq rfl rfl rfl rfl rfl)
  split
  · exact hreceived.trans (.of_calls_eq rfl rfl rfl rfl rfl)
  split
  · exact hreceived.trans (.of_calls_eq rfl rfl rfl rfl rfl)
  · exact hreceived.trans (.of_calls_eq rfl (Table.keys_answer _ _ s.pending) rfl rfl rfl)

/-- **Only an attempt sends.** -/
theorem step_cases {backend : ClientBackend Id Context Session Method Value}
    (hstep : s.step backend action = some s') : Quiet action s s' ∨
      ∃ c call, action = .attempt c ∧ s.calls[c]? = some call ∧
        s' = s.beginAttempt backend c call := by
  cases action with
  | attempt c =>
    obtain ⟨call, hcall, -, rfl⟩ := step_attempt hstep
    exact Or.inr ⟨c, call, rfl, hcall, rfl⟩
  | setEndpoint =>
    obtain rfl := Option.some.inj hstep
    exact Or.inl (.of_calls_eq rfl (Table.keys_answerAll _ s.pending) rfl rfl rfl)
  | close =>
    obtain rfl := Option.some.inj hstep
    exact Or.inl (.of_calls_eq rfl (Table.keys_answerAll _ s.pending) rfl rfl rfl)
  | shutdown endpoint error =>
    obtain rfl := Option.some.inj hstep
    exact Or.inl (quiet_shutdown endpoint error)
  | start method notification =>
    obtain rfl := Option.some.inj hstep
    exact Or.inl (quiet_start backend method notification)
  | ensureReceiver c exchange meanwhile =>
    obtain ⟨call, hcall, -, rfl⟩ := step_ensureReceiver hstep
    exact Or.inl (quiet_ensureReceiver backend hcall exchange meanwhile)
  | send c written =>
    obtain ⟨call, message, hcall, -, rfl⟩ := step_send hstep
    exact Or.inl (quiet_finishSend hcall message written)
  | resume c =>
    obtain ⟨call, hcall, -, hresume⟩ := step_resume hstep
    exact Or.inl (quiet_resume hcall hresume)
  | recover c =>
    obtain ⟨call, error, hcall, -, rfl⟩ := step_recover hstep
    exact Or.inl (quiet_recover backend hcall error)
  | cancel c timedOut =>
    obtain ⟨call, hcall, hcancel⟩ := step_cancel hstep
    exact Or.inl (quiet_cancel hcall hcancel)
  | cancelRemote id =>
    obtain rfl := Option.some.inj hstep
    exact Or.inl (.of_calls_eq rfl (Table.keys_answer id _ s.pending) rfl rfl rfl)
  | receive endpoint message =>
    obtain ⟨-, rfl⟩ := step_receive hstep
    exact Or.inl (quiet_receive backend endpoint message)
  | receiveError endpoint error =>
    obtain ⟨-, rfl⟩ := step_receiveError hstep
    exact Or.inl (quiet_disconnect endpoint _)

end

/-! ## What is sent -/

/-- A message is a request of a call, with the id of an attempt of the call unless it is a
notification. -/
def Originates (backend : ClientBackend Id Context Session Method Value)
    (s : ClientState Id Context Session Method Value) (c : ℕ) (call : ClientCall Id Method Value)
    (message : MessageType) : Prop :=
  ∃ context session context' id,
    backend.encodeRequest context session call.method call.notification =
      (context', .ok (message, id)) ∧
    (call.notification = false →
      ∃ k : ℕ, s.owners[k]? = some c ∧ s.pending.keys[k]? = some id)

/-- What a step keeps of the past. -/
structure Follows (s s' : ClientState Id Context Session Method Value) : Prop where
  keys : s.pending.keys <+: s'.pending.keys
  owners : s.owners <+: s'.owners
  calls : Extends ClientCall.Later s.calls s'.calls

/-- Every call that sends has encoded what it sends. -/
def Originated (backend : ClientBackend Id Context Session Method Value)
    (s : ClientState Id Context Session Method Value) : Prop :=
  ∀ (c : ℕ) (call : ClientCall Id Method Value) message, s.calls[c]? = some call →
    call.phase = .sending message → s.Originates backend c call message

section

variable {backend : ClientBackend Id Context Session Method Value}
  {action : ClientAction Id Session Method}
  {s s' : ClientState Id Context Session Method Value} {c : ℕ}
  {call call' : ClientCall Id Method Value} {message : MessageType}

theorem getElem?_of_prefix {α : Type} {xs ys : List α} (h : xs <+: ys) {i : ℕ} {x : α}
    (hx : xs[i]? = some x) : ys[i]? = some x := by
  obtain ⟨zs, rfl⟩ := h
  exact getElem?_append_of_some hx zs

theorem Originates.follow (h : s.Originates backend c call message) (hfollows : s.Follows s')
    (hlater : call.Later call') : s'.Originates backend c call' message := by
  obtain ⟨context, session, context', id, hencode, hattempt⟩ := h
  refine ⟨context, session, context', id, ?_, fun hnotification => ?_⟩
  · rw [hlater.method_eq, hlater.notification_eq]
    exact hencode
  · obtain ⟨k, howner, hkey⟩ := hattempt (hlater.notification_eq ▸ hnotification)
    exact ⟨k, getElem?_of_prefix hfollows.owners howner, getElem?_of_prefix hfollows.keys hkey⟩

theorem Quiet.follows (h : Quiet action s s') : s.Follows s' where
  keys := h.keys_eq ▸ List.prefix_rfl
  owners := h.owners_eq ▸ List.prefix_rfl
  calls := h.calls

/-- What an attempt does: the call that makes it may send a request then. -/
structure Attempts (backend : ClientBackend Id Context Session Method Value) (c : ℕ)
    (call : ClientCall Id Method Value) (s s' : ClientState Id Context Session Method Value) :
    Prop where
  follows : s.Follows s'
  received_eq : s'.received = s.received
  context_eq : s'.context =
    (backend.encodeRequest s.context s.session call.method call.notification).1
  keys : s'.pending.keys = s.pending.keys ∨ ∃ message id,
    (backend.encodeRequest s.context s.session call.method call.notification).2 =
      .ok (message, id) ∧ call.notification = false ∧ s'.pending.keys = s.pending.keys ++ [id]
  sending : ∀ (i : ℕ) (x : ClientCall Id Method Value) message, s'.calls[i]? = some x →
    x.phase = .sending message → s.calls[i]? = some x ∨ s'.Originates backend i x message

/-- A request that is not sent. -/
theorem attempts_done (hcall : s.calls[c]? = some call) {context : Context} (error : CallError)
    (hcontext : context =
      (backend.encodeRequest s.context s.session call.method call.notification).1) :
    Attempts backend c call s (({ s with context := context } :
      ClientState Id Context Session Method Value).setCall c
        { call with phase := .done (.failed error) }) := by
  have hlater : call.Later { call with phase := .done (.failed error) } := ⟨rfl, rfl, rfl⟩
  obtain ⟨hcalls, hcases⟩ := setCall_cases (t := { s with context := context }) rfl hcall hlater
  refine ⟨⟨List.prefix_rfl, List.prefix_rfl, hcalls⟩, rfl, hcontext, Or.inl rfl,
    fun i x message hx hsending => ?_⟩
  rcases hcases i x hx with hold | ⟨-, rfl⟩
  · exact Or.inl hold
  · cases hsending

variable [DecidableEq Id]

/-- **An attempt.** The call sends what it encodes, under an id that it issues. -/
theorem beginAttempt_attempts (hinv : s.Inv backend) (hcall : s.calls[c]? = some call) :
    Attempts backend c call s (s.beginAttempt backend c call) := by
  unfold beginAttempt
  rcases hencode : backend.encodeRequest s.context s.session call.method call.notification with
    ⟨context, encoded⟩
  have hcontext : context =
      (backend.encodeRequest s.context s.session call.method call.notification).1 := by
    rw [hencode]
  rcases encoded with error | ⟨message, id⟩
  · exact attempts_done hcall _ hcontext
  simp only
  split_ifs with hnotification hreject
  · -- a notification
    have hlater : call.Later { call with phase := .sending message } := ⟨rfl, rfl, rfl⟩
    obtain ⟨hcalls, hcases⟩ := setCall_cases (t := { s with context := context }) rfl hcall hlater
    refine ⟨⟨List.prefix_rfl, List.prefix_rfl, hcalls⟩, rfl, hcontext, Or.inl rfl,
      fun i x m hx hsending => ?_⟩
    rcases hcases i x hx with hold | ⟨rfl, rfl⟩
    · exact Or.inl hold
    · cases hsending
      refine Or.inr ⟨s.context, s.session, context, id, hencode, fun hfalse => ?_⟩
      exact absurd (hnotification.symm.trans hfalse) Bool.noConfusion
  · exact attempts_done hcall _ hcontext
  · -- the id is issued
    have hlater : call.Later { call with
        attempt := some (s.pending.tickets.length, id)
        phase := .sending message } := ⟨rfl, rfl, rfl⟩
    obtain ⟨hcalls, hcases⟩ := setCall_cases
      (t := { s with
        context := context
        pending := s.pending.issue id
        owners := s.owners ++ [c] }) rfl hcall hlater
    have hkeys := Table.keys_issue id s.pending
    refine ⟨⟨⟨[id], hkeys.symm⟩, ⟨[c], rfl⟩, hcalls⟩, rfl, hcontext,
      Or.inr ⟨message, id, by rw [hencode], Bool.eq_false_iff.mpr hnotification, hkeys⟩,
      fun i x m hx hsending => ?_⟩
    rcases hcases i x hx with hold | ⟨rfl, rfl⟩
    · exact Or.inl hold
    · cases hsending
      have hlength : s.pending.keys.length = s.owners.length := by
        rw [hinv.ledger.length_eq]
        exact List.length_map ..
      refine Or.inr ⟨s.context, s.session, context, id, hencode, fun _ =>
        ⟨s.owners.length, List.getElem?_concat_length, ?_⟩⟩
      show (s.pending.issue id).keys[s.owners.length]? = some id
      rw [hkeys, ← hlength]
      exact List.getElem?_concat_length

/-- **Every step keeps the history**, and what is sent was encoded. -/
theorem originated_step (hinv : s.Inv backend) (h : s.Originated backend)
    (hstep : s.step backend action = some s') : s.Follows s' ∧ s'.Originated backend ∧
      ∀ message ∈ s'.received, message ∈ s.received ∨
        ∃ endpoint, action = .receive endpoint message := by
  rcases step_cases hstep with hquiet | ⟨c, call, -, hcall, rfl⟩
  · refine ⟨hquiet.follows, fun i x' message hx' hsending => ?_, hquiet.received⟩
    obtain ⟨x, hx, hphase⟩ := hquiet.sending i x' message hx' hsending
    obtain ⟨y, hy, hlater⟩ := hquiet.calls i x hx
    obtain rfl := Option.some.inj (hy.symm.trans hx')
    exact (h i x message hx hphase).follow hquiet.follows hlater
  · have hattempts := beginAttempt_attempts hinv hcall
    refine ⟨hattempts.follows, fun i x message hx hsending => ?_, fun message hmem =>
      Or.inl (hattempts.received_eq ▸ hmem)⟩
    rcases hattempts.sending i x message hx hsending with hold | hnew
    · exact (h i x message hold hsending).follow hattempts.follows (Std.Refl.refl x)
    · exact hnew

end

end ClientState

/-! ## Ids -/

/-- A backend that allocates one id after the other up to a limit: `number` counts the ids that a
context has allocated, and `index` the ids. -/
structure ClientBackend.Allocates (backend : ClientBackend Id Context Session Method Value)
    (number : Context → ℕ) (index : Id → ℕ) (limit : ℕ) : Prop where
  number_le : ∀ context session method notification, number context < limit →
    number context ≤ number (backend.encodeRequest context session method notification).1 ∧
      number (backend.encodeRequest context session method notification).1 ≤ number context + 1
  index_eq : ∀ context session method context' message id, number context < limit →
    backend.encodeRequest context session method false = (context', .ok (message, id)) →
      index id = number context + 1 ∧ number context' = number context + 1

/-- The ids of all attempts are different, positive and at most as high as their number. -/
structure ClientState.Numbered (number : Context → ℕ) (index : Id → ℕ) (n : ℕ)
    (s : ClientState Id Context Session Method Value) : Prop where
  number_le : number s.context ≤ n
  index_pos : ∀ id ∈ s.pending.keys, 0 < index id
  index_le : ∀ id ∈ s.pending.keys, index id ≤ number s.context
  nodup : (s.pending.keys.map index).Nodup

section

variable {backend : ClientBackend Id Context Session Method Value} {number : Context → ℕ}
  {index : Id → ℕ} {limit n : ℕ} {s s' : ClientState Id Context Session Method Value}

theorem ClientState.Numbered.mono (h : s.Numbered number index n) {m : ℕ} (hle : n ≤ m) :
    s.Numbered number index m :=
  ⟨h.number_le.trans hle, h.index_pos, h.index_le, h.nodup⟩

/-- Two attempts with one id are one. -/
theorem ClientState.Numbered.unique (h : s.Numbered number index n) {k k' : ℕ} {id : Id}
    (hk : s.pending.keys[k]? = some id) (hk' : s.pending.keys[k']? = some id) : k = k' := by
  have hnodup := List.Nodup.of_map index h.nodup
  obtain ⟨hlt, hk⟩ := List.getElem?_eq_some_iff.mp hk
  obtain ⟨hlt', hk'⟩ := List.getElem?_eq_some_iff.mp hk'
  exact (List.Nodup.getElem_inj_iff hnodup).mp (hk.trans hk'.symm)

/-- **Every step but an attempt keeps the ids, and an attempt takes the next one.** -/
theorem ClientState.numbered_step [DecidableEq Id]
    (hallocates : backend.Allocates number index limit) (hinv : s.Inv backend)
    (h : s.Numbered number index n) {action : ClientAction Id Session Method}
    (hlt : ∀ c, action = .attempt c → n < limit) (hstep : s.step backend action = some s') :
    s'.Numbered number index n ∨
      (∃ c, action = .attempt c) ∧ s'.Numbered number index (n + 1) := by
  rcases step_cases hstep with hquiet | ⟨c, call, rfl, hcall, rfl⟩
  · refine Or.inl ⟨?_, ?_, ?_, ?_⟩
    · rw [hquiet.context_eq]
      exact h.number_le
    · rw [hquiet.keys_eq]
      exact h.index_pos
    · rw [hquiet.context_eq, hquiet.keys_eq]
      exact h.index_le
    · rw [hquiet.keys_eq]
      exact h.nodup
  refine Or.inr ⟨⟨c, rfl⟩, ?_⟩
  have hroom := h.number_le.trans_lt (hlt c rfl)
  have hattempts := beginAttempt_attempts hinv hcall
  obtain ⟨hle, hle'⟩ :=
    hallocates.number_le s.context s.session call.method call.notification hroom
  rw [← hattempts.context_eq] at hle hle'
  have hnumber := hle'.trans (Nat.succ_le_succ h.number_le)
  rcases hattempts.keys with hkeys | ⟨message, id, hencode, hnotification, hkeys⟩
  · refine ⟨hnumber, ?_, ?_, ?_⟩
    · rw [hkeys]
      exact h.index_pos
    · rw [hkeys]
      exact fun id hid => (h.index_le id hid).trans hle
    · rw [hkeys]
      exact h.nodup
  · have hcontext := hattempts.context_eq
    rw [hnotification] at hencode hcontext
    obtain ⟨hindex, hnext⟩ := hallocates.index_eq s.context s.session call.method _ message id
      hroom (Prod.ext hcontext.symm hencode)
    refine ⟨hnumber, ?_, ?_, ?_⟩
    · rw [hkeys]
      intro id' hid'
      rcases List.mem_append.mp hid' with hold | hnew
      · exact h.index_pos id' hold
      · rw [List.mem_singleton.mp hnew, hindex]
        exact Nat.succ_pos _
    · rw [hkeys]
      intro id' hid'
      rcases List.mem_append.mp hid' with hold | hnew
      · exact (h.index_le id' hold).trans hle
      · rw [List.mem_singleton.mp hnew, hindex, hnext]
    · rw [hkeys, List.map_append, List.map_singleton]
      refine List.nodup_append.mpr ⟨h.nodup, List.nodup_singleton _, fun i hi j hj heq => ?_⟩
      obtain ⟨id', hid', rfl⟩ := List.mem_map.mp hi
      have hold := h.index_le id' hid'
      rw [heq, List.mem_singleton.mp hj, hindex] at hold
      omega

end

end

end NekoProto.Rpc
