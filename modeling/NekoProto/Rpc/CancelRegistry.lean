import NekoProto.Rpc.NekoServer

/-!
# The registry of cancel handles

A request that expects a response is registered under its session and its id, which the peer
chooses, for as long as its batch is processed.

1. As long as no request gets a task under a key that is taken (`FreshKey`), the keys of the batches
   being processed are distinct and each running task has its handle under its key
   (`RegistryInv`); every operation keeps this.
2. So every task in flight can be cancelled, and what becomes of other requests does not touch its
   handle (`handles_safe`).
3. A second request under the id of the first replaces its handle (`handles_safe_fails`).
-/

namespace NekoProto.Rpc

variable {Id Session Request Response Value : Type}
  (backend : ServerBackend Id Session Request Response Value)

/-! ## Tasks in flight -/

/-- A task of a batch runs, for a request that expects a response. -/
structure Batch.Running (batch : Batch Id Request Response) (i : ℕ) (key : ActiveKey Id) :
    Prop where
  running : batch.slots[i]? = some .running
  key : ∃ request, batch.decoded.requests[i]? = some request ∧
    activeKey backend batch.session request = some key

/-- A task is in flight under a key. -/
def Dispatcher.InFlight (s : Dispatcher Id Request Response) (b i : ℕ) (key : ActiveKey Id) :
    Prop :=
  ∃ batch, s.batches[b]? = some batch ∧ batch.Running backend i key

/-- Where a request gets a task, no task of its batch runs under its key, and no other batch that is
still processed has registered it. -/
def FreshKey (config : DispatcherConfig Request) (s : Dispatcher Id Request Response) :
    DispatcherAction Id Session Value → Prop
  | .dispatch b => ∀ batch request key, s.batches[b]? = some batch →
    batch.decoded.requests[batch.slots.length]? = some request →
    s.refusal backend config batch request = none →
    activeKey backend batch.session request = some key →
    (∀ i, ¬batch.Running backend i key) ∧
      ∀ (b' : ℕ) (batch' : Batch Id Request Response), b' ≠ b → s.batches[b']? = some batch' →
        batch'.delivery = none → key ∉ batch'.activeKeys
  | _ => True

/-- The arrival or the completion of requests. -/
def DispatcherAction.IsRequest : DispatcherAction Id Session Value → Prop
  | .processMessage .. => True
  | .dispatch _ => True
  | .finish .. => True
  | .complete .. => True
  | _ => False

/-- The handle of a task is the one under a key. -/
def Dispatcher.HasHandle [DecidableEq Id] (s : Dispatcher Id Request Response) (b i : ℕ)
    (key : ActiveKey Id) : Prop :=
  s.cancelHandles.lookup key = some (b, i)

/-- Every cancellation that concerns a key stops a task. -/
structure Dispatcher.Stops [DecidableEq Id] (s : Dispatcher Id Request Response) (b i : ℕ)
    (key : ActiveKey Id) : Prop where
  cancel : (b, i) ∈ (s.cancel key.session key.id).stopped
  cancelId : (b, i) ∈ (s.cancelId key.id).stopped
  cancelSession : (b, i) ∈ (s.cancelSession key.session).stopped
  cancelAll : (b, i) ∈ s.cancelAll.stopped

/-- Every request in flight that was not cancelled has a handle of its own, by which it can be,
and the arrival and the completion of others leave the handles of those in flight alone. -/
structure Dispatcher.HandlesSafe [DecidableEq Id] (config : DispatcherConfig Request)
    (s : Dispatcher Id Request Response) : Prop where
  registered : ∀ b i key, s.InFlight backend b i key → (b, i) ∉ s.stopped →
    s.HasHandle b i key ∧ s.Stops b i key
  kept : ∀ (action : DispatcherAction Id Session Value) t, FreshKey backend config s action →
    action.IsRequest → s.step backend config action = some t → ∀ b i key,
      s.InFlight backend b i key → t.InFlight backend b i key → s.HasHandle b i key →
        t.HasHandle b i key

/-! ## The invariant -/

/-- The keys of the batches that are still processed. -/
structure Dispatcher.KeysInv (s : Dispatcher Id Request Response) : Prop where
  done : ∀ (b : ℕ) (batch : Batch Id Request Response), s.batches[b]? = some batch →
    batch.delivery ≠ none → batch.isDone = true
  own : ∀ (b : ℕ) (batch : Batch Id Request Response), s.batches[b]? = some batch →
    ∀ i key, batch.Running backend i key → key ∈ batch.activeKeys
  disjoint : ∀ (b b' : ℕ) (batch batch' : Batch Id Request Response), b ≠ b' →
    s.batches[b]? = some batch → s.batches[b']? = some batch' → batch.delivery = none →
    batch'.delivery = none → ∀ key ∈ batch.activeKeys, key ∉ batch'.activeKeys

/-- Each task in flight has its handle, unless it was stopped. -/
structure Dispatcher.RegistryInv [DecidableEq Id] (s : Dispatcher Id Request Response) : Prop
    extends s.KeysInv backend where
  registered : ∀ b i key, s.InFlight backend b i key → (b, i) ∉ s.stopped → s.HasHandle b i key

variable {backend}

/-- A batch with a running task is not through. -/
theorem Batch.Running.not_done {batch : Batch Id Request Response} {i : ℕ} {key : ActiveKey Id}
    (h : batch.Running backend i key) : batch.isDone ≠ true := by
  intro hdone
  obtain ⟨-, hall⟩ := of_decide_eq_true hdone
  exact Bool.false_ne_true (List.all_eq_true.mp hall _ (List.mem_of_getElem? h.running))

/-- **One batch changes**: a key that it gets is not one of the other batches. -/
theorem Dispatcher.KeysInv.setBatch {s : Dispatcher Id Request Response} (h : s.KeysInv backend)
    {b : ℕ} {batch batch' : Batch Id Request Response} (hb : s.batches[b]? = some batch)
    (hdone : batch'.delivery ≠ none → batch'.isDone = true)
    (hown : ∀ i key, batch'.Running backend i key → key ∈ batch'.activeKeys)
    (hdelivery : batch'.delivery = none → batch.delivery = none)
    (hkeys : ∀ key ∈ batch'.activeKeys, key ∈ batch.activeKeys ∨
      ∀ (c : ℕ) (other : Batch Id Request Response), c ≠ b → s.batches[c]? = some other →
        other.delivery = none → key ∉ other.activeKeys) :
    (s.setBatch b batch').KeysInv backend := by
  have hother : ∀ c other, c ≠ b → s.batches[c]? = some other → other.delivery = none →
      batch'.delivery = none → ∀ key ∈ batch'.activeKeys, key ∉ other.activeKeys := by
    intro c other hne hc hnone hnone' key hkey
    obtain hold | hfresh := hkeys key hkey
    · exact h.disjoint b c batch other (Ne.symm hne) hb hc (hdelivery hnone') hnone key hold
    · exact hfresh c other hne hc hnone
  refine ⟨fun c x hx => ?_, fun c x hx => ?_, fun c c' x x' hne hx hx' hnone hnone' key hkey => ?_⟩
  · rw [getElem?_setBatch hb] at hx
    split_ifs at hx with hc
    · exact Option.some.inj hx ▸ hdone
    · exact h.done c x hx
  · rw [getElem?_setBatch hb] at hx
    split_ifs at hx with hc
    · exact Option.some.inj hx ▸ hown
    · exact h.own c x hx
  · rw [getElem?_setBatch hb] at hx hx'
    split_ifs at hx with hc
    · obtain rfl := Option.some.inj hx
      rw [if_neg (hc ▸ Ne.symm hne)] at hx'
      exact hother c' x' (hc ▸ Ne.symm hne) hx' hnone' hnone key hkey
    · split_ifs at hx' with hc'
      · obtain rfl := Option.some.inj hx'
        exact fun hkey' => hother c x hc hx hnone hnone' key hkey' hkey
      · exact h.disjoint c c' x x' hne hx hx' hnone hnone' key hkey

theorem Dispatcher.inFlight_setBatch {s : Dispatcher Id Request Response} {b : ℕ}
    {batch : Batch Id Request Response} (hb : s.batches[b]? = some batch)
    (batch' : Batch Id Request Response) (c i : ℕ) (key : ActiveKey Id) :
    (s.setBatch b batch').InFlight backend c i key ↔
      if c = b then batch'.Running backend i key else s.InFlight backend c i key := by
  unfold InFlight
  rw [getElem?_setBatch hb]
  split_ifs with h
  · constructor
    · rintro ⟨x, hx, hrunning⟩
      exact Option.some.inj hx ▸ hrunning
    · exact fun hrunning => ⟨batch', rfl, hrunning⟩
  · exact Iff.rfl

theorem Dispatcher.KeysInv.delivery_none {s : Dispatcher Id Request Response}
    (h : s.KeysInv backend) {b : ℕ} {batch : Batch Id Request Response}
    (hb : s.batches[b]? = some batch) (hdone : batch.isDone ≠ true) : batch.delivery = none := by
  by_contra hdelivery
  exact hdone (h.done b batch hb hdelivery)

/-- A batch with requests that were not taken is not through. -/
theorem Batch.not_done_of_request {batch : Batch Id Request Response} {request : Request}
    (hrequest : batch.decoded.requests[batch.slots.length]? = some request) :
    batch.isDone ≠ true := by
  intro hdone
  obtain ⟨hlen, -⟩ := of_decide_eq_true hdone
  rw [hlen, List.getElem?_length] at hrequest
  cases hrequest

/-- A slot more: an earlier task, or the new one. -/
theorem Batch.Running.of_push {batch : Batch Id Request Response} {slot : Slot Response}
    {key' : Option (ActiveKey Id)} {i : ℕ} {key : ActiveKey Id}
    (h : (batch.push slot key').Running backend i key) :
    batch.Running backend i key ∨
      i = batch.slots.length ∧ slot = .running ∧ ∃ request,
        batch.decoded.requests[i]? = some request ∧
          activeKey backend batch.session request = some key := by
  have hrunning : (batch.slots ++ [slot])[i]? = some .running := h.running
  obtain hlt | heq | hgt := lt_trichotomy i batch.slots.length
  · rw [List.getElem?_append_left hlt] at hrunning
    exact .inl ⟨hrunning, h.key⟩
  · subst heq
    rw [List.getElem?_concat_length] at hrunning
    exact .inr ⟨rfl, Option.some.inj hrunning, h.key⟩
  · rw [List.getElem?_eq_none (by rw [List.length_append, List.length_singleton]; omega)]
      at hrunning
    cases hrunning

theorem Batch.Running.of_fill {batch : Batch Id Request Response} {responses : List Response}
    {i j : ℕ} {key : ActiveKey Id} (h : (batch.fill i responses).Running backend j key) :
    batch.Running backend j key ∧ j ≠ i := by
  have hrunning : (batch.slots.set i (.filled responses))[j]? = some .running := h.running
  rw [List.getElem?_set] at hrunning
  split_ifs at hrunning with hij hlt
  · cases hrunning
  · exact ⟨⟨hrunning, h.key⟩, Ne.symm hij⟩

namespace Dispatcher

/-- A message comes in: a batch without slots and keys. -/
theorem processMessage_batches (backend : ServerBackend Id Session Request Response Value)
    (s : Dispatcher Id Request Response) (connection : ℕ) (session : Session)
    (message : MessageType) (rejectOnly endpoint : Bool) :
    ∃ batch : Batch Id Request Response,
      s.processMessage backend connection session message rejectOnly endpoint =
        { s with batches := s.batches ++ [batch] } ∧
      batch.slots = [] ∧ batch.activeKeys = [] ∧
      (batch.delivery ≠ none → batch.isDone = true) := by
  unfold processMessage
  cases backend.decodeIncoming session message with
  | none => exact ⟨_, rfl, rfl, rfl, fun _ => rfl⟩
  | some decoded => exact ⟨_, rfl, rfl, rfl, fun h => absurd rfl h⟩

variable [DecidableEq Id]

/-! ## The operations -/

/-- Where a task that is not stopped keeps its handle, it stays registered. -/
theorem RegistryInv.of_keys {s t : Dispatcher Id Request Response} (h : s.RegistryInv backend)
    (hkeys : t.KeysInv backend)
    (hflight : ∀ b i key, t.InFlight backend b i key → s.InFlight backend b i key)
    (hstopped : ∀ task ∈ s.stopped, task ∈ t.stopped)
    (hhandles : ∀ b i key, s.InFlight backend b i key → (b, i) ∉ t.stopped →
      s.HasHandle b i key → t.HasHandle b i key) : t.RegistryInv backend := by
  refine ⟨hkeys, fun b i key hin hnot => ?_⟩
  have hin' := hflight b i key hin
  exact hhandles b i key hin' hnot
    (h.registered b i key hin' fun hmem => hnot (hstopped (b, i) hmem))

theorem RegistryInv.processMessage {s : Dispatcher Id Request Response} (h : s.RegistryInv backend)
    (connection : ℕ) (session : Session) (message : MessageType) (rejectOnly endpoint : Bool) :
    (s.processMessage backend connection session message rejectOnly endpoint).RegistryInv
      backend := by
  obtain ⟨new, heq, hslots, hkeys, hdone⟩ :=
    processMessage_batches backend s connection session message rejectOnly endpoint
  have hbatch : ∀ (b : ℕ) (batch : Batch Id Request Response),
      (s.batches ++ [new])[b]? = some batch → s.batches[b]? = some batch ∨ batch = new := by
    intro b batch hb
    obtain hlt | rfl | hgt := lt_trichotomy b s.batches.length
    · exact .inl ((List.getElem?_append_left hlt).symm.trans hb)
    · rw [List.getElem?_concat_length] at hb
      exact .inr (Option.some.inj hb).symm
    · rw [List.getElem?_eq_none (by rw [List.length_append, List.length_singleton]; omega)] at hb
      cases hb
  have hrunning : ∀ i key, ¬new.Running backend i key := by
    intro i key hrunning
    have hslot := hrunning.running
    rw [hslots] at hslot
    cases hslot
  rw [heq]
  refine h.of_keys ⟨fun b batch hb => ?_, fun b batch hb i key hin => ?_,
    fun b b' batch batch' hne hb hb' hnone hnone' key hkey => ?_⟩ (fun b i key hin => ?_)
    (fun _ hmem => hmem) (fun _ _ _ _ _ hhandle => hhandle)
  · obtain hb | rfl := hbatch b batch hb
    · exact h.done b batch hb
    · exact hdone
  · obtain hb | rfl := hbatch b batch hb
    · exact h.own b batch hb i key hin
    · exact absurd hin (hrunning i key)
  · obtain hb | rfl := hbatch b batch hb
    · obtain hb' | rfl := hbatch b' batch' hb'
      · exact h.disjoint b b' batch batch' hne hb hb' hnone hnone' key hkey
      · rw [hkeys]
        exact List.not_mem_nil
    · rw [hkeys] at hkey
      cases hkey
  · obtain ⟨batch, hb, hin⟩ := hin
    obtain hb | rfl := hbatch b batch hb
    · exact ⟨batch, hb, hin⟩
    · exact absurd hin (hrunning i key)

/-- One batch changes, its running tasks being ones that it had, and its keys the ones that it
had. -/
theorem RegistryInv.setBatch {s : Dispatcher Id Request Response} (h : s.RegistryInv backend)
    {b : ℕ} {batch batch' : Batch Id Request Response} (hb : s.batches[b]? = some batch)
    (hnone : batch.delivery = none) (hdone : batch'.delivery ≠ none → batch'.isDone = true)
    (hkeys : batch'.activeKeys = batch.activeKeys)
    (hrunning : ∀ i key, batch'.Running backend i key → batch.Running backend i key) :
    (s.setBatch b batch').RegistryInv backend := by
  refine h.of_keys (h.toKeysInv.setBatch hb hdone (fun i key hin => ?_) (fun _ => hnone)
    (fun key hkey => .inl (hkeys ▸ hkey))) (fun c i key hin => ?_) (fun _ hmem => hmem)
    (fun _ _ _ _ _ hhandle => hhandle)
  · rw [hkeys]
    exact h.own b batch hb i key (hrunning i key hin)
  · rw [inFlight_setBatch hb] at hin
    split_ifs at hin with hc
    · exact hc ▸ ⟨batch, hb, hrunning i key hin⟩
    · exact hin

/-- A request gets an answer at once. -/
theorem RegistryInv.refuse {s : Dispatcher Id Request Response} (h : s.RegistryInv backend)
    {b : ℕ} {batch : Batch Id Request Response} {request : Request}
    (hb : s.batches[b]? = some batch)
    (hrequest : batch.decoded.requests[batch.slots.length]? = some request)
    (responses : List Response) :
    (s.setBatch b (batch.push (.filled responses) none)).RegistryInv backend := by
  have hnone := h.delivery_none hb (Batch.not_done_of_request hrequest)
  refine h.setBatch hb hnone (fun hsome => absurd hnone hsome) (List.append_nil _)
    fun i key hin => ?_
  obtain hin | ⟨-, hslot, -⟩ := hin.of_push
  · exact hin
  · cases hslot

theorem spawn_lookup (s : Dispatcher Id Request Response) (b : ℕ)
    (batch : Batch Id Request Response) (request : Request) (key : ActiveKey Id) :
    (s.spawn backend b batch request).cancelHandles.lookup key =
      if activeKey backend batch.session request = some key then some (b, batch.slots.length)
      else s.cancelHandles.lookup key := by
  unfold spawn
  cases activeKey backend batch.session request with
  | none => rfl
  | some key' =>
    show (KeyedTable.assign key' (b, batch.slots.length) s.cancelHandles).lookup key = _
    rw [KeyedTable.lookup_assign]
    by_cases h : key = key'
    · rw [if_pos h, if_pos (h ▸ rfl)]
    · rw [if_neg h, if_neg fun heq => h (Option.some.inj heq).symm]

/-- **A task in flight keeps its handle** when another is spawned under a fresh key. -/
theorem KeysInv.spawn_kept {s : Dispatcher Id Request Response} (h : s.KeysInv backend)
    {b : ℕ} {batch : Batch Id Request Response} {request : Request}
    (hb : s.batches[b]? = some batch)
    (hfresh : ∀ key, activeKey backend batch.session request = some key →
      (∀ i, ¬batch.Running backend i key) ∧
        ∀ (c : ℕ) (other : Batch Id Request Response), c ≠ b → s.batches[c]? = some other →
          other.delivery = none → key ∉ other.activeKeys)
    {c i : ℕ} {key : ActiveKey Id} (hin : s.InFlight backend c i key)
    (hhandle : s.HasHandle c i key) :
    (s.spawn backend b batch request).HasHandle c i key := by
  obtain ⟨other, hc, hrunning⟩ := hin
  have hne : activeKey backend batch.session request ≠ some key := by
    intro hkey
    obtain ⟨hown, hothers⟩ := hfresh key hkey
    by_cases heq : c = b
    · subst heq
      obtain rfl := Option.some.inj (hb.symm.trans hc)
      exact hown i hrunning
    · exact hothers c other heq hc (h.delivery_none hc hrunning.not_done)
        (h.own c other hc i key hrunning)
  rw [HasHandle, spawn_lookup, if_neg hne]
  exact hhandle

/-- **A request gets a task**, under a key that is fresh. -/
theorem RegistryInv.spawn {s : Dispatcher Id Request Response} (h : s.RegistryInv backend)
    {b : ℕ} {batch : Batch Id Request Response} {request : Request}
    (hb : s.batches[b]? = some batch)
    (hrequest : batch.decoded.requests[batch.slots.length]? = some request)
    (hfresh : ∀ key, activeKey backend batch.session request = some key →
      (∀ i, ¬batch.Running backend i key) ∧
        ∀ (c : ℕ) (other : Batch Id Request Response), c ≠ b → s.batches[c]? = some other →
          other.delivery = none → key ∉ other.activeKeys) :
    (s.spawn backend b batch request).RegistryInv backend := by
  have hnone := h.delivery_none hb (Batch.not_done_of_request hrequest)
  have hrunning : ∀ i key,
      (batch.push .running (activeKey backend batch.session request)).Running backend i key →
        batch.Running backend i key ∨
          i = batch.slots.length ∧ activeKey backend batch.session request = some key := by
    intro i key hin
    obtain hin | ⟨rfl, -, request', hrequest', hkey⟩ := hin.of_push
    · exact .inl hin
    · obtain rfl := Option.some.inj (hrequest.symm.trans hrequest')
      exact .inr ⟨rfl, hkey⟩
  have hset : (s.setBatch b
      (batch.push .running (activeKey backend batch.session request))).KeysInv backend := by
    refine h.toKeysInv.setBatch hb (fun hsome => absurd hnone hsome) (fun i key hin => ?_)
      (fun _ => hnone) (fun key hkey => ?_)
    · obtain hin | ⟨-, hkey⟩ := hrunning i key hin
      · exact List.mem_append_left _ (h.own b batch hb i key hin)
      · exact List.mem_append_right _ (Option.mem_toList.mpr hkey)
    · obtain hkey | hkey := List.mem_append.mp hkey
      · exact .inl hkey
      · exact .inr (hfresh key (Option.mem_toList.mp hkey)).2
  refine ⟨⟨hset.done, hset.own, hset.disjoint⟩, fun c i key hin hnot => ?_⟩
  -- an earlier task, of this batch or of another, or the new one
  have hold : s.InFlight backend c i key ∨
      c = b ∧ i = batch.slots.length ∧ activeKey backend batch.session request = some key := by
    have hflight := (inFlight_setBatch hb _ c i key).mp hin
    split_ifs at hflight with hc
    · obtain hflight | hnew := hrunning i key hflight
      · exact .inl ⟨batch, hc ▸ hb, hflight⟩
      · exact .inr ⟨hc, hnew⟩
    · exact .inl hflight
  obtain hin | ⟨rfl, rfl, hkey⟩ := hold
  · exact h.spawn_kept hb hfresh hin (h.registered c i key hin hnot)
  · rw [HasHandle, spawn_lookup, if_pos hkey]

/-- A task ends. -/
theorem RegistryInv.finish {s : Dispatcher Id Request Response} (h : s.RegistryInv backend)
    {config : DispatcherConfig Request} {b i : ℕ} {batch : Batch Id Request Response}
    {request : Request} (htask : s.task b i = some (batch, request)) (taskEnd : TaskEnd Value) :
    (s.finish backend config b i batch request taskEnd).RegistryInv backend := by
  obtain ⟨hb, hslot, -⟩ := task_eq_some.mp htask
  have hnone : batch.delivery = none := by
    refine h.delivery_none hb fun hdone => ?_
    obtain ⟨-, hall⟩ := of_decide_eq_true hdone
    exact Bool.false_ne_true (List.all_eq_true.mp hall _ (List.mem_of_getElem? hslot))
  have hset : (s.setBatch b (batch.fill i
      (executeRequest backend config request taskEnd))).RegistryInv backend :=
    h.setBatch hb hnone (fun hsome => absurd hnone hsome) rfl fun j key hin => hin.of_fill.1
  exact ⟨⟨hset.done, hset.own, hset.disjoint⟩, hset.registered⟩

/-- **What a batch takes out at its end** is not what the tasks of others are registered under. -/
theorem KeysInv.complete_kept {s : Dispatcher Id Request Response} (h : s.KeysInv backend)
    {config : DispatcherConfig Request} {b : ℕ} {batch : Batch Id Request Response}
    (hb : s.batches[b]? = some batch) (hdone : batch.isDone = true)
    (hnone : batch.delivery = none) (session : Session) (sent : Bool) {c i : ℕ}
    {key : ActiveKey Id} (hin : s.InFlight backend c i key) (hhandle : s.HasHandle c i key) :
    (s.complete backend config b batch session sent).HasHandle c i key := by
  obtain ⟨other, hc, hrunning⟩ := hin
  have hne : b ≠ c := by
    rintro rfl
    obtain rfl := Option.some.inj (hb.symm.trans hc)
    exact hrunning.not_done hdone
  have hkey : key ∉ batch.activeKeys := fun hkey =>
    h.disjoint b c batch other hne hb hc hnone (h.delivery_none hc hrunning.not_done) key hkey
      (h.own c other hc i key hrunning)
  exact (KeyedTable.lookup_eraseAll batch.activeKeys s.cancelHandles hkey).trans hhandle

theorem RegistryInv.complete {s : Dispatcher Id Request Response} (h : s.RegistryInv backend)
    {config : DispatcherConfig Request} {b : ℕ} {batch : Batch Id Request Response}
    (hb : s.batches[b]? = some batch) (hdone : batch.isDone = true)
    (hnone : batch.delivery = none) (session : Session) (sent : Bool) :
    (s.complete backend config b batch session sent).RegistryInv backend := by
  have hset : ∀ delivery, (s.setBatch b { batch with delivery := delivery }).RegistryInv backend :=
    fun _ => h.setBatch hb hnone (fun _ => hdone) rfl fun i key hin => ⟨hin.running, hin.key⟩
  refine h.of_keys ⟨(hset _).done, (hset _).own, (hset _).disjoint⟩ (fun c i key hin => ?_)
    (fun _ hmem => hmem) (fun c i key hin _ => h.complete_kept hb hdone hnone session sent hin)
  have hflight := (inFlight_setBatch hb _ c i key).mp hin
  split_ifs at hflight with hc
  · exact ⟨batch, hc ▸ hb, hflight.running, hflight.key⟩
  · exact hflight

theorem mem_stopped_of_filter {s : Dispatcher Id Request Response} {b i : ℕ} {key : ActiveKey Id}
    (hhandle : s.HasHandle b i key) {p : ActiveKey Id × ℕ × ℕ → Bool}
    (hp : p (key, b, i) = true) :
    (b, i) ∈ s.stopped ++ (s.cancelHandles.filter p).map Prod.snd :=
  List.mem_append_right _ (List.mem_map.mpr
    ⟨(key, b, i), List.mem_filter.mpr ⟨KeyedTable.mem_of_lookup hhandle, hp⟩, rfl⟩)

/-- **The cancellations reach a task** by its handle. -/
theorem HasHandle.stops {s : Dispatcher Id Request Response} {b i : ℕ} {key : ActiveKey Id}
    (h : s.HasHandle b i key) : s.Stops b i key where
  cancel := List.mem_append_right _ (by
    rw [show s.cancelHandles.lookup ⟨key.session, key.id⟩ = some (b, i) from h]
    exact List.mem_singleton.mpr rfl)
  cancelId := mem_stopped_of_filter h (decide_eq_true rfl)
  cancelSession := mem_stopped_of_filter h (decide_eq_true rfl)
  cancelAll := List.mem_append_right _ (List.mem_map.mpr
    ⟨(key, b, i), KeyedTable.mem_of_lookup h, rfl⟩)

/-- A cancellation stops tasks and takes away no handle but theirs. -/
theorem RegistryInv.of_cancel {s t : Dispatcher Id Request Response} (h : s.RegistryInv backend)
    (hbatches : t.batches = s.batches) (hstopped : ∀ task ∈ s.stopped, task ∈ t.stopped)
    (hhandles : ∀ b i key, (b, i) ∉ t.stopped → s.HasHandle b i key → t.HasHandle b i key) :
    t.RegistryInv backend := by
  obtain ⟨batches, handles, outstanding, stopped⟩ := t
  obtain rfl : batches = s.batches := hbatches
  exact h.of_keys ⟨h.done, h.own, h.disjoint⟩ (fun _ _ _ hin => hin) hstopped
    fun b i key _ => hhandles b i key

theorem RegistryInv.cancelSession {s : Dispatcher Id Request Response} (h : s.RegistryInv backend)
    (connection : ℕ) : (s.cancelSession connection).RegistryInv backend := by
  refine h.of_cancel rfl (fun _ => List.mem_append_left _) fun b i key hnot hhandle => ?_
  by_cases hkey : key.session = connection
  · exact absurd (mem_stopped_of_filter hhandle (decide_eq_true hkey)) hnot
  · rw [HasHandle, Dispatcher.cancelSession, KeyedTable.lookup_keep,
      if_pos (decide_eq_true hkey)]
    exact hhandle

theorem RegistryInv.cancelAll {s : Dispatcher Id Request Response} (h : s.RegistryInv backend) :
    s.cancelAll.RegistryInv backend :=
  h.of_cancel rfl (fun _ => List.mem_append_left _) fun _ _ _ hnot hhandle =>
    absurd hhandle.stops.cancelAll hnot

/-! ## The runs -/

/-- **Every step keeps what is registered**, if the requests that get tasks are fresh. -/
theorem RegistryInv.step {config : DispatcherConfig Request}
    {s t : Dispatcher Id Request Response} {action : DispatcherAction Id Session Value}
    (h : s.RegistryInv backend) (hfresh : FreshKey backend config s action)
    (hstep : s.step backend config action = some t) : t.RegistryInv backend := by
  cases action with
  | processMessage connection session message rejectOnly endpoint =>
    obtain rfl := Option.some.inj hstep
    exact h.processMessage connection session message rejectOnly endpoint
  | dispatch b =>
    obtain ⟨batch, request, hb, hrequest, rfl⟩ := step_dispatch hstep
    unfold dispatch
    cases hrefusal : s.refusal backend config batch request with
    | some error => exact h.refuse hb hrequest _
    | none => exact h.spawn hb hrequest fun key => hfresh batch request key hb hrequest hrefusal
  | finish b i taskEnd =>
    obtain ⟨batch, request, htask, rfl⟩ := step_finish hstep
    exact h.finish htask taskEnd
  | complete b session sent =>
    obtain ⟨batch, hb, hdone, hnone, rfl⟩ := step_complete hstep
    exact h.complete hb hdone hnone session sent
  | cancel connection id =>
    obtain rfl := Option.some.inj hstep
    exact h.of_cancel rfl (fun _ => List.mem_append_left _) fun _ _ _ _ hhandle => hhandle
  | cancelId id =>
    obtain rfl := Option.some.inj hstep
    exact h.of_cancel rfl (fun _ => List.mem_append_left _) fun _ _ _ _ hhandle => hhandle
  | cancelSession connection =>
    obtain rfl := Option.some.inj hstep
    exact h.cancelSession connection
  | cancelAll =>
    obtain rfl := Option.some.inj hstep
    exact h.cancelAll

/-- **Arrivals and completions leave the handles of tasks in flight alone.** -/
theorem KeysInv.step_kept {config : DispatcherConfig Request}
    {s t : Dispatcher Id Request Response} {action : DispatcherAction Id Session Value}
    (h : s.KeysInv backend) (hfresh : FreshKey backend config s action)
    (hrequest : action.IsRequest) (hstep : s.step backend config action = some t) {b i : ℕ}
    {key : ActiveKey Id} (hin : s.InFlight backend b i key) (hhandle : s.HasHandle b i key) :
    t.HasHandle b i key := by
  cases action with
  | processMessage connection session message rejectOnly endpoint =>
    obtain rfl := Option.some.inj hstep
    exact hhandle
  | dispatch b =>
    obtain ⟨batch, request, hb, hrequest, rfl⟩ := step_dispatch hstep
    unfold dispatch
    cases hrefusal : s.refusal backend config batch request with
    | some error => exact hhandle
    | none =>
      exact h.spawn_kept hb (fun key => hfresh batch request key hb hrequest hrefusal) hin hhandle
  | finish b i taskEnd =>
    obtain ⟨batch, request, htask, rfl⟩ := step_finish hstep
    exact hhandle
  | complete b session sent =>
    obtain ⟨batch, hb, hdone, hnone, rfl⟩ := step_complete hstep
    exact h.complete_kept hb hdone hnone session sent hin hhandle
  | cancel connection id => cases hrequest
  | cancelId id => cases hrequest
  | cancelSession connection => cases hrequest
  | cancelAll => cases hrequest

/-- What is registered in a run in which the requests are fresh. -/
theorem registryInv_of_reaches {config : DispatcherConfig Request}
    {s : Dispatcher Id Request Response}
    (hrun : Reaches backend config (FreshKey backend config) s) : s.RegistryInv backend := by
  induction hrun with
  | start =>
    have hempty : ∀ (b : ℕ) (batch : Batch Id Request Response),
        ({} : Dispatcher Id Request Response).batches[b]? ≠ some batch := by
      intro b batch hb
      cases hb
    refine ⟨⟨fun b batch hb => absurd hb (hempty b batch), fun b batch hb =>
      absurd hb (hempty b batch), fun b _ batch _ _ hb => absurd hb (hempty b batch)⟩,
      fun b i key hin => ?_⟩
    obtain ⟨batch, hb, -⟩ := hin
    exact absurd hb (hempty b batch)
  | step _ hfresh hstep ih => exact ih.step hfresh hstep

end Dispatcher

/-- **The handles of requests in flight are safe** in every run in which no request gets a task
under a key that is taken. -/
theorem handles_safe {config : DispatcherConfig Request} [DecidableEq Id]
    {s : Dispatcher Id Request Response}
    (hrun : Reaches backend config (FreshKey backend config) s) :
    s.HandlesSafe backend config where
  registered b i key hin hnot :=
    have hhandle := (Dispatcher.registryInv_of_reaches hrun).registered b i key hin hnot
    ⟨hhandle, hhandle.stops⟩
  kept _ _ hfresh hrequest hstep _ _ _ hin _ hhandle :=
    (Dispatcher.registryInv_of_reaches hrun).step_kept hfresh hrequest hstep hin hhandle

/-- The first request of a peer is in flight. -/
theorem handles_safe_plain :
    ∃ s : Dispatcher UInt64 DecodedRequest FrameParts,
      ({} : Dispatcher UInt64 DecodedRequest FrameParts).run plainServer plainConfig
        [.processMessage 0 plainPeer (encodeFrame (plainRequest 0)) false true, .dispatch 0] =
          some s ∧
      s.cancelHandles.length = 1 ∧ s.HandlesSafe plainServer plainConfig := by
  obtain ⟨batch, heq, hslots, -, -⟩ := Dispatcher.processMessage_batches plainServer {} 0 plainPeer
    (encodeFrame (plainRequest 0)) false true
  have hfresh : FreshKey plainServer plainConfig
      (Dispatcher.processMessage plainServer {} 0 plainPeer (encodeFrame (plainRequest 0)) false
        true) (.dispatch 0 : DispatcherAction UInt64 NekoServerSession (Option MessageType)) := by
    intro batch' request key hb hrequest hrefusal hkey
    rw [heq] at hb ⊢
    obtain rfl := Option.some.inj (show some batch = some batch' from hb)
    refine ⟨fun i hin => ?_, fun b' other hne hb' => ?_⟩
    · have hslot := hin.running
      rw [hslots] at hslot
      cases hslot
    · obtain rfl | hpos := Nat.eq_zero_or_pos b'
      · exact absurd rfl hne
      · rw [show ([] ++ [batch])[b']? = none from List.getElem?_eq_none hpos] at hb'
        cases hb'
  have hlength : (({} : Dispatcher UInt64 DecodedRequest FrameParts).run plainServer plainConfig
      [.processMessage 0 plainPeer (encodeFrame (plainRequest 0)) false true, .dispatch 0]).map
        (fun s => s.cancelHandles.length) = some 1 := by
    decide +kernel
  obtain ⟨s, hs, hone⟩ := Option.map_eq_some_iff.mp hlength
  obtain ⟨s', hfirst, hrest⟩ := Option.bind_eq_some_iff.mp hs
  obtain ⟨s'', hsecond, hlast⟩ := Option.bind_eq_some_iff.mp hrest
  obtain rfl := Option.some.inj hlast
  have hprocess : FreshKey plainServer plainConfig {} (.processMessage 0 plainPeer
      (encodeFrame (plainRequest 0)) false true :
        DispatcherAction UInt64 NekoServerSession (Option MessageType)) := trivial
  have hreached : Reaches plainServer plainConfig (FreshKey plainServer plainConfig) s' :=
    .step .start hprocess hfirst
  obtain rfl := Option.some.inj hfirst
  exact ⟨s'', hs, hone, handles_safe (hreached.step hfresh hsecond)⟩

/-- A peer sends a second request with the id of one that is in flight: the first one has no
handle any more. -/
theorem handles_safe_fails :
    ¬∀ s : Dispatcher UInt64 DecodedRequest FrameParts,
      Reaches plainServer plainConfig (fun _ _ => True) s →
        s.HandlesSafe plainServer plainConfig := by
  intro h
  have hends : (({} : Dispatcher UInt64 DecodedRequest FrameParts).run plainServer plainConfig
      [.processMessage 0 plainPeer (encodeFrame (plainRequest 0)) false true, .dispatch 0,
        .processMessage 0 plainPeer (encodeFrame (plainRequest 0)) false true,
        .dispatch 1]).bind (fun s => (s.task 0 0).map fun task =>
          (activeKey plainServer task.1.session task.2, s.cancelHandles.lookup ⟨0, 7⟩,
            s.stopped)) = some (some ⟨0, 7⟩, some (1, 0), []) := by
    decide +kernel
  obtain ⟨s, hrun, htask⟩ := Option.bind_eq_some_iff.mp hends
  obtain ⟨⟨batch, request⟩, hin, heq⟩ := Option.map_eq_some_iff.mp htask
  obtain ⟨hkey, hrest⟩ := Prod.mk.inj heq
  obtain ⟨hlookup, hstopped⟩ := Prod.mk.inj hrest
  obtain ⟨hb, hslot, hrequest⟩ := Dispatcher.task_eq_some.mp hin
  have hhandle := ((h s (reaches_run .start hrun)).registered 0 0 ⟨0, 7⟩
    ⟨batch, hb, hslot, request, hrequest, hkey⟩ (hstopped ▸ List.not_mem_nil)).1
  cases hlookup.symm.trans hhandle

end NekoProto.Rpc
