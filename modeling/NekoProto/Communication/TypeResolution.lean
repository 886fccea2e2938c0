import NekoProto.Communication.SliceSafety

/-!
# What a type resolves to

How `_createProto` resolves the types of later messages, against the messages of unknown type that
were received before. `_finishMessage` looks the name of such a type up with `operator[]`, which
puts an entry into the table. The entry has no name and resolves to nothing; but a table with an
entry is not empty, and only under an empty table the types that are not reserved are those of the
factory.

1. The table changes in a turn by a `VersionVerification` or by a message of unknown type
   (`recvTurn_protocolTable`).
2. So it is the table that was set or synced last, with entries of no name (`Marked`), along every
   run (`run_marked`).
3. When this resolves every type as the explicit table does is `resolution_iff`.
-/

namespace NekoProto.Communication

open Binary

/-! ## Clients and their last explicit table -/

/-- A client with its stream, the table that was set or synced last, and whether a message of
unknown type was handed on since. -/
structure Tracked (Msg : Type) where
  client : Client Msg
  rest : Incoming
  explicit : ProtocolTable
  unknown : Bool

/-- A call of `recv` that returns a message. -/
def Result.isMessage {Msg : Type} : Result Msg → Bool
  | .message _ => true
  | _ => false

section

variable {Msg : Type} (program : Program Msg)

/-- The turn takes over the table of the peer. -/
def Tracked.syncs (t : Tracked Msg) (flag : StreamFlag) : Bool :=
  match nextMessage t.rest with
  | none => false
  | some (header, _) =>
    MessageType.ofCode header.messageType = some .versionVerification &&
      (recvTurn program flag t.client t.rest).result.isNone

/-- The turn hands on a message, though there is no class for its type. -/
def Tracked.handsOnUnknown (t : Tracked Msg) (flag : StreamFlag) : Bool :=
  match nextMessage t.rest with
  | none => false
  | some (header, _) =>
    match MessageType.ofCode header.messageType with
    | some .complete =>
      (createProto t.client header.data).isNone &&
        (recvTurn program flag t.client t.rest).result.any Result.isMessage
    | some .slice =>
      t.client.message.isNone &&
        (recvTurn program flag t.client t.rest).result.any Result.isMessage
    | _ => false

/-- A turn of `recv`. -/
def Tracked.turn (t : Tracked Msg) (flag : StreamFlag) : Tracked Msg where
  client := (recvTurn program flag t.client t.rest).client
  rest := (recvTurn program flag t.client t.rest).rest
  explicit :=
    if t.syncs program flag then (recvTurn program flag t.client t.rest).client.protocolTable
    else t.explicit
  unknown := !t.syncs program flag && (t.unknown || t.handsOnUnknown program flag)

/-- The states that a client gets into, calling `recv` and changing its stream or its table. -/
inductive Tracks : Tracked Msg → Prop
  | start (factory : Option (ProtoFactory Msg)) (s : Incoming) :
    Tracks ⟨{ factory := factory }, s, {}, false⟩
  | turn {t : Tracked Msg} (flag : StreamFlag) : Tracks t → Tracks (t.turn program flag)
  | setStreamClient {t : Tracked Msg} (s : Incoming) (reconnect : Bool) : Tracks t →
    Tracks { t with client := t.client.setStreamClient reconnect, rest := s }
  | setProtoTable {t : Tracked Msg} (table : ProtocolTable) : Tracks t →
    Tracks { t with client := t.client.setProtoTable table, explicit := table, unknown := false }

end

/-- Every type resolves as under the table that was set or synced last. -/
def Tracked.Resolves {Msg : Type} (t : Tracked Msg) : Prop :=
  ∀ type, createProto t.client type =
    createProto { t.client with protocolTable := t.explicit } type

/-- The factory makes no message of a type that is not reserved. -/
def Client.OnlyReserved {Msg : Type} (c : Client Msg) : Prop :=
  ∀ type : BitVec 32, reservedProtoTypeSize < type.toNat →
    (c.factory.bind fun factory => factory.create type) = none

/-! ## The table in a turn -/

section

variable {Msg : Type} {program : Program Msg}

theorem unknownMessage_protocolTable (c : Client Msg) :
    (unknownMessage c).2.protocolTable =
      if (unknownMessage c).1.isMessage then (c.protocolTable.nameOf c.header.data).2
      else c.protocolTable := by
  unfold unknownMessage
  split <;> rfl

theorem finishMessage_protocolTable (flag : StreamFlag) (c : Client Msg) :
    (finishMessage program flag c).2.protocolTable =
      if c.message.isNone && (finishMessage program flag c).1.isMessage then
        (c.protocolTable.nameOf c.header.data).2
      else c.protocolTable := by
  unfold finishMessage
  cases c.message with
  | none =>
    simp only [Option.isNone_none, Bool.true_and]
    by_cases hflag : flag.recvUnknownTypeData = true
    · rw [if_pos hflag]
      exact unknownMessage_protocolTable c
    · rw [if_neg hflag]
      rfl
  | some message =>
    simp only [Option.isNone_some, Bool.false_and, Bool.false_eq_true, if_false]
    cases program.fromData message c.buffer <;> rfl

/-- What a step does to the table of the client, if it hands on a message of unknown type and if
it does not. -/
def LeavesTable (c : Client Msg) (turn : Turn Msg) (unknown : Bool) (type : BitVec 32) : Prop :=
  turn.client.protocolTable =
    if unknown && turn.result.any Result.isMessage then (c.protocolTable.nameOf type).2
    else c.protocolTable

theorem complete_leavesTable (flag : StreamFlag) (c : Client Msg) (s : Incoming) :
    LeavesTable c (complete program flag c s) c.message.isNone c.header.data :=
  finishMessage_protocolTable flag c

/-- A step without a message. -/
theorem leavesTable_of_not_message {c : Client Msg} {turn : Turn Msg} {unknown : Bool}
    {type : BitVec 32} (hresult : turn.result.any Result.isMessage = false)
    (htable : turn.client.protocolTable = c.protocolTable) : LeavesTable c turn unknown type := by
  unfold LeavesTable
  rw [hresult, Bool.and_false]
  exact htable

theorem syncProtocolTable_error {c : Client Msg} {e : Error}
    (h : (syncProtocolTable c).1 = .error e) : (syncProtocolTable c).2 = c := by
  unfold syncProtocolTable at h ⊢
  split_ifs at h ⊢
  · rfl
  · split at h
    · rfl
    · cases h

theorem recvVersion_protocolTable {c : Client Msg} {s : Incoming}
    (h : (recvVersion c s).result.isNone = false) :
    (recvVersion c s).client.protocolTable = c.protocolTable := by
  unfold recvVersion at h ⊢
  simp only at h ⊢
  cases hread : (recvRaw c.header.length.toNat s).result with
  | error e => rfl
  | ok _ =>
    cases hsync : syncProtocolTable (recvBuffer c s) with
    | mk synced client =>
      simp only [hread, hsync] at h ⊢
      cases synced with
      | error e =>
        have hclient := syncProtocolTable_error (congrArg Prod.fst hsync)
        rw [hsync] at hclient
        subst hclient
        rfl
      | ok _ => cases h

theorem recvComplete_leavesTable (flag : StreamFlag) (c : Client Msg) (s : Incoming) :
    LeavesTable c (recvComplete program flag c s) (createProto c c.header.data).isNone
      c.header.data := by
  unfold recvComplete
  simp only
  split
  · exact leavesTable_of_not_message rfl rfl
  · exact complete_leavesTable flag (recvBuffer { c with
      message := createProto c c.header.data } s) _

theorem recvSlice_leavesTable (flag : StreamFlag) (c : Client Msg) (s : Incoming) :
    LeavesTable c (recvSlice program flag c s) c.message.isNone c.header.data := by
  unfold recvSlice
  simp only
  split_ifs
  · exact leavesTable_of_not_message rfl rfl
  · split
    · exact leavesTable_of_not_message rfl rfl
    · rename_i buffer _
      split
      · exact leavesTable_of_not_message rfl rfl
      · split_ifs
        · exact complete_leavesTable flag { c with buffer := buffer, sliceSizeCount := 0 } _
        · exact leavesTable_of_not_message rfl rfl

/-- **The table that a turn leaves**, if it does not take over that of the peer. -/
theorem recvTurn_protocolTable {t : Tracked Msg} {flag : StreamFlag}
    (hsyncs : t.syncs program flag = false) : ∃ type,
      (recvTurn program flag t.client t.rest).client.protocolTable =
        if t.handsOnUnknown program flag then (t.client.protocolTable.nameOf type).2
        else t.client.protocolTable := by
  unfold Tracked.syncs at hsyncs
  unfold Tracked.handsOnUnknown
  cases hmessage : nextMessage t.rest with
  | none =>
    rw [(recvTurn_of_none program flag t.client hmessage).2]
    exact ⟨0, rfl⟩
  | some message =>
    obtain ⟨header, s⟩ := message
    simp only [hmessage, recvTurn_of_message program flag t.client hmessage] at hsyncs ⊢
    unfold recvMessage at hsyncs ⊢
    refine ⟨header.data, ?_⟩
    cases htype : MessageType.ofCode header.messageType with
    | none => rfl
    | some type =>
      cases type with
      | cancel => rfl
      | sliceHeader =>
        simp only [recvSliceHeader]
        split <;> rfl
      | versionVerification =>
        simp only [htype, decide_true, Bool.true_and] at hsyncs ⊢
        exact recvVersion_protocolTable hsyncs
      | complete => exact recvComplete_leavesTable flag { t.client with header := header } s
      | slice => exact recvSlice_leavesTable flag { t.client with header := header } s

/-! ## Along a run -/

/-- The table has the names of the explicit one, and besides them entries of no name. -/
structure Marked (table explicit : ProtocolTable) : Prop where
  ne_nil : table.protoTable ≠ []
  lookup : ∀ type, table.protoTable.lookup type = explicit.protoTable.lookup type ∨
    explicit.protoTable.lookup type = none ∧ table.protoTable.lookup type = some []

theorem nameOf_marked {table explicit : ProtocolTable}
    (h : table = explicit ∨ Marked table explicit) (type : BitVec 32) :
    Marked (table.nameOf type).2 explicit := by
  have hlookup : ∀ key, table.protoTable.lookup key = explicit.protoTable.lookup key ∨
      explicit.protoTable.lookup key = none ∧ table.protoTable.lookup key = some [] := by
    obtain rfl | h := h
    · exact fun _ => .inl rfl
    · exact h.lookup
  unfold ProtocolTable.nameOf
  cases hname : table.protoTable.lookup type with
  | some name =>
    refine ⟨fun hnil => ?_, hlookup⟩
    rw [show table.protoTable = [] from hnil] at hname
    cases hname
  | none =>
    refine ⟨assign_ne_nil _ _ _, fun key => ?_⟩
    simp only [lookup_assign]
    by_cases hkey : key = type
    · subst hkey
      rw [if_pos rfl]
      obtain heq | ⟨-, hsome⟩ := hlookup key
      · exact .inr ⟨heq ▸ hname, rfl⟩
      · cases hname.symm.trans hsome
    · rw [if_neg hkey]
      exact hlookup key

theorem Tracked.turn_unknown {t : Tracked Msg} {flag : StreamFlag}
    (hsyncs : t.syncs program flag = false) : (t.turn program flag).unknown =
      (t.unknown || t.handsOnUnknown program flag) := by
  simp only [Tracked.turn, hsyncs, Bool.not_false, Bool.true_and]

/-- The explicit table as long as no message of unknown type was handed on. -/
structure Tracked.Inv (t : Tracked Msg) : Prop where
  explicit : t.unknown = false → t.client.protocolTable = t.explicit
  marked : t.unknown = true → Marked t.client.protocolTable t.explicit

theorem Tracked.Inv.cases {t : Tracked Msg} (h : t.Inv) :
    t.client.protocolTable = t.explicit ∨ Marked t.client.protocolTable t.explicit := by
  cases hunknown : t.unknown with
  | false => exact .inl (h.explicit hunknown)
  | true => exact .inr (h.marked hunknown)

/-- A turn keeps the invariant. -/
theorem Tracked.Inv.turn {t : Tracked Msg} (h : t.Inv) (flag : StreamFlag) :
    (t.turn program flag).Inv := by
  cases hsyncs : t.syncs program flag with
  | true =>
    have hunknown : (t.turn program flag).unknown = false := by
      simp only [Tracked.turn, hsyncs, Bool.not_true, Bool.false_and]
    refine ⟨fun _ => ?_, fun h => absurd h (by rw [hunknown]; exact Bool.false_ne_true)⟩
    simp only [Tracked.turn, hsyncs, if_true]
  | false =>
    have hexplicit : (t.turn program flag).explicit = t.explicit := by
      simp only [Tracked.turn, hsyncs, Bool.false_eq_true, if_false]
    obtain ⟨type, htable⟩ := recvTurn_protocolTable hsyncs
    have hturn : (t.turn program flag).client.protocolTable = _ := htable
    cases hhands : t.handsOnUnknown program flag with
    | false =>
      have hunknown : (t.turn program flag).unknown = t.unknown := by
        rw [Tracked.turn_unknown hsyncs, hhands, Bool.or_false]
      rw [hhands, if_neg Bool.false_ne_true] at hturn
      refine ⟨fun hfalse => ?_, fun htrue => ?_⟩
      · rw [hturn, hexplicit]
        exact h.explicit (hunknown ▸ hfalse)
      · rw [hturn, hexplicit]
        exact h.marked (hunknown ▸ htrue)
    | true =>
      have hunknown : (t.turn program flag).unknown = true := by
        rw [Tracked.turn_unknown hsyncs, hhands, Bool.or_true]
      rw [hhands, if_pos rfl] at hturn
      refine ⟨fun hfalse => absurd (hunknown.symm.trans hfalse) (by decide), fun _ => ?_⟩
      rw [hturn, hexplicit]
      exact nameOf_marked h.cases type

/-- **The table along a run.** -/
theorem tracks_inv {t : Tracked Msg} (h : Tracks program t) : t.Inv := by
  induction h with
  | start factory s => exact ⟨fun _ => rfl, fun h => absurd h Bool.false_ne_true⟩
  | turn flag _ ih => exact ih.turn flag
  | setStreamClient s reconnect _ ih =>
    cases reconnect with
    | false => exact ⟨ih.explicit, ih.marked⟩
    | true => exact ⟨ih.explicit, ih.marked⟩
  | setProtoTable table _ ih => exact ⟨fun _ => rfl, fun h => absurd h Bool.false_ne_true⟩

/-! ## Resolution -/

/-- Under a table with an entry a type that is not reserved resolves to the class of its name. -/
theorem createProto_named {c : Client Msg} {type : BitVec 32}
    (htable : c.protocolTable.protoTable ≠ []) (htype : reservedProtoTypeSize < type.toNat) :
    createProto c type = c.factory.bind fun factory =>
      (c.protocolTable.protoTable.lookup type).bind factory.createByName := by
  unfold createProto
  cases c.factory with
  | none => rfl
  | some factory =>
    simp only [Option.bind_some]
    rw [if_neg (by simp only [not_or, not_le]; exact ⟨htype, htable⟩)]
    cases c.protocolTable.protoTable.lookup type <;> rfl

/-- The other types are those of the factory. -/
theorem createProto_unnamed {c : Client Msg} {type : BitVec 32}
    (h : type.toNat ≤ reservedProtoTypeSize ∨ c.protocolTable.protoTable = []) :
    createProto c type = c.factory.bind fun factory => factory.create type := by
  unfold createProto
  cases c.factory with
  | none => rfl
  | some factory => exact if_pos h

/-- Entries of no name resolve to nothing. -/
theorem Marked.resolve {table explicit : ProtocolTable} (h : Marked table explicit)
    (factory : ProtoFactory Msg) (type : BitVec 32) :
    (table.protoTable.lookup type).bind factory.createByName =
      (explicit.protoTable.lookup type).bind factory.createByName := by
  obtain heq | ⟨hnone, hsome⟩ := h.lookup type
  · rw [heq]
  · rw [hnone, hsome, Option.bind_some, Option.bind_none]
    exact factory.createByName_nil

/-- A type that is not reserved, under a marked table. -/
theorem Marked.createProto {c : Client Msg} {explicit : ProtocolTable}
    (h : Marked c.protocolTable explicit) {type : BitVec 32}
    (htype : reservedProtoTypeSize < type.toNat) :
    Communication.createProto c type = c.factory.bind fun factory =>
      (explicit.protoTable.lookup type).bind factory.createByName := by
  rw [createProto_named h.ne_nil htype]
  exact congrArg c.factory.bind (funext fun factory => h.resolve factory type)

/-- **When unknown types leave the resolution alone.** -/
theorem resolution_iff {t : Tracked Msg} (h : Tracks program t) :
    t.Resolves ↔
      t.explicit.protoTable ≠ [] ∨ t.unknown = false ∨ t.client.OnlyReserved := by
  have hinv := tracks_inv h
  constructor
  · intro hresolves
    by_contra hnot
    simp only [not_or, not_not, Bool.not_eq_false] at hnot
    obtain ⟨hempty, hunknown, honly⟩ := hnot
    refine honly fun type htype => ?_
    have hcreate := hresolves type
    rw [(hinv.marked hunknown).createProto htype, createProto_unnamed (.inr hempty), hempty]
      at hcreate
    rw [← hcreate]
    cases t.client.factory <;> rfl
  · intro hcond type
    obtain hsame | hmarked := hinv.cases
    · rw [← hsame]
    by_cases htype : type.toNat ≤ reservedProtoTypeSize
    · rw [createProto_unnamed (.inl htype), createProto_unnamed (.inl htype)]
    rw [hmarked.createProto (not_le.mp htype)]
    by_cases hempty : t.explicit.protoTable = []
    · -- the table of the factory counts for the explicit table and not for the marked one
      obtain hne | hknown | honly := hcond
      · exact absurd hempty hne
      · rw [createProto_unnamed (.inr hempty)]
        exact absurd (hinv.explicit hknown ▸ hempty) hmarked.ne_nil
      · rw [createProto_unnamed (.inr hempty), hempty]
        refine Eq.trans ?_ (honly type (not_le.mp htype)).symm
        cases t.client.factory <;> rfl
    · rw [createProto_named hempty (not_le.mp htype)]

end

/-! ## One message of an unknown type -/

/-- The name of the one class, for its number. -/
def blobTable : ProtocolTable := ⟨1, [(65, [0x42, 0x6C, 0x6F, 0x62])]⟩

/-- A `Complete` message of a byte, of a type that the factory does not know. -/
def unknownHeader : MessageHeader := ⟨1, 70, MessageType.complete.code⟩

/-- The flags with which it is received. -/
def unknownFlag : StreamFlag := { recvUnknownTypeData := true }

/-- A client with this table, to which it comes. -/
def unknownClient (table : ProtocolTable) : Tracked Bytes :=
  ⟨Client.setProtoTable { factory := some blobFactory } table,
    [.ok (unknownHeader.bytes ++ [7])], table, false⟩

/-- It is handed on, and its type gets an entry. -/
theorem recvTurn_unknown {table : ProtocolTable}
    (hcreate : createProto (unknownClient table).client 70 = none) :
    ∃ rest, recvTurn blobProgram unknownFlag (unknownClient table).client
        (unknownClient table).rest =
      ⟨some (.message (.raw ⟨1, 70, (table.nameOf 70).1, [7]⟩)),
        { (unknownClient table).client with
          header := unknownHeader
          protocolTable := (table.nameOf 70).2 }, rest⟩ ∧
      (unknownClient table).syncs blobProgram unknownFlag = false ∧
      (unknownClient table).handsOnUnknown blobProgram unknownFlag = true := by
  have hcarries : Carries (unknownClient table).rest (unknownHeader.bytes ++ [7]) :=
    carries_single (by decide)
  obtain ⟨rest, hmessage, hrest⟩ := nextMessage_carries hcarries
  have hbyte : Carries rest ([7] ++ []) := hrest
  obtain ⟨rest', hread, -⟩ := recvRaw_carries (by decide) hbyte
  have hread' : recvRaw unknownHeader.length.toNat rest = ⟨.ok (), [7], rest'⟩ := hread
  have hcomplete : MessageType.ofCode unknownHeader.messageType = some .complete := by decide
  have hcreate' : createProto { (unknownClient table).client with header := unknownHeader }
      unknownHeader.data = none := hcreate
  have hturn : recvTurn blobProgram unknownFlag (unknownClient table).client
      (unknownClient table).rest = ⟨some (.message (.raw ⟨1, 70, (table.nameOf 70).1, [7]⟩)),
        { (unknownClient table).client with
          header := unknownHeader
          protocolTable := (table.nameOf 70).2 }, rest'⟩ := by
    rw [recvTurn_of_message blobProgram unknownFlag (unknownClient table).client hmessage]
    simp only [recvMessage, hcomplete, recvComplete, recvBuffer, hcreate', hread', complete,
      finishMessage]
    rfl
  refine ⟨rest', hturn, ?_, ?_⟩
  · simp only [Tracked.syncs, hmessage, hcomplete]
    rfl
  · simp only [Tracked.handsOnUnknown, hmessage, hcomplete, hturn]
    rw [show createProto (unknownClient table).client unknownHeader.data = none from hcreate]
    rfl

/-- Under a table that was set: its type is marked in the table, and what the types resolve to
stays. -/
theorem resolution_named :
    ((unknownClient blobTable).turn blobProgram unknownFlag).unknown = true ∧
    ((unknownClient blobTable).turn blobProgram unknownFlag).client.protocolTable ≠ blobTable ∧
    ((unknownClient blobTable).turn blobProgram unknownFlag).Resolves := by
  have hcreate : createProto (unknownClient blobTable).client 70 = none := by decide
  obtain ⟨rest, hturn, hsyncs, hhands⟩ := recvTurn_unknown hcreate
  have htracked : Tracks blobProgram (unknownClient blobTable) :=
    .setProtoTable blobTable (.start (some blobFactory) _)
  refine ⟨?_, ?_, (resolution_iff (htracked.turn unknownFlag)).mpr (.inl ?_)⟩
  · simp only [Tracked.turn, hsyncs, hhands]
    rfl
  · simp only [Tracked.turn, hturn]
    decide
  · simp only [Tracked.turn, hsyncs, Bool.false_eq_true, if_false]
    exact List.cons_ne_nil _ _

/-- **An unknown type** and the class of the factory, which was there before, is not any more. -/
theorem resolution_fails :
    createProto (unknownClient {}).client 65 = some (.declared []) ∧
    createProto (recv blobProgram unknownFlag (unknownClient {}).client
      (unknownClient {}).rest).2.1 65 = none ∧
    ¬∀ t : Tracked Bytes, Tracks blobProgram t → t.Resolves := by
  have hcreate : createProto (unknownClient {}).client 70 = none := by decide
  obtain ⟨rest, hturn, hsyncs, -⟩ := recvTurn_unknown hcreate
  refine ⟨blobFactory_create, ?_, fun h => ?_⟩
  · rw [recv_of_some (congrArg Turn.result hturn), hturn]
    rfl
  · have hstart : Tracks blobProgram (unknownClient {}) := .start _ _
    have hresolves := h _ (hstart.turn unknownFlag) 65
    simp only [Tracked.turn, hsyncs, hturn] at hresolves
    exact absurd hresolves (by decide)

end NekoProto.Communication
