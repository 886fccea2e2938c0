import NekoProto.Json.Survives
import NekoProto.Json.TextRoundTrip
import NekoProto.JsonRpc.Backend

/-!
# Responses, from the server to the client

What the client makes of the message that the server sends for what a method returned.

1. The members of a response are read back under their names (`readOptional_eq_ok`, `readId_eq`).
2. An error is an error to the client, whatever its code and whatever the limits of the message
   (`decodeResponse_protocolError`).
3. A value reaches the client exactly where it is not written as a bare null, it survives JSON,
   and its message is printed and within the limits (`decodeResponse_methodReturn_iff`). The
   result of `void` is written as a null too, but then nobody looks for it; nor does `invoke` look
   for the error of such a method.
-/

namespace NekoProto.JsonRpc

open Binary Parsing Json JsonValue
open Outcome (bind_eq_ok)

section

variable {text : JsonText} {nullForEmpty : Bool} {conv : Conversions} {env : Env}
  {message : Rpc.ErrorCode → Bytes}

/-! ## Reading the members -/

theorem parserRead_optional_eq_ok {T : Ty} {tags : Tags} {w : JsonValue}
    {old : (Ty.optional T).Value} {out : Option T.Value} :
    Json.parserRead conv env (.optional T) tags w old = .ok out ↔
      if w.isNull then out = none
      else ∃ value, out = some value ∧
        Json.parserRead conv env T tags w (env.default T) = .ok value := by
  rw [Json.parserRead]
  refine keeping_eq_ok.trans ?_
  unfold Json.readNullable
  cases w.isNull with
  | true => exact ok_eq_ok.trans eq_comm
  | false =>
    simp only [Bool.false_eq_true, if_false]
    cases Json.parserRead conv env T tags w (env.default T) with
    | error e =>
      constructor
      · intro h
        cases h
      · rintro ⟨value, -, h⟩
        cases h
    | ok value =>
      constructor
      · intro h
        exact ⟨value, (Except.ok.inj h).symm, rfl⟩
      · rintro ⟨value', rfl, h⟩
        obtain rfl := Except.ok.inj h
        rfl

/-- The null of an optional, where it can be copied. -/
theorem setNull_optional_of_isSome {T : Ty} (h : (Ty.optional T).setNull.isSome = true) :
    (Ty.optional T).setNull = some (none : Option T.Value) := by
  have hsetNull : (Ty.optional T).setNull =
      if T.copyable then some (none : Option T.Value) else none := rfl
  rw [hsetNull] at h ⊢
  split_ifs at h ⊢
  · rfl
  · cases h

variable (conv env) in
theorem readField_object (T : Ty) (name : Bytes) (members : List (Bytes × JsonValue))
    (old : T.Value) :
    readField conv env T name (.object members) old =
      Json.result ((findMember name members).elim (readMissingField T.setNull name {} old)
        fun w => readPresentField T.setNull name (Json.parserRead conv env T {}) w old) :=
  congrArg Json.result (readReflectField_object T.setNull name {} (Json.parserRead conv env T {})
    members old)

/-- A field that was found, of an optional. -/
theorem readOptional_eq_ok {T : Ty} {name : Bytes} {members : List (Bytes × JsonValue)}
    {w : JsonValue} (hfind : findMember name members = some w) {out : Option T.Value} :
    readField conv env (.optional T) name (.object members) none = .ok out ↔
      if w.isNull then out = none
      else ∃ value, out = some value ∧
        Json.parserRead conv env T {} w (env.default T) = .ok value := by
  have hread := readField_object conv env (.optional T) name members none
  rw [hfind, Option.elim_some] at hread
  rw [hread]
  refine (result_eq_ok.trans readPresentField_eq_ok).trans ?_
  by_cases hnull : w.isNull = true ∧ (Ty.optional T).setNull.isSome = true
  · rw [if_pos hnull, if_pos hnull.1]
    have hsetNull : (Ty.optional T).setNull = some none := setNull_optional_of_isSome hnull.2
    rw [hsetNull]
    exact Option.some_inj.trans eq_comm
  · rw [if_neg hnull]
    exact parserRead_optional_eq_ok

theorem JsonRpcId.read_write (id old : JsonRpcId) : JsonRpcId.read id.write old = .ok id := by
  cases id with
  | monostate => rfl
  | integer value =>
    have hread : toBasicUnsigned .w64 (JsonRpcId.write (.integer value)) = .ok value :=
      toBasicUnsigned_integerOf .w64 value
    rw [JsonRpcId.read, hread]
    rfl
  | string value => rfl

/-- **An id is read back.** -/
theorem readId_eq {members : List (Bytes × JsonValue)} {id : JsonRpcId}
    (hfind : findMember idName members = written nullForEmpty id.isMonostate id.write) :
    readId (.object members) = .ok id := by
  have hfield : findMember (Tags.fieldName {} idName) members =
      written nullForEmpty id.isMonostate id.write := hfind
  rw [readId, readReflectField_object, hfield]
  cases id with
  | monostate => cases nullForEmpty <;> rfl
  | integer value =>
    exact result_eq_ok.mpr (contextWithin_eq_ok.mpr
      (JsonRpcId.read_write (.integer value) .monostate))
  | string value => rfl

/-! ## The members of a response -/

section

variable {R : RawReturnType} (response : Response R)

/-- The members of a response. -/
def members (nullForEmpty : Bool) (conv : Conversions) : List (Bytes × JsonValue) :=
  writeField nullForEmpty conv .string jsonrpcName response.jsonrpc ++
    writeField nullForEmpty conv (.optional R.result) resultName response.result ++
    writeField nullForEmpty conv (.optional errorResponse) errorName response.error ++
    writeId nullForEmpty response.id

theorem findMember_members (sought : Bytes) :
    findMember sought (members response nullForEmpty conv) =
      (((if jsonrpcName = sought then some (.string response.jsonrpc) else none).or
        (if resultName = sought then
          written nullForEmpty ((Ty.optional R.result).optionalLike && !response.result.isSome)
            (parserWrite nullForEmpty conv (.optional R.result) {} response.result)
        else none)).or
        (if errorName = sought then
          written nullForEmpty (!response.error.isSome)
            (parserWrite nullForEmpty conv (.optional errorResponse) {} response.error)
        else none)).or
        (if idName = sought then
          written nullForEmpty response.id.isMonostate response.id.write
        else none) := by
  unfold members writeField writeId
  rw [findMember_append, findMember_append, findMember_append, findMember_writeReflectField,
    findMember_writeReflectField, findMember_writeReflectField, findMember_writeReflectField]
  rfl

theorem findMember_jsonrpc :
    findMember jsonrpcName (members response nullForEmpty conv) =
      some (.string response.jsonrpc) := by
  rw [findMember_members]
  rfl

theorem findMember_result :
    findMember resultName (members response nullForEmpty conv) =
      written nullForEmpty ((Ty.optional R.result).optionalLike && !response.result.isSome)
        (parserWrite nullForEmpty conv (.optional R.result) {} response.result) := by
  rw [findMember_members, if_neg (by decide), if_pos rfl, if_neg (by decide), if_neg (by decide),
    Option.or_none, Option.or_none, Option.none_or]

theorem findMember_error :
    findMember errorName (members response nullForEmpty conv) =
      written nullForEmpty (!response.error.isSome)
        (parserWrite nullForEmpty conv (.optional errorResponse) {} response.error) := by
  rw [findMember_members, if_neg (by decide), if_neg (by decide), if_pos rfl, if_neg (by decide),
    Option.or_none, Option.none_or, Option.none_or]

theorem findMember_id :
    findMember idName (members response nullForEmpty conv) =
      written nullForEmpty response.id.isMonostate response.id.write := by
  rw [findMember_members, if_neg (by decide), if_neg (by decide), if_neg (by decide), if_pos rfl,
    Option.none_or, Option.none_or, Option.none_or]

end

theorem written_map (f : BitVec 64 → BitVec 64) (empty : Bool) (value : JsonValue) :
    (written nullForEmpty empty value).map (mapDoubles f) =
      written nullForEmpty empty (mapDoubles f value) := by
  unfold written
  cases empty with
  | true => cases nullForEmpty <;> rfl
  | false => rfl

theorem readResponse_eq_ok {R : RawReturnType} {ms : List (Bytes × JsonValue)}
    {out : Response R} :
    readResponse conv env R (.object ms) = .ok out ↔
      readField conv env .string jsonrpcName (.object ms) version = .ok out.jsonrpc ∧
        readField conv env (.optional R.result) resultName (.object ms) none = .ok out.result ∧
        readField conv env (.optional errorResponse) errorName (.object ms) none =
          .ok out.error ∧ readId (.object ms) = .ok out.id := by
  unfold readResponse
  simp only [bind_eq_ok]
  constructor
  · rintro ⟨ms', -, jsonrpc, hjsonrpc, result, hresult, error, herror, id, hid, heq⟩
    obtain rfl := Except.ok.inj heq
    exact ⟨hjsonrpc, hresult, herror, hid⟩
  · rintro ⟨hjsonrpc, hresult, herror, hid⟩
    exact ⟨ms, rfl, out.jsonrpc, hjsonrpc, out.result, hresult, out.error, herror, out.id, hid,
      rfl⟩

/-- **What every response is read with**: its version, its id, and an error if it has one. -/
theorem readResponse_members {R S : RawReturnType} {response : Response S}
    {f : BitVec 64 → BitVec 64} {out : Response R} :
    readResponse conv env R (.object (mapDoublesMembers f (members response nullForEmpty conv))) =
        .ok out ↔
      out.jsonrpc = response.jsonrpc ∧
        readField conv env (.optional R.result) resultName
          (.object (mapDoublesMembers f (members response nullForEmpty conv))) none =
            .ok out.result ∧
        readField conv env (.optional errorResponse) errorName
          (.object (mapDoublesMembers f (members response nullForEmpty conv))) none =
            .ok out.error ∧ out.id = response.id := by
  have hjsonrpc : readField conv env .string jsonrpcName
      (.object (mapDoublesMembers f (members response nullForEmpty conv))) version =
      .ok response.jsonrpc := by
    have hread := readField_object conv env .string jsonrpcName
      (mapDoublesMembers f (members response nullForEmpty conv)) version
    rw [findMember_mapDoubles, findMember_jsonrpc] at hread
    exact hread
  have hid : readId (.object (mapDoublesMembers f (members response nullForEmpty conv))) =
      .ok response.id := by
    have hfind : findMember idName (mapDoublesMembers f (members response nullForEmpty conv)) =
        written nullForEmpty response.id.isMonostate response.id.write := by
      rw [findMember_mapDoubles, findMember_id, written_map]
      cases response.id <;> rfl
    exact readId_eq hfind
  rw [readResponse_eq_ok, hjsonrpc, hid]
  exact and_congr (ok_eq_ok.trans eq_comm)
    (and_congr Iff.rfl (and_congr Iff.rfl (ok_eq_ok.trans eq_comm)))

/-! ## Errors -/

theorem protocolError_exact (id : JsonRpcId) (error : Rpc.ErrorCode) :
    (protocolError nullForEmpty conv message id error).Exact := by
  have hid : id.write.Exact := by cases id <;> trivial
  have herror : (parserWrite nullForEmpty conv (.optional errorResponse) {}
      (some (makeErrorResponse message error))).Exact := ⟨trivial, trivial, trivial⟩
  show ExactMembers (_ ++ _ ++ _ ++ _)
  rw [exactMembers_append, exactMembers_append, exactMembers_append]
  refine ⟨⟨⟨?_, ?_⟩, ?_⟩, ?_⟩
  · exact exactMembers_writeReflectField trivial
  · exact exactMembers_writeReflectField trivial
  · exact exactMembers_writeReflectField herror
  · exact exactMembers_writeReflectField hid

theorem toJsonValue_protocolError (id : JsonRpcId) (error : Rpc.ErrorCode) :
    toJsonValue text (protocolError nullForEmpty conv message id error) =
      some (protocolError nullForEmpty conv message id error) := by
  have hexact : (protocolError nullForEmpty conv message id error).Exact :=
    protocolError_exact id error
  obtain ⟨bytes, hprint, hparse⟩ := text.print_exact hexact
  unfold toJsonValue
  rw [hprint, Option.bind_some, hparse]

/-- **A response with an error is an error**, whatever else is in it. -/
theorem acceptResponse_error {R : RawReturnType} {response : Response R} {id : JsonRpcId}
    (herror : response.error.isSome = true) : ∃ e, acceptResponse R response id = .error e := by
  obtain ⟨error, herror⟩ := Option.isSome_iff_exists.mp herror
  unfold acceptResponse
  rw [herror]
  simp only
  split_ifs
  · exact ⟨_, rfl⟩
  · exact ⟨_, rfl⟩
  · exact ⟨_, rfl⟩
  · exact ⟨_, rfl⟩

/-- The error of a response is read. -/
theorem readResponse_protocolError {R : RawReturnType} {id : JsonRpcId} {error : Rpc.ErrorCode}
    {out : Response R}
    (hread : readResponse conv env R (protocolError nullForEmpty conv message id error) =
      .ok out) : out.error.isSome = true := by
  obtain ⟨-, -, herror, -⟩ := readResponse_eq_ok.mp hread
  let response : Response none := { error := some (makeErrorResponse message error), id := id }
  have hfind : findMember errorName (members response nullForEmpty conv) = _ :=
    findMember_error response
  have hout := (readOptional_eq_ok hfind).mp herror
  obtain ⟨value, hvalue, -⟩ := hout
  rw [hvalue]
  rfl

/-- **An error response is an error to the client**, whatever the limits. -/
theorem decodeResponse_protocolError (R : RawReturnType) (server client : Options)
    (id expectedId : JsonRpcId) (error : Rpc.ErrorCode) :
    ∃ e, decodeResponse text conv env R client (encodeResponses text server
      (appendProtocolError text nullForEmpty conv message id error) false) expectedId =
        .error e := by
  have hexact : (protocolError nullForEmpty conv message id error).Exact :=
    protocolError_exact id error
  obtain ⟨bytes, hprint, hparse⟩ := text.print_exact hexact
  have hbuffer : encodeBuffer text
      (appendProtocolError text nullForEmpty conv message id error) false = bytes := by
    unfold appendProtocolError
    rw [toJsonValue_protocolError]
    show (text.print (protocolError nullForEmpty conv message id error)).getD [] = bytes
    rw [hprint, Option.getD_some]
  unfold encodeResponses
  simp only [hbuffer]
  split_ifs with hlimit
  · -- nothing is sent
    unfold decodeResponse
    rw [text.parse_nil]
    split_ifs
    · exact ⟨_, rfl⟩
    · exact ⟨_, rfl⟩
  · unfold decodeResponse
    rw [hparse]
    simp only
    split_ifs
    · exact ⟨_, rfl⟩
    · cases hread : readResponse conv env R (protocolError nullForEmpty conv message id error) with
      | error e => exact ⟨_, rfl⟩
      | ok out => exact acceptResponse_error (readResponse_protocolError hread)

/-! ## Values -/

/-- A field of an optional that was written empty, where it can be copied. -/
theorem readOptional_written {T : Ty} (hcopyable : T.copyable = true) {name : Bytes}
    {members : List (Bytes × JsonValue)} {own : JsonValue}
    (hfind : findMember name members = written nullForEmpty true own) :
    readField conv env (.optional T) name (.object members) none = .ok none := by
  cases nullForEmpty with
  | true =>
    have hnull : findMember name members = some .null := hfind
    exact (readOptional_eq_ok hnull).mpr rfl
  | false =>
    have hnone : findMember name members = none := hfind
    have hsetNull : (Ty.optional T).setNull = some (none : Option T.Value) := if_pos hcopyable
    have hfield := readField_object conv env (.optional T) name members none
    rw [hnone, Option.elim_none, hsetNull] at hfield
    exact hfield

/-- The response with what a method returned. -/
def returned (R : RawReturnType) (id : JsonRpcId) (value : R.Value) : Response R :=
  { result := some (R.toResult value), id := id }

/-- What is asked of a returned value, other than of its message. -/
def Returnable (nullForEmpty : Bool) (conv : Conversions) (env : Env)
    (f : BitVec 64 → BitVec 64) : (R : RawReturnType) → R.Value → Prop
  | none, _ => True
  | some T, value =>
    T.isBareNull value = false ∧ Survives nullForEmpty conv env f T {} (env.default T) value

/-- The result of a response is read. -/
theorem readResult_iff {R : RawReturnType} (id : JsonRpcId) {value : R.Value}
    {f : BitVec 64 → BitVec 64} :
    (∃ result, readField conv env (.optional R.result) resultName
        (.object (mapDoublesMembers f (members (returned R id value) nullForEmpty conv))) none =
          .ok result ∧ R.ofResult result = .ok value) ↔
      Returnable nullForEmpty conv env f R value := by
  have hfind : findMember resultName
      (mapDoublesMembers f (members (returned R id value) nullForEmpty conv)) =
        some (mapDoubles f (parserWrite nullForEmpty conv R.result {} (R.toResult value))) := by
    have hwrite : parserWrite nullForEmpty conv (.optional R.result) {}
        (some (R.toResult value)) =
          parserWrite nullForEmpty conv R.result {} (R.toResult value) := by
      rw [Json.parserWrite]
    rw [findMember_mapDoubles, findMember_result, written_map, ← hwrite]
    show written nullForEmpty ((Ty.optional R.result).optionalLike && false) _ = _
    rw [Bool.and_false]
    rfl
  cases R with
  | none =>
    refine ⟨fun _ => trivial, fun _ => ⟨none, (readOptional_eq_ok hfind).mpr ?_, rfl⟩⟩
    rfl
  | some T =>
    have hnull : (mapDoubles f (parserWrite nullForEmpty conv T {} value)).isNull =
        T.isBareNull value := (mapDoubles_isNull f _).trans (parserWrite_isNull T value)
    have hiff : Json.parserRead conv env T {}
        (mapDoubles f (parserWrite nullForEmpty conv T {} value)) (env.default T) = .ok value ↔
          Survives nullForEmpty conv env f T {} (env.default T) value :=
      parserRead_parserWrite_iff T {} (env.default T) value
    have hread : ∀ out : Option T.Value, readField conv env (.optional T) resultName
        (.object (mapDoublesMembers f (members (returned (some T) id value) nullForEmpty conv)))
          none = .ok out ↔
        if T.isBareNull value then out = none
        else ∃ value', out = some value' ∧ Json.parserRead conv env T {}
          (mapDoubles f (parserWrite nullForEmpty conv T {} value)) (env.default T) =
            .ok value' := by
      intro out
      rw [← hnull]
      exact readOptional_eq_ok hfind
    unfold Returnable
    constructor
    · rintro ⟨result, hresult, heq⟩
      have hout := (hread result).mp hresult
      split_ifs at hout with hbare
      · rw [hout] at heq
        cases heq
      · obtain ⟨value', rfl, hvalue'⟩ := hout
        obtain rfl := Except.ok.inj heq
        exact ⟨eq_false_of_ne_true hbare, hiff.mp hvalue'⟩
    · rintro ⟨hbare, hsurvives⟩
      refine ⟨some value, (hread _).mpr ?_, rfl⟩
      rw [if_neg (by rw [hbare]; exact Bool.false_ne_true)]
      exact ⟨value, rfl, hiff.mpr hsurvives⟩

/-- **A response that was written is read**, and accepted with its value, exactly where the value
can be returned. -/
theorem acceptResponse_iff {R : RawReturnType} {id : JsonRpcId} {value : R.Value}
    {f : BitVec 64 → BitVec 64} :
    (∃ out, readResponse conv env R (.object (mapDoublesMembers f
        (members (returned R id value) nullForEmpty conv))) = .ok out ∧
        acceptResponse R out id = .ok value) ↔
      Returnable nullForEmpty conv env f R value := by
  have herror : readField conv env (.optional errorResponse) errorName (.object
      (mapDoublesMembers f (members (returned R id value) nullForEmpty conv))) none = .ok none := by
    have hfind : findMember errorName
        (mapDoublesMembers f (members (returned R id value) nullForEmpty conv)) =
          written nullForEmpty true (mapDoubles f
            (parserWrite nullForEmpty conv (.optional errorResponse) {} none)) := by
      rw [findMember_mapDoubles, findMember_error, written_map]
      rfl
    exact readOptional_written rfl hfind
  refine Iff.trans ?_ (readResult_iff id)
  constructor
  · rintro ⟨out, hread, haccept⟩
    obtain ⟨hjsonrpc, hresult, hout, hid⟩ := readResponse_members.mp hread
    have hnone : out.error = none := Except.ok.inj (hout.symm.trans herror)
    unfold acceptResponse at haccept
    rw [if_neg (by rw [hjsonrpc]; exact fun h => h rfl),
      if_neg (by rw [hid]; exact fun h => h rfl), hnone] at haccept
    exact ⟨out.result, hresult, haccept⟩
  · rintro ⟨result, hresult, haccept⟩
    refine ⟨{ result := result, id := id }, readResponse_members.mpr ⟨rfl, hresult, herror, rfl⟩,
      ?_⟩
    unfold acceptResponse
    rw [if_neg fun h => h rfl, if_neg fun h => h rfl]
    exact haccept

/-- What a value needs to reach the client: its doubles are carried by the text, twice, the
message is within the limits of both sides, and the value can be returned. -/
structure Returns (text : JsonText) (nullForEmpty : Bool) (conv : Conversions) (env : Env)
    (server client : Options) (R : RawReturnType) (id : JsonRpcId) (value : R.Value) : Prop where
  printed : (success nullForEmpty conv R id (R.toResult value)).AllDoubles text.carries = true
  reprinted : (success nullForEmpty conv R id (R.toResult value)).AllDoubles
    (text.carries ∘ text.reread) = true
  length : ∀ bytes, text.print (mapDoubles text.reread
      (success nullForEmpty conv R id (R.toResult value))) = some bytes →
    bytes.length ≤ server.maxMessageBytes ∧ bytes.length ≤ client.maxMessageBytes
  returnable : Returnable nullForEmpty conv env (text.reread ∘ text.reread) R value

/-- A message that was sent is accepted by the client. -/
theorem decodeResponse_eq_ok {R : RawReturnType} {client : Options} {bytes : Bytes}
    {id : JsonRpcId} {value : R.Value} :
    decodeResponse text conv env R client bytes id = .ok value ↔
      bytes.length ≤ client.maxMessageBytes ∧ ∃ v, text.parse bytes = some v ∧
        ∃ out, readResponse conv env R v = .ok out ∧ acceptResponse R out id = .ok value := by
  unfold decodeResponse
  by_cases hlength : client.maxMessageBytes < bytes.length
  · rw [if_pos hlength]
    constructor
    · intro h
      cases h
    · rintro ⟨hle, -⟩
      exact absurd hle (Nat.not_le.mpr hlength)
  · rw [if_neg hlength]
    constructor
    · intro h
      cases hparse : text.parse bytes with
      | none =>
        rw [hparse] at h
        cases h
      | some v =>
        rw [hparse] at h
        simp only at h
        cases hread : readResponse conv env R v with
        | error e =>
          rw [hread] at h
          cases h
        | ok out =>
          rw [hread] at h
          exact ⟨Nat.not_lt.mp hlength, v, rfl, out, hread, h⟩
    · rintro ⟨-, v, hparse, out, hread, haccept⟩
      rw [hparse]
      simp only
      rw [hread]
      exact haccept

/-- Nothing that was sent is nothing to accept. -/
theorem decodeResponse_nil (R : RawReturnType) (client : Options) (id : JsonRpcId)
    (value : R.Value) : decodeResponse text conv env R client [] id ≠ .ok value := by
  intro h
  obtain ⟨-, v, hparse, -⟩ := decodeResponse_eq_ok.mp h
  rw [text.parse_nil] at hparse
  cases hparse

/-- A response that was printed and parsed is sent. -/
theorem decodeResponse_sent {R : RawReturnType} {server client : Options} {id : JsonRpcId}
    {value : R.Value}
    (hprinted : (success nullForEmpty conv R id (R.toResult value)).AllDoubles text.carries =
      true) :
    decodeResponse text conv env R client (encodeResponses text server
        [mapDoubles text.reread (success nullForEmpty conv R id (R.toResult value))] false) id =
          .ok value ↔
      Returns text nullForEmpty conv env server client R id value := by
  have hparse := text.parse_print
    (mapDoubles text.reread (success nullForEmpty conv R id (R.toResult value)))
  rw [allDoubles_mapDoubles, mapDoubles_mapDoubles] at hparse
  have hbuffer : encodeBuffer text
      [mapDoubles text.reread (success nullForEmpty conv R id (R.toResult value))] false =
        (text.print (mapDoubles text.reread
          (success nullForEmpty conv R id (R.toResult value)))).getD [] := rfl
  unfold encodeResponses
  simp only [hbuffer]
  cases hprint : text.print (mapDoubles text.reread
      (success nullForEmpty conv R id (R.toResult value))) with
  | none =>
    rw [hprint, Option.bind_none] at hparse
    rw [Option.getD_none, ite_self]
    constructor
    · exact fun h => absurd h (decodeResponse_nil R client id value)
    · intro h
      rw [if_pos h.reprinted] at hparse
      cases hparse
  | some bytes =>
    rw [hprint, Option.bind_some] at hparse
    rw [Option.getD_some]
    by_cases hserver : server.maxMessageBytes < bytes.length
    · rw [if_pos hserver]
      constructor
      · exact fun h => absurd h (decodeResponse_nil R client id value)
      · exact fun h => absurd (h.length bytes hprint).1 (Nat.not_le.mpr hserver)
    · rw [if_neg hserver]
      refine decodeResponse_eq_ok.trans ?_
      constructor
      · rintro ⟨hclient, v, hv, haccept⟩
        have hreprinted : (success nullForEmpty conv R id (R.toResult value)).AllDoubles
            (text.carries ∘ text.reread) = true := by
          by_contra hnot
          rw [if_neg hnot, hv] at hparse
          cases hparse
        rw [if_pos hreprinted, hv] at hparse
        obtain rfl := Option.some.inj hparse
        refine ⟨hprinted, hreprinted, fun bytes' hbytes' => ?_, acceptResponse_iff.mp haccept⟩
        obtain rfl := Option.some.inj (hprint.symm.trans hbytes')
        exact ⟨Nat.not_lt.mp hserver, hclient⟩
      · intro h
        rw [if_pos h.reprinted] at hparse
        exact ⟨(h.length bytes hprint).2, _, hparse, acceptResponse_iff.mpr h.returnable⟩

theorem callHandler_ok (R : RawReturnType) (withContext : Bool) (value : R.Value) :
    callHandler R withContext (.ok value) = .ok value := by
  unfold callHandler
  cases R with
  | none => cases withContext <;> rfl
  | some T => cases withContext <;> rfl

variable (text nullForEmpty message) in
/-- **The value of a method**, at the client. -/
theorem decodeResponse_ok_iff {server client : Options} {R : RawReturnType}
    {request : DecodedRequest conv env} (hexpects : expectsResponse request = true)
    (value : R.Value) :
    decodeResponse text conv env R client (encodeResponses text server
        (appendMethodReturn text nullForEmpty conv message R request (.ok value)) false)
          request.method.id = .ok value ↔
      Returns text nullForEmpty conv env server client R request.method.id value := by
  have hparse := text.parse_print
    (success nullForEmpty conv R request.method.id (R.toResult value))
  by_cases hprinted : (success nullForEmpty conv R request.method.id
      (R.toResult value)).AllDoubles text.carries = true
  · have happend : appendMethodReturn text nullForEmpty conv message R request (.ok value) =
        [mapDoubles text.reread
          (success nullForEmpty conv R request.method.id (R.toResult value))] := by
      refine (if_pos hexpects).trans ?_
      unfold toJsonValue
      rw [hparse, if_pos hprinted]
    rw [happend]
    exact decodeResponse_sent hprinted
  · have happend : appendMethodReturn text nullForEmpty conv message R request (.ok value) =
        appendProtocolError text nullForEmpty conv message request.method.id
          JsonRpcError.internalError.toErrorCode := by
      refine (if_pos hexpects).trans ?_
      unfold toJsonValue
      rw [hparse, if_neg hprinted]
    have herror : ∃ e, decodeResponse text conv env R client (encodeResponses text server
        (appendProtocolError text nullForEmpty conv message request.method.id
          JsonRpcError.internalError.toErrorCode) false) request.method.id = .error e :=
      decodeResponse_protocolError R server client _ _ _
    obtain ⟨e, he⟩ := herror
    rw [happend, he]
    constructor
    · intro h
      cases h
    · exact fun h => absurd h.printed hprinted

variable (text nullForEmpty message) in
/-- **The error of a method**, at the client. -/
theorem decodeResponse_error (server client : Options) (R : RawReturnType)
    {request : DecodedRequest conv env} (hexpects : expectsResponse request = true)
    (error : Rpc.ErrorCode) :
    ∃ e, decodeResponse text conv env R client (encodeResponses text server
      (appendMethodReturn text nullForEmpty conv message R request (.error error)) false)
        request.method.id = .error e := by
  have happend : appendMethodReturn text nullForEmpty conv message R request (.error error) =
      appendProtocolError text nullForEmpty conv message request.method.id error :=
    if_pos hexpects
  rw [happend]
  exact decodeResponse_protocolError R server client _ _ error

variable (text nullForEmpty conv env) in
/-- An error does not become a success: it is not that of a method of `void` which `invoke` calls,
or the client refuses the success that is sent instead. -/
def ErrorReturns (server client : Options) (id : JsonRpcId) : RawReturnType → Bool → Prop
  | none, false => ¬Returns text nullForEmpty conv env server client none id ()
  | _, _ => True

/-- **What a method returns, at the client**: a value where `Returns` holds of it, and nowhere else;
an error for an error, but where `invoke` drops it. -/
theorem decodeResponse_methodReturn_iff (text : JsonText) (nullForEmpty : Bool)
    (conv : Conversions) (env : Env) (message : Rpc.ErrorCode → Bytes) (server client : Options)
    (R : RawReturnType) (withContext : Bool) (request : DecodedRequest conv env)
    (hexpects : expectsResponse request = true) :
    (∀ value : R.Value, decodeResponse text conv env R client (encodeResponses text server
        (appendMethodReturn text nullForEmpty conv message R request
          (callHandler R withContext (.ok value))) false) request.method.id = .ok value ↔
        Returns text nullForEmpty conv env server client R request.method.id value) ∧
      ∀ error, (∃ e, decodeResponse text conv env R client (encodeResponses text server
        (appendMethodReturn text nullForEmpty conv message R request
          (callHandler R withContext (.error error))) false) request.method.id = .error e) ↔
        ErrorReturns text nullForEmpty conv env server client request.method.id R
          withContext := by
  constructor
  · intro value
    rw [callHandler_ok]
    exact decodeResponse_ok_iff text nullForEmpty message hexpects value
  · intro error
    have hkept := decodeResponse_error text nullForEmpty message server client R hexpects error
    cases withContext with
    | true =>
      refine ⟨fun _ => ?_, fun _ => hkept⟩
      cases R <;> trivial
    | false =>
      cases R with
      | some T => exact ⟨fun _ => trivial, fun _ => hkept⟩
      | none =>
        -- the success of `void` is sent
        have hvoid := @decodeResponse_ok_iff text nullForEmpty conv env message server client none
          request hexpects ()
        refine Iff.trans ?_ (not_congr hvoid)
        show (∃ e, decodeResponse text conv env none client (encodeResponses text server
          (appendMethodReturn text nullForEmpty conv message none request (.ok ())) false)
            request.method.id = .error e) ↔ _
        cases decodeResponse text conv env none client (encodeResponses text server
          (appendMethodReturn text nullForEmpty conv message none request (.ok ())) false)
            request.method.id with
        | error e => exact ⟨fun _ => nofun, fun _ => ⟨e, rfl⟩⟩
        | ok value => exact ⟨nofun, fun h => absurd rfl h⟩

end

/-- Conversions of numbers, where none is converted. -/
def noConversions : Conversions := ⟨fun _ => 0, fun _ => 0, fun _ => 0⟩

def one : JsonInteger := ⟨1, by decide⟩

/-- A request for the method `m` with the id 1, that reads as one. -/
def callOf (value : JsonValue) (read : readRequestMethod noConversions Env.zero value =
    .ok ⟨some version, [0x6D], .integer 1⟩) : DecodedRequest noConversions Env.zero :=
  ⟨value, _, read, rfl⟩

/-- A call of the method `m`. -/
def callRequest : DecodedRequest noConversions Env.zero :=
  callOf (.object [(jsonrpcName, .string version), (methodName, .string [0x6D]),
    (idName, .integer one)]) (by rfl)

theorem decodeResponse_methodReturn_iff_string :
    expectsResponse callRequest = true ∧
      decodeResponse TextWriter.plainText noConversions Env.zero (some (.optional .string)) {}
        (encodeResponses TextWriter.plainText {} (appendMethodReturn TextWriter.plainText true
          noConversions (fun _ => []) (some (.optional .string)) callRequest
            (callHandler (some (.optional .string)) false (.ok (some [0x78] : Option Bytes))))
              false) (.integer 1) =
          .ok (some [0x78] : Option Bytes) ∧
      ∃ e, decodeResponse TextWriter.plainText noConversions Env.zero (some (.optional .string)) {}
        (encodeResponses TextWriter.plainText {} (appendMethodReturn TextWriter.plainText true
          noConversions (fun _ => []) (some (.optional .string)) callRequest
            (callHandler (some (.optional .string)) false (.error ⟨.other "app", 7⟩))) false)
              (.integer 1) = .error e := by
  have hexpects : expectsResponse callRequest = true := rfl
  have hreturns : Returns TextWriter.plainText true noConversions Env.zero {} {}
      (some (.optional .string)) (.integer 1) (some [0x78] : Option Bytes) := by
    refine ⟨rfl, rfl, fun bytes hbytes => ?_, ⟨rfl, rfl, trivial⟩⟩
    have hlength := congrArg (Option.map List.length) hbytes
    have hbound : bytes.length = 50 := (Option.some.inj hlength).symm
    rw [hbound]
    exact ⟨by decide, by decide⟩
  obtain ⟨hvalue, herror⟩ := decodeResponse_methodReturn_iff TextWriter.plainText true
    noConversions Env.zero (fun _ => []) {} {} (some (.optional .string)) false callRequest
    hexpects
  exact ⟨hexpects, (hvalue (some [0x78] : Option Bytes)).mpr hreturns, (herror _).mpr trivial⟩

/-- An empty optional is returned, and the client refuses the response. And a method of `void`
fails, and the client is told of a success. -/
theorem optional_none_refused :
    expectsResponse callRequest = true ∧
      decodeResponse TextWriter.plainText noConversions Env.zero (some (.optional .string)) {}
        (encodeResponses TextWriter.plainText {} (appendMethodReturn TextWriter.plainText true
          noConversions (fun _ => []) (some (.optional .string)) callRequest
            (callHandler (some (.optional .string)) false (.ok (none : Option Bytes)))) false)
              (.integer 1) =
          .error JsonRpcError.invalidRequest.toErrorCode ∧
      decodeResponse TextWriter.plainText noConversions Env.zero none {}
        (encodeResponses TextWriter.plainText {} (appendMethodReturn TextWriter.plainText true
          noConversions (fun _ => []) none callRequest
            (callHandler none false (.error ⟨.other "app", 7⟩))) false) (.integer 1) = .ok () :=
  ⟨rfl, rfl, rfl⟩

end NekoProto.JsonRpc
