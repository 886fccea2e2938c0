import NekoProto.JsonRpc.ResponseRoundTrip

/-!
# The JSON-RPC backend of a server

`JsonRpcBackend` as the dispatcher uses it. A method returns a value of its own type.
-/

namespace NekoProto.JsonRpc

open Binary Parsing Json JsonValue

section

variable {text : JsonText} {nullForEmpty : Bool} {conv : Conversions} {env : Env}
  {message : Rpc.ErrorCode → Bytes}

/-! ## The ids of responses -/

/-- The id of a response, in which none stands for a null. -/
def responseIdOf (response : JsonValue) : JsonRpcId := (responseId response).getD .monostate

/-- The id of a response that was written, and perhaps read again. -/
theorem responseIdOf_members {R : RawReturnType} (response : Response R)
    (f : BitVec 64 → BitVec 64) :
    responseIdOf (.object (mapDoublesMembers f (members response nullForEmpty conv))) =
      response.id := by
  have hfind : findMember idName (mapDoublesMembers f (members response nullForEmpty conv)) =
      written nullForEmpty response.id.isMonostate response.id.write := by
    rw [findMember_mapDoubles, findMember_id, written_map]
    cases response.id <;> rfl
  unfold responseIdOf responseId
  simp only [hfind]
  cases response.id with
  | monostate => cases nullForEmpty <;> rfl
  | integer value =>
    show ((Json.result
      (JsonRpcId.read (JsonRpcId.write (.integer value)) .monostate)).toOption).getD .monostate =
        .integer value
    rw [JsonRpcId.read_write]
    rfl
  | string value => rfl

theorem responseIdOf_protocolError (id : JsonRpcId) (error : Rpc.ErrorCode) :
    responseIdOf (protocolError nullForEmpty conv message id error) = id := by
  let response : Response none := { error := some (makeErrorResponse message error), id := id }
  have hexact : ExactMembers (members response nullForEmpty conv) :=
    show (protocolError nullForEmpty conv message id error).Exact from protocolError_exact id error
  have hid : responseIdOf (.object (mapDoublesMembers (fun b => b)
      (members response nullForEmpty conv))) = id := responseIdOf_members response fun b => b
  rw [mapDoublesMembers_of_exact _ hexact] at hid
  exact hid

theorem appendProtocolError_ids (id : JsonRpcId) (error : Rpc.ErrorCode) :
    (appendProtocolError text nullForEmpty conv message id error).map responseIdOf = [id] := by
  unfold appendProtocolError
  rw [toJsonValue_protocolError]
  exact congrArg (fun id => [id]) (responseIdOf_protocolError id error)

theorem appendError_ids (request : DecodedRequest conv env) (error : Rpc.ErrorCode) :
    (appendError text nullForEmpty conv message request error).map responseIdOf =
      if expectsResponse request then [request.method.id] else [] := by
  unfold appendError
  split_ifs
  · exact appendProtocolError_ids request.method.id error
  · rfl

/-- **A response has the id of its request**, whatever became of the value. -/
theorem appendMethodReturn_ids (R : RawReturnType) (request : DecodedRequest conv env)
    (result : Except Rpc.ErrorCode R.Value) :
    (appendMethodReturn text nullForEmpty conv message R request result).map responseIdOf =
      if expectsResponse request then [request.method.id] else [] := by
  cases result with
  | error error => exact appendError_ids request error
  | ok value =>
    show (appendSuccess text nullForEmpty conv message R request (R.toResult value)).map
      responseIdOf = _
    unfold appendSuccess toJsonValue
    rw [text.parse_print]
    split_ifs with hexpects hcarried
    · exact congrArg (fun id => [id])
        (responseIdOf_members (returned R request.method.id value) text.reread)
    · exact appendProtocolError_ids request.method.id _
    · rfl

end

/-! ## The backend -/

/-- What a method returned, with its type. -/
def appendReturned {conv : Conversions} {env : Env} (text : JsonText) (nullForEmpty : Bool)
    (message : Rpc.ErrorCode → Bytes) (request : DecodedRequest conv env) :
    Except Rpc.ErrorCode (Σ R : RawReturnType, R.Value) → List JsonValue
  | .ok value =>
    appendMethodReturn text nullForEmpty conv message value.1 request (.ok value.2)
  | .error error => appendError text nullForEmpty conv message request error

/-- `JsonRpcBackend`. It has no session. -/
def jsonRpcBackend (text : JsonText) (nullForEmpty : Bool) (conv : Conversions) (env : Env)
    (message : Rpc.ErrorCode → Bytes) (options : Options) :
    Rpc.ServerBackend JsonRpcId Unit (DecodedRequest conv env) JsonValue
      (Σ R : RawReturnType, R.Value) where
  decodeIncoming _ data :=
    some (decodeIncoming text nullForEmpty conv env message options data)
  methodName request := request.method.method
  id request := request.method.id
  expectsResponse := expectsResponse
  appendError := appendError text nullForEmpty conv message
  appendMethodReturn := appendReturned text nullForEmpty message
  encodeResponses _ := encodeResponses text options
  validateMessage := validateMessage options
  responseId := responseIdOf
  appendError_ids := appendError_ids
  appendMethodReturn_ids request result := by
    cases result with
    | ok value => exact appendMethodReturn_ids value.1 request (.ok value.2)
    | error error => exact appendError_ids request error

end NekoProto.JsonRpc
