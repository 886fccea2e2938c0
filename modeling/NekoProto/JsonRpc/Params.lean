import NekoProto.Json.Lacks
import NekoProto.JsonRpc.Server

/-!
# The parameters of a JSON-RPC request

`decodeParams` of `JsonRpcBackend`, with the parser of a request, `JsonRpcRequestParser`.

1. The parameters are the members of an object, by the names of the arguments, or one value: the
   argument itself where it is one class, an optional of one, or a tuple, and else a tuple of all
   arguments. Where nothing of that has to be there (`isNullAble`), an error for a missing field
   is no error, wherever in the parameters the field is.
2. **Parameters that do not decode are refused** with an error response, and the method is not
   called, exactly where that exception does not apply (`malformed_params_refused_iff`).
-/

namespace NekoProto.JsonRpc

open Binary Parsing Json JsonValue
open Outcome (bind_eq_ok)

/-! ## Signatures -/

/-- A registered method: the types of its arguments, and their names if it has some. -/
structure MethodSignature where
  args : Tys
  argNames : List Bytes

/-- `is_std_tuple_v`. -/
def isTuple : Ty → Bool
  | .tuple _ => true
  | _ => false

/-- `is_single_optional_auto_expand_arg`, of the one argument. -/
def isOptionalObject : Ty → Bool
  | .optional T => (Ty.optional T).optionalLike && T.isObject
  | _ => false

/-- `ParamsTupleType`. -/
def paramsTupleType : Tys → Ty
  | .cons T .nil =>
    if T.isObject || isOptionalObject T || isTuple T then T else .tuple (.cons T .nil)
  | Ts => .tuple Ts

/-- `Reflect<T>::size()`. -/
def fieldCount : Fields → ℕ
  | .nil => 0
  | .cons _ _ _ rest => fieldCount rest + 1

/-- `ParamsSize`, of the one argument. -/
def argSize : Ty → ℕ
  | .object _ fields => fieldCount fields
  | .tuple Ts => Ts.length
  | .optional (.object unframed fields) =>
    if (Ty.optional (.object unframed fields)).optionalLike then fieldCount fields else 1
  | _ => 1

/-- `ParamsSize`. -/
def paramsSize : Tys → ℕ
  | .cons T .nil => argSize T
  | Ts => Ts.length

mutual

/-- `jsonrpc_is_null_able_object`. -/
def isNullAble : Ty → Bool
  | .optional _ => true
  | .object _ fields => isNullAbleFields fields
  | .tuple Ts => isNullAbleTuple Ts
  | _ => false

/-- All elements of a tuple. -/
def isNullAbleTuple : Tys → Bool
  | .nil => true
  | .cons T Ts => isNullAble T && isNullAbleTuple Ts

/-- All fields of a class. -/
def isNullAbleFields : Fields → Bool
  | .nil => true
  | .cons _ _ T rest => isNullAble T && isNullAbleFields rest

end

/-! ## Reading the parameters -/

section

variable (conv : Conversions) (env : Env)

/-- `readObject` of the `ReadParser` of a `JsonRpcSerializerHelperObject`. -/
def readNamed : (Ts : Tys) → List Bytes → JsonValue → Ts.Values → ParseM Ts.Values Ts.Values
  | .nil, _, _, _ => .ok ()
  | .cons T Ts, argNames, v, (old, olds) => do
    let value ← within (fun left => (left, olds))
      (readReflectField T.setNull (argNames.headD []) {} (Json.parserRead conv env T {}) v old)
    let values ← within (fun left => (value, left)) (readNamed Ts argNames.tail v olds)
    .ok (value, values)

/-- `read` of the `ReadParser` of a `JsonRpcSerializerHelperObject`, for a tuple with names. -/
def readHelper (Ts : Tys) (argNames : List Bytes) (v : JsonValue) (old : Ts.Values) :
    ParseM Ts.Values Ts.Values :=
  if argNames.length ≠ Ts.length then
    keeping old (fail .invalidLength "Named JSON-RPC params count does not match tuple size")
  else if v.isObject then readNamed conv env Ts argNames v old
  else Json.parserRead conv env (.tuple Ts) {} v old

/-- The read of named parameters, for a tuple. -/
def readTupleParams (argNames : List Bytes) (size : ℕ) (Ts : Tys) (v : JsonValue)
    (old : Ts.Values) : ParseM Ts.Values Ts.Values :=
  if argNames.length ≠ size then
    keeping old (fail .invalidLength "Named JSON-RPC params count does not match params size")
  else if size = 0 then
    keeping old (fail .invalidType "Named JSON-RPC params require tuple parameters")
  else readReflectField none paramsName {} (readHelper conv env Ts argNames) v old

/-- The read of named parameters. -/
def readNamedParams (argNames : List Bytes) (size : ℕ) :
    (T : Ty) → JsonValue → T.Value → ParseM T.Value T.Value
  | .tuple Ts, v, old => readTupleParams conv env argNames size Ts v old
  | _, _, old =>
    keeping old (if argNames.length ≠ size then
        fail .invalidLength "Named JSON-RPC params count does not match params size"
      else fail .invalidType "Named JSON-RPC params require tuple parameters")

/-- The read of the parameters by `JsonRpcRequestParser::read`. -/
def readParams (signature : MethodSignature) (v : JsonValue)
    (old : (paramsTupleType signature.args).Value) :
    ParseM (paramsTupleType signature.args).Value (paramsTupleType signature.args).Value :=
  let T := paramsTupleType signature.args
  if signature.argNames ≠ [] then
    readNamedParams conv env signature.argNames (paramsSize signature.args) T v old
  else readReflectField T.setNull paramsName {} (Json.parserRead conv env T {}) v old

/-- `JsonRpcRequestParser::read`: of its fields, only the parameters are used. -/
def readRequest (signature : MethodSignature) (v : JsonValue) :
    Except Error (paramsTupleType signature.args).Value := do
  let T := paramsTupleType signature.args
  let _ ← toObject v
  let _ ← readField conv env (.optional .string) jsonrpcName v (some version)
  let _ ← readField conv env .string methodName v []
  let _ ← readId v
  match readParams conv env signature v (env.default T) with
  | .ok params => .ok params
  | .error e => if isNullAble T ∧ e.error.code = .invalidField then .ok e.left else .error e.error

variable {conv env} in
/-- `decodeParams`. -/
def decodeParams (signature : MethodSignature) (request : DecodedRequest conv env) :
    Except Rpc.ErrorCode (paramsTupleType signature.args).Value :=
  match readRequest conv env signature request.value with
  | .ok params => .ok params
  | .error _ => .error JsonRpcError.invalidRequest.toErrorCode

variable {conv env} in
/-- A method as the dispatcher sees it. -/
def handlerOf (signature : MethodSignature) : Rpc.Handler (DecodedRequest conv env) :=
  ⟨fun request => (decodeParams signature request).map fun _ => ()⟩

end

/-! ## Parameters that lack something -/

section

variable (conv : Conversions) (env : Env)

/-- A member of a named argument is missing, or lacks something. -/
def LacksNamed : (Ts : Tys) → List Bytes → JsonValue → Ts.Values → Prop
  | .nil, _, _, _ => False
  | .cons T Ts, argNames, v, (old, olds) =>
    LacksField T.setNull (argNames.headD []) {} (fun w => Lacks conv env T {} w old) v ∨
      (∃ value, readReflectField T.setNull (argNames.headD []) {} (Json.parserRead conv env T {}) v
        old = .ok value) ∧ LacksNamed Ts argNames.tail v olds

/-- Named parameters lack something: by their names, or as a tuple. -/
def LacksNamedParams (argNames : List Bytes) (size : ℕ) :
    (T : Ty) → JsonValue → T.Value → Prop
  | .tuple Ts, w, old =>
    argNames.length = size ∧ size ≠ 0 ∧ argNames.length = Ts.length ∧
      if w.isObject then LacksNamed conv env Ts argNames w old
      else Lacks conv env (.tuple Ts) {} w old
  | _, _, _ => False

/-- The first thing that is wrong with the parameters of a request is that something is missing, or
there twice. -/
def LacksParams (signature : MethodSignature) (w : JsonValue) : Prop :=
  let T := paramsTupleType signature.args
  if signature.argNames ≠ [] then
    LacksNamedParams conv env signature.argNames (paramsSize signature.args) T w (env.default T)
  else ¬(w.isNull = true ∧ T.setNull.isSome = true) ∧ Lacks conv env T {} w (env.default T)

end

section

variable {conv : Conversions} {env : Env}

theorem readNamed_misses_iff : ∀ (Ts : Tys) (argNames : List Bytes) (v : JsonValue)
    (olds : Ts.Values), Misses (Json.result (readNamed conv env Ts argNames v olds)) ↔
      LacksNamed conv env Ts argNames v olds
  | .nil, _, _, _ => iff_of_false (misses_ok ()) id
  | .cons T Ts, argNames, v, (old, olds) => by
    rw [readNamed, LacksNamed]
    exact misses_parts (misses_within.trans (readReflectField_misses_iff
      (fun w => parserRead_misses_iff T {} w old) v)) within_eq_ok
      (readNamed_misses_iff Ts argNames.tail v olds)

/-- A field that is there, of a type without a null. -/
theorem readReflectField_present {α : Type} {null : Option α} {read : JsonValue → α → ParseM α α}
    {members : List (Bytes × JsonValue)} {w : JsonValue} {old : α} {lacks : Prop}
    (hpresent : findMember paramsName members = some w)
    (hread : Misses (Json.result (read w old)) ↔ lacks) :
    Misses (Json.result (readReflectField null paramsName {} read (.object members) old)) ↔
      ¬(w.isNull = true ∧ null.isSome = true) ∧ lacks := by
  rw [readReflectField_object]
  have hfield : findMember (Tags.fieldName {} paramsName) members = some w := hpresent
  rw [hfield, Option.elim_some, readPresentField_misses_iff, hread]

theorem readHelper_misses_iff (Ts : Tys) (argNames : List Bytes) (w : JsonValue)
    (old : Ts.Values) :
    Misses (Json.result (readHelper conv env Ts argNames w old)) ↔
      argNames.length = Ts.length ∧
        if w.isObject then LacksNamed conv env Ts argNames w old
        else Lacks conv env (.tuple Ts) {} w old := by
  unfold readHelper
  refine misses_sized ?_
  cases w.isObject with
  | true => exact readNamed_misses_iff Ts argNames w old
  | false => exact parserRead_misses_iff (.tuple Ts) {} w old

theorem readTupleParams_misses_iff {argNames : List Bytes} {size : ℕ} {Ts : Tys}
    {members : List (Bytes × JsonValue)} {w : JsonValue} {old : Ts.Values}
    (hpresent : findMember paramsName members = some w) :
    Misses (Json.result (readTupleParams conv env argNames size Ts (.object members) old)) ↔
      LacksNamedParams conv env argNames size (.tuple Ts) w old := by
  unfold readTupleParams
  refine misses_sized ?_
  by_cases hsize : size = 0
  · rw [if_pos hsize]
    exact misses_keeping.trans (iff_of_false (by simp) fun h => h.1 hsize)
  · rw [if_neg hsize, and_iff_right hsize,
      readReflectField_present hpresent (readHelper_misses_iff Ts argNames w old)]
    refine and_iff_right ?_
    rintro ⟨-, h⟩
    cases h

theorem readNamedParams_misses_iff {argNames : List Bytes} {size : ℕ} (T : Ty)
    {members : List (Bytes × JsonValue)} {w : JsonValue} (old : T.Value)
    (hpresent : findMember paramsName members = some w) :
    Misses (Json.result (readNamedParams conv env argNames size T (.object members) old)) ↔
      LacksNamedParams conv env argNames size T w old := by
  have hother : ∀ β : Type, ∀ old : β, ¬Misses (Json.result (keeping old
      (if argNames.length ≠ size then
        fail .invalidLength "Named JSON-RPC params count does not match params size"
      else fail .invalidType "Named JSON-RPC params require tuple parameters") : ParseM β β)) := by
    intro β old
    rw [result_keeping]
    split_ifs <;> simp
  cases T with
  | tuple Ts => exact readTupleParams_misses_iff hpresent
  | _ => exact iff_of_false (hother _ old) id

theorem readParams_misses_iff (signature : MethodSignature) {members : List (Bytes × JsonValue)}
    {w : JsonValue} (hpresent : findMember paramsName members = some w) :
    Misses (Json.result (readParams conv env signature (.object members)
      (env.default (paramsTupleType signature.args)))) ↔ LacksParams conv env signature w := by
  unfold readParams LacksParams
  simp only
  split_ifs
  · exact readNamedParams_misses_iff _ _ hpresent
  · exact readReflectField_present hpresent (parserRead_misses_iff _ {} w _)

/-! ## Requests -/

/-- An optional field is read whatever its target holds. -/
theorem readOptional_target {T : Ty} {name : Bytes} {members : List (Bytes × JsonValue)}
    {old out : Option T.Value} (old' : Option T.Value)
    (hread : readField conv env (.optional T) name (.object members) old = .ok out) :
    readField conv env (.optional T) name (.object members) old' = .ok out := by
  have hold := readField_object conv env (.optional T) name members old
  have hold' := readField_object conv env (.optional T) name members old'
  rw [hold']
  rw [hold] at hread
  cases hfind : findMember name members with
  | none =>
    rw [hfind, Option.elim_none] at hread
    rw [Option.elim_none]
    have hmissing := readMissingField_eq_ok.mp (result_eq_ok.mp hread)
    simp only [Bool.false_eq_true, if_false] at hmissing
    exact result_eq_ok.mpr (readMissingField_eq_ok.mpr hmissing)
  | some w =>
    rw [hfind, Option.elim_some] at hread
    rw [Option.elim_some]
    have hpresent := readPresentField_eq_ok.mp (result_eq_ok.mp hread)
    refine result_eq_ok.mpr (readPresentField_eq_ok.mpr ?_)
    by_cases hnull : w.isNull = true ∧ (Ty.optional T).setNull.isSome = true
    · rw [if_pos hnull] at hpresent ⊢
      exact hpresent
    · rw [if_neg hnull] at hpresent ⊢
      exact parserRead_optional_eq_ok.mpr (parserRead_optional_eq_ok.mp hpresent)

/-- **Of a decoded request, only the parameters can fail.** -/
theorem readRequest_eq (signature : MethodSignature) (request : DecodedRequest conv env) :
    ∃ members, request.value = .object members ∧
      readRequest conv env signature request.value =
        match readParams conv env signature (.object members)
          (env.default (paramsTupleType signature.args)) with
        | .ok params => .ok params
        | .error e =>
          if isNullAble (paramsTupleType signature.args) ∧ e.error.code = .invalidField then
            .ok e.left
          else .error e.error := by
  have hread := request.read
  unfold readRequestMethod at hread
  obtain ⟨members, hobject, jsonrpc, hjsonrpc, method, hmethod, id, hid, -⟩ := by
    simpa only [bind_eq_ok] using hread
  have hvalue : request.value = .object members := toObject_eq_ok.mp hobject
  rw [hvalue] at hjsonrpc hmethod hid
  refine ⟨members, hvalue, ?_⟩
  unfold readRequest
  rw [hvalue]
  have hversion := readOptional_target (some version : Option Ty.string.Value) hjsonrpc
  have hmembers : toObject (.object members) = .ok members := rfl
  simp only [hmembers, hversion, hmethod, hid]
  rfl

/-- The parameters do not decode to the types of the arguments. -/
def Malformed (signature : MethodSignature) (request : DecodedRequest conv env) : Prop :=
  ∀ params, readParams conv env signature request.value
    (env.default (paramsTupleType signature.args)) ≠ .ok params

/-- **Malformed parameters are an error**, unless what is wrong first is excused. -/
theorem decodeParams_eq_error_iff {signature : MethodSignature}
    {request : DecodedRequest conv env} {members : List (Bytes × JsonValue)} {w : JsonValue}
    (hvalue : request.value = .object members) (hpresent : findMember paramsName members = some w)
    (hmalformed : Malformed signature request) :
    decodeParams signature request = .error JsonRpcError.invalidRequest.toErrorCode ↔
      ¬(isNullAble (paramsTupleType signature.args) = true ∧
        LacksParams conv env signature w) := by
  obtain ⟨members', hvalue', heq⟩ := readRequest_eq signature request
  obtain rfl : members = members' := JsonValue.object.inj (hvalue.symm.trans hvalue')
  have hmisses : _ ↔ LacksParams conv env signature w := readParams_misses_iff signature hpresent
  unfold decodeParams
  rw [heq]
  cases hparams : readParams conv env signature (.object members)
      (env.default (paramsTupleType signature.args)) with
  | ok params => exact absurd (hvalue ▸ hparams) (hmalformed params)
  | error e =>
    rw [hparams] at hmisses
    have hcode : e.error.code = .invalidField ↔ LacksParams conv env signature w :=
      misses_error.symm.trans hmisses
    simp only
    by_cases hexcused : isNullAble (paramsTupleType signature.args) = true ∧
        e.error.code = .invalidField
    · rw [if_pos hexcused]
      refine iff_of_false (fun h => by cases h) fun h => h ⟨hexcused.1, hcode.mp hexcused.2⟩
    · rw [if_neg hexcused]
      exact iff_of_true rfl fun h => hexcused ⟨h.1, hcode.mpr h.2⟩

/-- **Malformed parameters are refused**: exactly where what is wrong first is not a missing field
among parameters that can be left out, the answer is an error with the id of the request, whatever
the method would do. -/
theorem malformed_params_refused_iff (text : JsonText) (nullForEmpty : Bool)
    (conv : Conversions) (env : Env) (message : Rpc.ErrorCode → Bytes) (options : Options)
    (signature : MethodSignature) (request : DecodedRequest conv env)
    (members : List (Bytes × JsonValue)) (w : JsonValue)
    (hvalue : request.value = .object members) (hpresent : findMember paramsName members = some w)
    (hmalformed : Malformed signature request) :
    (decodeParams signature request = .error JsonRpcError.invalidRequest.toErrorCode ∧
      ∀ invocation, Rpc.handle (jsonRpcBackend text nullForEmpty conv env message options)
        (handlerOf signature) request invocation =
          if expectsResponse request then
            [protocolError nullForEmpty conv message request.method.id
              JsonRpcError.invalidRequest.toErrorCode]
          else []) ↔
      ¬(isNullAble (paramsTupleType signature.args) = true ∧
        LacksParams conv env signature w) := by
  refine Iff.trans (and_iff_left_of_imp fun hdecode invocation => ?_)
    (decodeParams_eq_error_iff hvalue hpresent hmalformed)
  have hhandler : (handlerOf signature).decodeParams request =
      .error JsonRpcError.invalidRequest.toErrorCode := by
    show (decodeParams signature request).map _ = _
    rw [hdecode]
    rfl
  unfold Rpc.handle
  rw [hhandler]
  show appendError text nullForEmpty conv message request _ = _
  unfold appendError appendProtocolError
  rw [toJsonValue_protocolError]
  rfl

end

/-- A call of the method `m` with parameters and the id 1. -/
def callMembers (params : JsonValue) : List (Bytes × JsonValue) :=
  [(jsonrpcName, .string version), (methodName, .string [0x6D]), (paramsName, params),
    (idName, .integer one)]

/-- `m(std::int64_t, std::string)`. -/
def twoArgs : MethodSignature where
  args := .cons (.arithmetic (.integer true .w64)) (.cons .string .nil)
  argNames := []

/-- `[1,null]`. -/
def wrongParams : JsonValue := .array [.integer one, .null]

def wrongRequest : DecodedRequest noConversions Env.zero :=
  callOf (.object (callMembers wrongParams)) (by rfl)

theorem malformed_params_refused_iff_element :
    (wrongRequest.value = .object (callMembers wrongParams) ∧
      findMember paramsName (callMembers wrongParams) = some wrongParams ∧
      Malformed twoArgs wrongRequest) ∧
    ∀ invocation, Rpc.handle (jsonRpcBackend TextWriter.plainText true noConversions Env.zero
      (fun _ => []) {}) (handlerOf twoArgs) wrongRequest invocation =
        [protocolError true noConversions (fun _ => []) (.integer 1)
          JsonRpcError.invalidRequest.toErrorCode] := by
  have hmalformed : Malformed twoArgs wrongRequest := by
    intro params h
    cases h
  have hrefused := (malformed_params_refused_iff TextWriter.plainText true noConversions Env.zero
    (fun _ => []) {} twoArgs wrongRequest (callMembers wrongParams) wrongParams rfl rfl
    hmalformed).mpr fun h => absurd h.1 (by decide)
  exact ⟨⟨rfl, rfl, hmalformed⟩, hrefused.2⟩

/-- `m(std::optional<P>)`, with a class `P` that has a field `x`. -/
def optionalArg : MethodSignature where
  args :=
    .cons (.optional (.object false (.cons [0x78] {} (.arithmetic (.integer true .w64)) .nil)))
    .nil
  argNames := []

def emptyRequest : DecodedRequest noConversions Env.zero :=
  callOf (.object (callMembers (.object []))) (by rfl)

/-- The parameters `{}` have no `x`, and the method is called without parameters. -/
theorem missing_field_excused :
    findMember paramsName (callMembers (.object [])) = some (.object []) ∧
      Malformed optionalArg emptyRequest ∧
      Rpc.handle (jsonRpcBackend TextWriter.plainText true noConversions Env.zero
        (fun _ => []) {}) (handlerOf optionalArg) emptyRequest (.returned (.ok ⟨none, ()⟩)) =
          [success true noConversions none (.integer 1) ()] := by
  refine ⟨rfl, fun params h => ?_, rfl⟩
  cases h

end NekoProto.JsonRpc
