import NekoProto.JsonRpc.Request

/-!
# Requests, from the client to the server

What the server makes of the message that a client encodes for a call.

1. The members of a request are read back under their names, so that its version, its method and
   its id are what the client put there (`decodeRequest_members`).
2. The parameters are read back exactly where they survive JSON, as one value or as members under
   the names of the arguments (`readParams_iff`).
3. **A call arrives** as one request with its method, its id and its parameters exactly where the
   text carries its doubles, it is within the limits of the server, and its parameters survive or
   what is missing of them is excused and leaves them (`request_arrives_iff`).
-/

namespace NekoProto.JsonRpc

open Binary Parsing Json JsonValue
open Rpc (MessageType)
open Outcome (bind_eq_ok)

/-! ## Parameters that survive -/

section

variable (nullForEmpty : Bool) (conv : Conversions) (env : Env) (f : BitVec 64 → BitVec 64)

/-- Named arguments survive, among the members of an object. -/
def SurvivesNamed : (Ts : Tys) → List Bytes → List (Bytes × JsonValue) →
    (olds values : Ts.Values) → Prop
  | .nil, _, _, _, _ => True
  | .cons T Ts, argNames, members, (old, olds), (value, values) =>
    SurvivesField T.setNull false (findMember (argNames.headD []) members)
      (parserWrite nullForEmpty conv T {} value) (Survives nullForEmpty conv env f T {} old value)
      (fun w => Json.parserRead conv env T {} (mapDoubles f w) old = .ok value) old value ∧
    SurvivesNamed Ts argNames.tail members olds values

/-- Named parameters survive. -/
def SurvivesNamedParams (argNames : List Bytes) : (T : Ty) → (old params : T.Value) → Prop
  | .tuple Ts, old, params =>
    SurvivesNamed nullForEmpty conv env f Ts argNames
      (writeNamed nullForEmpty conv Ts argNames params) old params
  | _, _, _ => False

/-- The parameters of a call survive. -/
def SurvivesParams (signature : MethodSignature)
    (params : (paramsTupleType signature.args).Value) : Prop :=
  let T := paramsTupleType signature.args
  let own := parserWrite nullForEmpty conv T {} params
  if signature.argNames ≠ [] then
    SurvivesNamedParams nullForEmpty conv env f signature.argNames T (env.default T) params
  else
    SurvivesField T.setNull false (written nullForEmpty (T.optionalLike && !T.hasValue params) own)
      own (Survives nullForEmpty conv env f T {} (env.default T) params)
      (fun w => Json.parserRead conv env T {} (mapDoubles f w) (env.default T) = .ok params)
      (env.default T) params

/-- Parameters of which something is missing, where nothing has to be there, and what was read of
them until then is `params`. -/
def Excused (signature : MethodSignature) (v : JsonValue)
    (params : (paramsTupleType signature.args).Value) : Prop :=
  isNullAble (paramsTupleType signature.args) = true ∧
    ∃ e, readParams conv env signature v (env.default (paramsTupleType signature.args)) =
      .error e ∧ e.error.code = .invalidField ∧ e.left = params

end

section

variable {text : JsonText} {nullForEmpty : Bool} {conv : Conversions} {env : Env}
  {message : Rpc.ErrorCode → Bytes} {f : BitVec 64 → BitVec 64}

/-- **Named arguments are read back** exactly where they survive. -/
theorem readNamed_iff : ∀ (Ts : Tys) (argNames : List Bytes)
    (members : List (Bytes × JsonValue)) (olds values : Ts.Values),
    readNamed conv env Ts argNames (.object (mapDoublesMembers f members)) olds = .ok values ↔
      SurvivesNamed nullForEmpty conv env f Ts argNames members olds values
  | .nil, _, _, _, _ => iff_of_true rfl trivial
  | .cons T Ts, argNames, members, (old, olds), (value, values) => by
    rw [readNamed, SurvivesNamed]
    refine pair_eq_ok.trans (and_congr (within_eq_ok.trans ?_) ?_)
    · refine readReflectField_iff ?_
      exact parserRead_parserWrite_iff T {} old value
    · exact readNamed_iff Ts argNames.tail members olds values

/-! ## The members of a request -/

/-- The members of a request before its parameters. -/
def envelope (nullForEmpty : Bool) (conv : Conversions) (method : Bytes) (id : JsonRpcId) :
    List (Bytes × JsonValue) :=
  writeField nullForEmpty conv (.optional .string) jsonrpcName (some version) ++
    writeField nullForEmpty conv .string methodName method ++ writeId nullForEmpty id

theorem findMember_envelope (method : Bytes) (id : JsonRpcId) (sought : Bytes) :
    findMember sought (envelope nullForEmpty conv method id) =
      ((if jsonrpcName = sought then some (.string version) else none).or
        (if methodName = sought then some (.string method) else none)).or
        (if idName = sought then written nullForEmpty id.isMonostate id.write else none) := by
  unfold envelope writeField writeId
  rw [findMember_append, findMember_append, findMember_writeReflectField,
    findMember_writeReflectField, findMember_writeReflectField]
  rfl

/-- The member that named parameters are written as. -/
def namedMember (nullForEmpty : Bool) (conv : Conversions) (argNames : List Bytes) :
    (T : Ty) → T.Value → Option JsonValue
  | .tuple Ts, values => some (.object (writeNamed nullForEmpty conv Ts argNames values))
  | _, _ => none

/-- The member that parameters are written as, if any. -/
def paramsMember (nullForEmpty : Bool) (conv : Conversions) (signature : MethodSignature)
    (params : (paramsTupleType signature.args).Value) : Option JsonValue :=
  let T := paramsTupleType signature.args
  if signature.argNames ≠ [] then namedMember nullForEmpty conv signature.argNames T params
  else
    written nullForEmpty (T.optionalLike && !T.hasValue params)
      (parserWrite nullForEmpty conv T {} params)

/-- Named parameters that are written are a tuple, with a name for each element. -/
theorem writeTupleParams_eq_ok {argNames : List Bytes} {size : ℕ} {Ts : Tys} {values : Ts.Values}
    {members : List (Bytes × JsonValue)} :
    writeTupleParams nullForEmpty conv argNames size Ts values = .ok members ↔
      argNames.length = size ∧ size ≠ 0 ∧ argNames.length = Ts.length ∧
        members = [(paramsName, .object (writeNamed nullForEmpty conv Ts argNames values))] := by
  unfold writeTupleParams writeHelper
  by_cases hlength : argNames.length = size
  · rw [if_neg (not_not.mpr hlength), and_iff_right hlength]
    by_cases hsize : size = 0
    · rw [if_pos hsize]
      exact iff_of_false fail_ne_ok fun h => h.1 hsize
    · rw [if_neg hsize, and_iff_right hsize]
      by_cases hnames : argNames.length = Ts.length
      · rw [if_neg (not_not.mpr hnames), and_iff_right hnames]
        exact ok_eq_ok.trans eq_comm
      · rw [if_pos hnames]
        refine iff_of_false (fun h => ?_) fun h => hnames h.1
        cases h
  · rw [if_pos hlength]
    exact iff_of_false fail_ne_ok fun h => hlength h.1

theorem findMember_singleton (name sought : Bytes) (v : JsonValue) :
    findMember sought [(name, v)] = if name = sought then some v else none := by
  have hfind := findMember_writeReflectField true false name sought v
  exact hfind

/-- **The parameters of a written request** are its member of that name. -/
theorem findMember_writeParams {signature : MethodSignature}
    {params : (paramsTupleType signature.args).Value} {members : List (Bytes × JsonValue)}
    (h : writeParams nullForEmpty conv signature params = .ok members) (sought : Bytes) :
    findMember sought members =
      if paramsName = sought then paramsMember nullForEmpty conv signature params else none := by
  unfold writeParams at h
  unfold paramsMember
  by_cases hnames : signature.argNames ≠ []
  · rw [if_pos hnames] at h ⊢
    generalize paramsTupleType signature.args = T at params h ⊢
    cases T with
    | tuple Ts =>
      obtain ⟨-, -, -, rfl⟩ := writeTupleParams_eq_ok.mp h
      exact findMember_singleton paramsName sought _
    | _ =>
      simp only [writeNamedParams] at h
      split_ifs at h <;> exact absurd h fail_ne_ok
  · rw [if_neg hnames] at h ⊢
    obtain rfl := Except.ok.inj h
    exact findMember_writeReflectField ..

/-! ## Reading the parameters -/

/-- Named parameters are read back exactly where they survive. -/
theorem readNamedParams_iff {argNames : List Bytes} {size : ℕ} {T : Ty} {old params : T.Value}
    {members ms : List (Bytes × JsonValue)}
    (hwrite : writeNamedParams nullForEmpty conv argNames size T params = .ok ms)
    (hfind : findMember paramsName members = namedMember nullForEmpty conv argNames T params) :
    readNamedParams conv env argNames size T (.object (mapDoublesMembers f members)) old =
        .ok params ↔
      SurvivesNamedParams nullForEmpty conv env f argNames T old params := by
  cases T with
  | tuple Ts =>
    obtain ⟨hlength, hsize, hnames, -⟩ := writeTupleParams_eq_ok.mp hwrite
    have hown : readHelper conv env Ts argNames
        (mapDoubles f (.object (writeNamed nullForEmpty conv Ts argNames params))) old =
          .ok params ↔
        SurvivesNamedParams nullForEmpty conv env f argNames (.tuple Ts) old params := by
      unfold readHelper
      rw [if_neg (not_not.mpr hnames)]
      exact readNamed_iff Ts argNames _ old params
    have hread : readReflectField none paramsName {} (readHelper conv env Ts argNames)
        (.object (mapDoublesMembers f members)) old = .ok params ↔ _ :=
      readReflectField_iff hown
    have hmember : findMember (Tags.fieldName {} paramsName) members = _ := hfind
    show readTupleParams conv env argNames size Ts (.object (mapDoublesMembers f members)) old =
      .ok params ↔ _
    unfold readTupleParams
    rw [if_neg (not_not.mpr hlength), if_neg hsize, hread, hmember]
    unfold SurvivesField namedMember
    simp
  | _ =>
    simp only [writeNamedParams] at hwrite
    split_ifs at hwrite <;> exact absurd hwrite fail_ne_ok

/-- **The parameters of a request are read back** exactly where they survive. -/
theorem readParams_iff {signature : MethodSignature}
    {params : (paramsTupleType signature.args).Value} {members ms : List (Bytes × JsonValue)}
    (hwrite : writeParams nullForEmpty conv signature params = .ok ms)
    (hfind : findMember paramsName members = paramsMember nullForEmpty conv signature params) :
    readParams conv env signature (.object (mapDoublesMembers f members))
        (env.default (paramsTupleType signature.args)) = .ok params ↔
      SurvivesParams nullForEmpty conv env f signature params := by
  unfold writeParams at hwrite
  unfold paramsMember at hfind
  unfold readParams SurvivesParams
  simp only
  by_cases hnames : signature.argNames ≠ []
  · rw [if_pos hnames] at hwrite hfind
    rw [if_pos hnames, if_pos hnames]
    exact readNamedParams_iff hwrite hfind
  · rw [if_neg hnames] at hfind
    rw [if_neg hnames, if_neg hnames, ← hfind]
    exact readReflectField_iff (parserRead_parserWrite_iff _ {} _ params)

/-- What the method is called with is read, or what is left where that is excused. -/
theorem decodeParams_eq_ok {signature : MethodSignature} {request : DecodedRequest conv env}
    {params : (paramsTupleType signature.args).Value} :
    decodeParams signature request = .ok params ↔
      readParams conv env signature request.value
          (env.default (paramsTupleType signature.args)) = .ok params ∨
        Excused conv env signature request.value params := by
  obtain ⟨members, hvalue, heq⟩ := readRequest_eq signature request
  unfold decodeParams Excused
  rw [heq, hvalue]
  cases readParams conv env signature (.object members)
      (env.default (paramsTupleType signature.args)) with
  | ok read =>
    simp only
    constructor
    · intro h
      exact Or.inl (congrArg Except.ok (Except.ok.inj h))
    · rintro (h | ⟨-, e, h, -⟩)
      · exact congrArg Except.ok (Except.ok.inj h)
      · cases h
  | error e =>
    simp only
    split_ifs with hexcused
    · constructor
      · intro h
        exact Or.inr ⟨hexcused.1, e, rfl, hexcused.2, Except.ok.inj h⟩
      · rintro (h | ⟨-, e', h, -, hleft⟩)
        · cases h
        · obtain rfl := Except.error.inj h
          exact congrArg Except.ok hleft
    · refine iff_of_false (fun h => by cases h) ?_
      rintro (h | ⟨hnullAble, e', h, hcode, -⟩)
      · cases h
      · obtain rfl := Except.error.inj h
        exact hexcused ⟨hnullAble, hcode⟩

/-! ## Requests -/

/-- The members of a request. -/
def requestMembers (nullForEmpty : Bool) (conv : Conversions) (method : Bytes) (id : JsonRpcId)
    (params : List (Bytes × JsonValue)) : List (Bytes × JsonValue) :=
  envelope nullForEmpty conv method id ++ params

theorem writeRequest_eq_ok {method : RemoteMethod} {id : JsonRpcId} {v : JsonValue} :
    writeRequest nullForEmpty conv method id = .ok v ↔
      ∃ params, writeParams nullForEmpty conv method.signature method.params = .ok params ∧
        v = .object (requestMembers nullForEmpty conv method.name id params) := by
  unfold writeRequest
  cases writeParams nullForEmpty conv method.signature method.params with
  | error e =>
    constructor
    · intro h
      cases h
    · rintro ⟨params, h, -⟩
      cases h
  | ok params =>
    constructor
    · intro h
      exact ⟨params, rfl, (Except.ok.inj h).symm⟩
    · rintro ⟨params', h, rfl⟩
      obtain rfl := Except.ok.inj h
      rfl

section

variable {method : RemoteMethod} {id : JsonRpcId} {params : List (Bytes × JsonValue)}
  (hwrite : writeParams nullForEmpty conv method.signature method.params = .ok params)

include hwrite

theorem findMember_requestMembers (sought : Bytes) :
    findMember sought (requestMembers nullForEmpty conv method.name id params) =
      (((if jsonrpcName = sought then some (.string version) else none).or
        (if methodName = sought then some (.string method.name) else none)).or
        (if idName = sought then written nullForEmpty id.isMonostate id.write else none)).or
        (if paramsName = sought then
          paramsMember nullForEmpty conv method.signature method.params
        else none) := by
  unfold requestMembers
  rw [findMember_append, findMember_envelope, findMember_writeParams hwrite]

/-- **The envelope of a request is read back.** -/
theorem readRequestMethod_members :
    readRequestMethod conv env (.object (mapDoublesMembers f
        (requestMembers nullForEmpty conv method.name id params))) =
      .ok ⟨some version, method.name, id⟩ := by
  have hjsonrpc : readField conv env (.optional .string) jsonrpcName (.object (mapDoublesMembers f
      (requestMembers nullForEmpty conv method.name id params))) none = .ok (some version) := by
    have hfind : findMember jsonrpcName (mapDoublesMembers f
        (requestMembers nullForEmpty conv method.name id params)) = some (.string version) := by
      rw [findMember_mapDoubles, findMember_requestMembers hwrite]
      rfl
    exact (readOptional_eq_ok hfind).mpr ⟨version, rfl, rfl⟩
  have hmethod : readField conv env .string methodName (.object (mapDoublesMembers f
      (requestMembers nullForEmpty conv method.name id params))) [] = .ok method.name := by
    have hread := readField_object conv env .string methodName (mapDoublesMembers f
      (requestMembers nullForEmpty conv method.name id params)) []
    rw [findMember_mapDoubles, findMember_requestMembers hwrite] at hread
    exact hread
  have hid : readId (.object (mapDoublesMembers f
      (requestMembers nullForEmpty conv method.name id params))) = .ok id := by
    have hfind : findMember idName (mapDoublesMembers f
        (requestMembers nullForEmpty conv method.name id params)) =
          written nullForEmpty id.isMonostate id.write := by
      rw [findMember_mapDoubles, findMember_requestMembers hwrite, if_neg (by decide),
        if_neg (by decide), if_pos rfl, if_neg (by decide), Option.none_or, Option.none_or,
        Option.or_none, written_map]
      cases id <;> rfl
    exact readId_eq hfind
  unfold readRequestMethod
  refine bind_eq_ok.mpr ⟨_, rfl, ?_⟩
  rw [hjsonrpc, hmethod, hid]
  rfl

/-- The parameters of a request are read back exactly where they survive. -/
theorem readParams_members_iff :
    readParams conv env method.signature (.object (mapDoublesMembers f
        (requestMembers nullForEmpty conv method.name id params)))
        (env.default (paramsTupleType method.signature.args)) = .ok method.params ↔
      SurvivesParams nullForEmpty conv env f method.signature method.params := by
  refine readParams_iff hwrite ?_
  rw [findMember_requestMembers hwrite, if_neg (by decide), if_neg (by decide),
    if_neg (by decide), if_pos rfl, Option.none_or, Option.none_or, Option.none_or]

end

theorem decodeRequest_eq {v : JsonValue} {method : RequestMethod}
    (hread : readRequestMethod conv env v = .ok method) (hobject : v.isObject = true)
    (hversion : method.jsonrpc = some version) :
    decodeRequest conv env v = some ⟨v, method, hread, hversion⟩ := by
  unfold decodeRequest
  split
  · rename_i error h
    cases hread.symm.trans h
  · rename_i method' h
    obtain rfl := Except.ok.inj (hread.symm.trans h)
    exact dif_pos ⟨hobject, hversion⟩

/-! ## Messages -/

/-- What a client sends for a call. -/
theorem encodeRequest_eq_ok {context context' : ClientContext} {method : RemoteMethod}
    {notification : Bool} {bytes : MessageType} {id : JsonRpcId}
    (h : encodeRequest nullForEmpty conv text context method notification =
      (context', .ok (bytes, id))) :
    context.allocateId notification = (context', id) ∧
      ∃ v, writeRequest nullForEmpty conv method id = .ok v ∧ text.print v = some bytes := by
  unfold encodeRequest at h
  obtain ⟨hallocate, h⟩ : ∃ _ : context.allocateId notification =
      ((context.allocateId notification).1, (context.allocateId notification).2), _ := ⟨rfl, h⟩
  generalize (context.allocateId notification).1 = next at hallocate h
  generalize (context.allocateId notification).2 = allocated at hallocate h
  rw [hallocate] at h ⊢
  dsimp only at h
  split at h
  · cases h
  rename_i buffer hprint
  split_ifs at h
  · cases h
  cases h
  obtain ⟨v, hv, hbuffer⟩ := Option.bind_eq_some_iff.mp hprint
  refine ⟨rfl, v, ?_, hbuffer⟩
  cases hwrite : writeRequest nullForEmpty conv method id with
  | error e =>
    rw [hwrite] at hv
    cases hv
  | ok written =>
    rw [hwrite] at hv
    exact congrArg Except.ok (Option.some.inj hv)

/-- **What a server makes of a request**: one request, if it can parse the message. -/
theorem decodeIncoming_written {method : RemoteMethod} {id : JsonRpcId} {v : JsonValue}
    {bytes : MessageType} (server : Options)
    (hwrite : writeRequest nullForEmpty conv method id = .ok v)
    (hprint : text.print v = some bytes) :
    (¬(v.AllDoubles text.carries = true ∧ bytes.length ≤ server.maxMessageBytes) ∧
      ∃ error, decodeIncoming text nullForEmpty conv env message server bytes =
        refuse text nullForEmpty conv env message error) ∨
    (v.AllDoubles text.carries = true ∧ bytes.length ≤ server.maxMessageBytes) ∧
      ∃ request : DecodedRequest conv env,
        decodeIncoming text nullForEmpty conv env message server bytes =
          { requests := [request] } ∧
        request.value = mapDoubles text.reread v ∧
        request.method = ⟨some version, method.name, id⟩ := by
  obtain ⟨params, hparams, rfl⟩ := writeRequest_eq_ok.mp hwrite
  have hparse := text.parse_print
    (.object (requestMembers nullForEmpty conv method.name id params))
  rw [hprint, Option.bind_some] at hparse
  unfold decodeIncoming
  by_cases hlength : server.maxMessageBytes < bytes.length
  · rw [if_pos hlength]
    exact Or.inl ⟨fun h => absurd h.2 (Nat.not_le.mpr hlength), _, rfl⟩
  rw [if_neg hlength, hparse]
  by_cases hcarried : AllDoubles text.carries
      (.object (requestMembers nullForEmpty conv method.name id params)) = true
  · rw [if_pos hcarried]
    have hread : readRequestMethod conv env (.object (mapDoublesMembers text.reread
        (requestMembers nullForEmpty conv method.name id params))) =
          .ok ⟨some version, method.name, id⟩ := readRequestMethod_members hparams
    refine Or.inr ⟨⟨hcarried, Nat.not_lt.mp hlength⟩, ⟨_, _, hread, rfl⟩, ?_, rfl, rfl⟩
    show decodeRequests text nullForEmpty conv env message false [.object (mapDoublesMembers
      text.reread (requestMembers nullForEmpty conv method.name id params))] = _
    unfold decodeRequests
    rw [decodeRequest_eq hread rfl rfl]
    rfl
  · rw [if_neg hcarried]
    exact Or.inl ⟨fun h => hcarried h.1, _, rfl⟩

/-- What a call needs to arrive, with the value `v` that is printed for it: its doubles are carried
by the text, the message is within the limits of the server, and the parameters survive or are
excused. -/
structure Arrives (text : JsonText) (nullForEmpty : Bool) (conv : Conversions) (env : Env)
    (server : Options) (method : RemoteMethod) (v : JsonValue) (bytes : MessageType) : Prop where
  carried : v.AllDoubles text.carries = true
  length : bytes.length ≤ server.maxMessageBytes
  params : SurvivesParams nullForEmpty conv env text.reread method.signature method.params ∨
    Excused conv env method.signature (mapDoubles text.reread v) method.params

/-- **A call arrives** with its method, its id and its parameters, and is answered unless it is a
notification, exactly where `Arrives` holds of it. -/
theorem request_arrives_iff (text : JsonText) (nullForEmpty : Bool) (conv : Conversions)
    (env : Env) (message : Rpc.ErrorCode → Bytes) (client client' : ClientContext)
    (server : Options) (method : RemoteMethod) (notification : Bool) (bytes : MessageType)
    (id : JsonRpcId)
    (hencode : encodeRequest nullForEmpty conv text client method notification =
      (client', .ok (bytes, id))) :
    ∃ v, writeRequest nullForEmpty conv method id = .ok v ∧
      ((∃ request : DecodedRequest conv env,
          decodeIncoming text nullForEmpty conv env message server bytes =
            { requests := [request] } ∧
          request.method = ⟨some version, method.name, id⟩ ∧
          expectsResponse request = !notification ∧
          decodeParams method.signature request = .ok method.params) ↔
        Arrives text nullForEmpty conv env server method v bytes) := by
  obtain ⟨hallocate, v, hwrite, hprint⟩ := encodeRequest_eq_ok hencode
  refine ⟨v, hwrite, ?_⟩
  have hparams : ∀ request : DecodedRequest conv env, request.value = mapDoubles text.reread v →
      (decodeParams method.signature request = .ok method.params ↔
        SurvivesParams nullForEmpty conv env text.reread method.signature method.params ∨
          Excused conv env method.signature (mapDoubles text.reread v) method.params) := by
    intro request hvalue
    obtain ⟨params, hparams, rfl⟩ := writeRequest_eq_ok.mp hwrite
    rw [decodeParams_eq_ok, hvalue]
    exact or_congr (readParams_members_iff hparams) Iff.rfl
  rcases decodeIncoming_written server hwrite hprint with
    ⟨hnot, error, hdecode⟩ | ⟨⟨hcarried, hlength⟩, request, hdecode, hvalue, hmethod⟩
  · refine iff_of_false ?_ fun h => hnot ⟨h.carried, h.length⟩
    rintro ⟨request, hrequest, -⟩
    have hrequests := congrArg Rpc.Decoded.requests (hrequest.symm.trans hdecode)
    cases hrequests
  · constructor
    · rintro ⟨request', hrequest, -, -, hdecodeParams⟩
      have hrequests := congrArg Rpc.Decoded.requests (hrequest.symm.trans hdecode)
      obtain rfl := (List.cons.inj hrequests).1
      exact ⟨hcarried, hlength, (hparams request' hvalue).mp hdecodeParams⟩
    · intro h
      refine ⟨request, hdecode, hmethod, ?_, (hparams request hvalue).mpr h.params⟩
      have hid : id = (client.allocateId notification).2 := by rw [hallocate]
      unfold expectsResponse
      rw [hmethod, hid]
      cases notification <;> rfl

end

/-- A call of `m(std::int64_t a, std::string b)`, with names. -/
def namedCall : RemoteMethod where
  name := [0x6D]
  signature :=
    { args := .cons (.arithmetic (.integer true .w64)) (.cons .string .nil)
      argNames := [[0x61], [0x62]] }
  returns := none
  params := ((5 : BitVec 64), ([0x78] : Bytes), ())

theorem request_arrives_iff_named :
    ∃ bytes, encodeRequest true noConversions TextWriter.plainText {} namedCall false =
        ({ nextId := 1 }, .ok (bytes, .integer 0)) ∧
      ∃ request : DecodedRequest noConversions Env.zero,
        decodeIncoming TextWriter.plainText true noConversions Env.zero (fun _ => []) {} bytes =
          { requests := [request] } ∧
        request.method = ⟨some version, [0x6D], .integer 0⟩ ∧
        expectsResponse request = !false ∧
        decodeParams namedCall.signature request = .ok namedCall.params := by
  refine ⟨_, rfl, ?_⟩
  obtain ⟨v, hwrite, hiff⟩ := request_arrives_iff TextWriter.plainText true noConversions Env.zero
    (fun _ => []) {} { nextId := 1 } {} namedCall false _ (.integer 0) rfl
  obtain rfl := Except.ok.inj hwrite
  refine hiff.mpr ⟨rfl, ?_, Or.inl ?_⟩
  · decide
  · exact ⟨Or.inl ⟨rfl, trivial⟩, Or.inl ⟨rfl, trivial⟩, trivial⟩

end NekoProto.JsonRpc
