import NekoProto.Rpc.ClientCorrelation
import NekoProto.Rpc.ServerSafety

/-!
# A client, a server and the network

One client of a server that has others too, as a step relation in which the steps of the client,
of the server and of all their coroutines interleave. The network between them loses, repeats and
reorders messages and brings them to one side at any time, but it makes up none: a message that the
server dispatches on a connection of the client is a request that was handed to the client's end of
it, and a response that the client receives was sent by the server on that connection. Hellos and
cancellations on the connections of the client, and whatever the other clients send, are left open.

An end of a connection of the client is an endpoint of `RpcClient`, the other one a connection of
`RpcServer`; the client and the server are those of `rpc/client.hpp` and `rpc/server.hpp`.
-/

namespace NekoProto.Rpc

section

variable (Id Context ClientSession Method ClientValue Session Request Response : Type)

/-- A client and a server, with the connection that each endpoint of the client leads to, and the
requests that were handed to its endpoints. -/
structure RpcSystem where
  client : ClientState Id Context ClientSession Method ClientValue
  server : RpcServer Id Session Request Response := {}
  links : List ℕ := []
  requests : List (ℕ × MessageType) := []

end

/-- One step of either side. -/
inductive SystemAction (Id ClientSession Method Value : Type)
  /-- the client gets an endpoint, the server the connection that it leads to -/
  | connect
  | client (action : ClientAction Id ClientSession Method)
  | server (action : ServerAction Id Value)

/-- An attempt of a call begins. -/
def SystemAction.isAttempt {Id ClientSession Method Value : Type} :
    SystemAction Id ClientSession Method Value → Bool
  | .client (.attempt _) => true
  | _ => false

/-- The request that a call hands to its endpoint. -/
def ClientCall.sending {Id Method Value : Type} (call : ClientCall Id Method Value) :
    Option (ℕ × MessageType) :=
  match call.endpoint, call.phase with
  | some endpoint, .sending message => some (endpoint, message)
  | _, _ => none

section

variable {Id Context ClientSession Method ClientValue Session Request Response Value : Type}

/-- The requests that are handed to endpoints. -/
def ClientState.sending (s : ClientState Id Context ClientSession Method ClientValue) :
    List (ℕ × MessageType) :=
  s.calls.filterMap ClientCall.sending

/-- Whether a message goes to the dispatcher, if it is valid. -/
def ConnectionBackend.dispatches (backend : ConnectionBackend Id Session Request Response Value)
    (session : Session) (message : MessageType) : Bool :=
  match backend.cancelId message with
  | some _ => false
  | none =>
    match backend.handleServerControl session message with
    | .ok (_, none) => true
    | _ => false

namespace RpcSystem

variable (clientBackend : ClientBackend Id Context ClientSession Method ClientValue)
  (serverBackend : ConnectionBackend Id Session Request Response Value)
  (config : DispatcherConfig Request)
  (s : RpcSystem Id Context ClientSession Method ClientValue Session Request Response)

/-- A message may arrive at a connection of the server: what is dispatched, on a connection of the
client, is one of its requests. -/
def carriesRequest (connection : ℕ) (message : MessageType) : Bool :=
  match s.server.slots[connection]? with
  | none => false
  | some slot =>
    !serverBackend.dispatches slot.session message ||
      (List.range s.links.length).all fun endpoint =>
        s.links[endpoint]? ≠ some connection || (endpoint, message) ∈ s.requests

/-- A message may arrive at an endpoint of the client: a response was sent on its connection. -/
def carriesResponse (endpoint : ℕ) (message : MessageType) : Bool :=
  (clientBackend.responseId message).isNone ||
    match s.links[endpoint]? with
    | none => false
    | some connection =>
      match s.server.slots[connection]? with
      | none => false
      | some slot => slot.sent.any fun sent => sent = message

/-- What the network allows. The client gets its endpoints by `connect`. -/
def carries : SystemAction Id ClientSession Method Value → Bool
  | .client .setEndpoint => false
  | .client (.receive endpoint message) => s.carriesResponse clientBackend endpoint message
  | .server (.receive connection (some message) _) =>
    s.carriesRequest serverBackend connection message
  | _ => true

/-- One step of the system. -/
def step [DecidableEq Id] (action : SystemAction Id ClientSession Method Value) :
    Option (RpcSystem Id Context ClientSession Method ClientValue Session Request Response) :=
  if s.carries clientBackend serverBackend action then
    match action with
    | .connect =>
      some { s with
        client := s.client.setEndpoint
        server := s.server.addEndpoint serverBackend
        links := s.links ++ [s.server.slots.length] }
    | .client action =>
      (s.client.step clientBackend action).map fun client =>
        { s with client := client, requests := s.requests ++ client.sending }
    | .server action =>
      (s.server.step serverBackend config action).map fun server => { s with server := server }
  else none

/-- Several steps. -/
def run [DecidableEq Id] : List (SystemAction Id ClientSession Method Value) →
    RpcSystem Id Context ClientSession Method ClientValue Session Request Response →
    Option (RpcSystem Id Context ClientSession Method ClientValue Session Request Response)
  | [], s => some s
  | action :: actions, s => (s.step clientBackend serverBackend config action).bind (run actions)

/-- A new client and a new server. -/
def new (context : Context) :
    RpcSystem Id Context ClientSession Method ClientValue Session Request Response where
  client := .new clientBackend context

end RpcSystem

end

end NekoProto.Rpc
