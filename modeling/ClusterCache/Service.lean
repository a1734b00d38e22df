import ClusterCache.Http.Exchange
import ClusterCache.Http.MediaType
import ClusterCache.Http.Query

/-!
# Routes of a node

Callers put, get and delete keys under `/cache`; other nodes do the same under `/rpc`; `/stats`
and `/health` tell how the node is.  A route either answers at once or asks the shard for
something, and answers when the reply is there.  Both surfaces ask the shard in the same words,
they only read and answer differently.
-/

namespace ClusterCache

namespace Service

/-- Who is asking. -/
inductive Surface where
  | callers
  | peers
deriving DecidableEq, Repr

/-- What a request over HTTP comes to. -/
inductive Intent where
  /-- An answer that needs no look at the node. -/
  | answered (r : Http.Response)
  /-- A request to the shard. -/
  | ask (surface : Surface) (r : Request)
  /-- A report on the node. -/
  | report
  /-- A sign of life. -/
  | health
deriving DecidableEq, Repr

/-- What is found under a path. -/
inductive Resource where
  | cache
  | peerPut
  | peerGet
  | peerDelete
  | stats
  | health
deriving DecidableEq, Repr

/-- The resource under a path; paths are compared as they are. -/
def Resource.ofPath? (path : List Char) : Option Resource :=
  if path = "/cache".toList then some .cache
  else if path = "/rpc/put".toList then some .peerPut
  else if path = "/rpc/get".toList then some .peerGet
  else if path = "/rpc/delete".toList then some .peerDelete
  else if path = "/stats".toList then some .stats
  else if path = "/health".toList then some .health
  else none

def bodyLimit : Nat := 2 * 1024 * 1024

/-- Reads the message in the body of a request, or answers why that cannot be done. -/
def readBody {α : Type} [Message α] (r : Http.Request) (use : α → Intent) : Intent :=
  if !(r.contentType.any Http.isJson) then .answered ⟨415, .none⟩
  else if bodyLimit < r.body.length then .answered ⟨413, .none⟩
  else
    match Message.decodeFront (Text.decodeUtf8 r.body) with
    | .ok m => use m
    | .error .malformed => .answered ⟨400, .none⟩
    | .error .mistyped => .answered ⟨422, .none⟩

/-- Reads the key in the query of a request. -/
def readKey (r : Http.Request) (use : KeyQuery → Intent) : Intent :=
  match Http.queryKey? (Http.queryOf r.target) with
  | some key => use ⟨key⟩
  | none => .answered ⟨400, .none⟩

/-- What an order to put comes to. -/
def ofOrder (m : PutOrder) : Intent :=
  match m.validate with
  | .ok value => .ask .callers ⟨m.key, .put value m.ttl⟩
  | .error f => .answered (.ofMessage f.status (PutAnswer.failed f))

/-- What a request over HTTP comes to.  Asking for the options of a path is always answered, and
asking for the head of a resource does what getting it does. -/
def read (r : Http.Request) : Intent :=
  if r.method = "OPTIONS" then .answered ⟨200, .none⟩
  else
    match Resource.ofPath? (Http.pathOf r.target) with
    | none => .answered ⟨404, .none⟩
    | some resource =>
      match resource, if r.method = "HEAD" then "GET" else r.method with
      | .cache, "GET" => readKey r fun m => .ask .callers ⟨m.key, .get⟩
      | .cache, "DELETE" => readKey r fun m => .ask .callers ⟨m.key, .delete⟩
      | .cache, "PUT" => readBody r ofOrder
      | .peerPut, "POST" => readBody r fun (m : PeerPut) => .ask .peers ⟨m.key, .put m.value m.ttl⟩
      | .peerGet, "POST" => readBody r fun (m : PeerGet) => .ask .peers ⟨m.key, .get⟩
      | .peerDelete, "POST" => readBody r fun (m : PeerDelete) => .ask .peers ⟨m.key, .delete⟩
      | .stats, "GET" => .report
      | .health, "GET" => .health
      | _, _ => .answered ⟨405, .none⟩

/-- The answer to a request once its reply is there. -/
def answer (surface : Surface) (command : Command) (reply : Reply) : Http.Response :=
  match surface, reply with
  | .callers, .done value =>
    match command with
    | .put _ _ => .ofMessage 200 ({ stored := true } : PutAnswer)
    | .get => .ofMessage 200 ({ value } : GetAnswer)
    | .delete => .ofMessage 200 ({ removed := true } : DeleteAnswer)
  | .callers, .failed f =>
    match command with
    | .put _ _ => .ofMessage f.status (PutAnswer.failed f)
    | .get => .ofMessage f.status (GetAnswer.failed f)
    | .delete => .ofMessage f.status (DeleteAnswer.failed f)
  | .peers, .done value =>
    match command with
    | .put _ _ => .ofMessage 200 (⟨true⟩ : PeerPutAnswer)
    | .get => .ofMessage 200 (PeerGetAnswer.ofValue value)
    | .delete => .ofMessage 200 (⟨true⟩ : PeerDeleteAnswer)
  | .peers, .failed f => .ofMessage f.status (ErrorAnswer.ofFailure f)

/-- The response as it is sent: the head of a resource has no body. -/
def send (r : Http.Request) (response : Http.Response) : Http.Response :=
  if r.method = "HEAD" then { response with body := .none } else response

end Service

end ClusterCache
