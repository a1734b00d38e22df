import ClusterCache.Http.Exchange

/-!
# Calls between nodes

A request for a key of another node is sent there as an HTTP request with the request in its
body.  The reply is what the response says, and a failure to forward if the response reports an
error or cannot be read.
-/

namespace ClusterCache

namespace Call

/-- The message that a call carries, as wire text. -/
def text (c : Call) : List Char :=
  match c.request.command with
  | .put value ttl => Message.encode (⟨c.request.key, value, ttl⟩ : PeerPut)
  | .get => Message.encode (⟨c.request.key⟩ : PeerGet)
  | .delete => Message.encode (⟨c.request.key⟩ : PeerDelete)

def toHttp (c : Call) : Http.Request :=
  { method := "POST"
    target := "/rpc/" ++ c.request.command.verb
    contentType := some "application/json"
    body := Text.utf8 (String.ofList c.text) }

/-- Why a response is no answer to a call. -/
inductive Trouble where
  /-- It reports an error. -/
  | status (code : Nat)
  /-- Its body is not the message expected. -/
  | unreadable
deriving DecidableEq, Repr

def Trouble.text : Trouble → String
  | .status code => "status " ++ toString code
  | .unreadable => "answer not understood"

/-- The reply to a call that failed on the way, with what happened. -/
def failed (c : Call) (what : String) : Reply :=
  .failed (.forwarding (c.request.command.verb ++ " " ++ c.address ++ ": " ++ what))

/-- The reply to a change that the owner says it has not made. -/
def undone (what : String) : Reply := .failed (.forwarding ("remote " ++ what ++ " reported failure"))

/-- Reads the message in the body of a response. -/
def readBody {α : Type} [Message α] (body : List UInt8) (use : α → Reply) : Except Trouble Reply :=
  match Message.decode (Text.decodeUtf8 body) with
  | .ok m => .ok (use m)
  | .error _ => .error .unreadable

/-- Whether responses with a status never have a body. -/
def isBodiless (status : Nat) : Bool := status < 200 || status = 204 || status = 304

def read (c : Call) (status : Nat) (body : List UInt8) : Except Trouble Reply :=
  if 400 ≤ status ∧ status < 600 then .error (.status status)
  else
    let body := if isBodiless status then [] else body
    match c.request.command with
    | .put _ _ => readBody body fun (m : PeerPutAnswer) =>
        if m.success then .done none else undone "PUT"
    | .get => readBody body fun (m : PeerGetAnswer) => .done m.toValue
    | .delete => readBody body fun (m : PeerDeleteAnswer) =>
        if m.success then .done none else undone "DELETE"

/-- The reply that a response amounts to. -/
def outcome (c : Call) (status : Nat) (body : List UInt8) : Reply :=
  match c.read status body with
  | .ok reply => reply
  | .error trouble => c.failed trouble.text

/-- The reply to a call that nobody answers. -/
def unreachable (c : Call) : Reply := .failed (.forwarding ("no route to " ++ c.address))

end Call

end ClusterCache
