import ClusterCache.Keeper
import ClusterCache.Message

/-!
# HTTP requests and responses

As much of HTTP as the routes of a node look at.  A response has no body, or a message, or the
report on a node.
-/

namespace ClusterCache.Http

open Wire

/-- A request.  The target is a path, perhaps with a query. -/
structure Request where
  method : String
  target : String
  contentType : Option String := none
  body : List UInt8 := []
deriving DecidableEq, Repr

/-- What a node says about itself. -/
structure Report where
  nodeId : String
  policy : PolicyKind
  size : Nat
  maximumSize : Nat
  counters : Counters
  gauges : Gauges
deriving DecidableEq, Repr

/-- The body of a response. -/
inductive Body where
  | none
  | message (members : List (String × Datum))
  | report (r : Report)
deriving DecidableEq, Repr

/-- A response. -/
structure Response where
  status : Nat
  body : Body := .none
deriving DecidableEq, Repr

def Response.ofMessage {α : Type} [Message α] (status : Nat) (m : α) : Response :=
  ⟨status, .message (Message.members m)⟩

/-- The bytes of a message in a response. -/
def Response.bytes (r : Response) : List UInt8 :=
  match r.body with
  | .message members => Text.utf8 (String.ofList (writeObject members))
  | _ => []

/-- The path of a target: all before its query, and nothing of a fragment. -/
def pathOf (target : String) : List Char :=
  (target.toList.takeWhile (· ≠ '#')).takeWhile (· ≠ '?')

/-- The query of a target: all after the first question mark, and nothing of a fragment. -/
def queryOf (target : String) : List Char :=
  ((target.toList.takeWhile (· ≠ '#')).dropWhile (· ≠ '?')).drop 1

end ClusterCache.Http
