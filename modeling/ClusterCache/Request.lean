import ClusterCache.Failure

/-!
# Requests and replies
-/

namespace ClusterCache

/-- What a request wants done with its key. -/
inductive Command where
  | put (value : String) (ttl : UInt64)
  | get
  | delete
deriving DecidableEq, Repr

/-- A request about one key. -/
structure Request where
  key : String
  command : Command
deriving DecidableEq, Repr

/-- What became of a request.  Only a read that found its key has a value. -/
inductive Reply where
  | done (value : Option String)
  | failed (failure : Failure)
deriving DecidableEq, Repr

/-- A request on its way to another node. -/
structure Call where
  address : String
  request : Request
deriving DecidableEq, Repr

/-- The word for what a command does, as routes between nodes and their logs spell it. -/
def Command.verb : Command → String
  | .put _ _ => "put"
  | .get => "get"
  | .delete => "delete"

/-- A call as a line of the log. -/
def Call.line (c : Call) : String :=
  let start := c.request.command.verb ++ " " ++ c.address ++ " " ++ c.request.key
  match c.request.command with
  | .put value ttl => start ++ "=" ++ value ++ " ttl=" ++ toString ttl.toNat
  | _ => start

end ClusterCache
