import ClusterCache.Entry

/-!
# Events

An event tells the upkeep of a node what its store has done to a key.
-/

namespace ClusterCache

/-- What was done to a key.  A put carries the entry it stored, when the teller knows it. -/
inductive Change where
  | put (entry : Option Entry)
  | get
  | delete
deriving DecidableEq, Repr

/-- A change of one key. -/
structure Event where
  key : String
  change : Change
deriving DecidableEq, Repr

/-- The name of the kind of change. -/
def Change.name : Change → String
  | .put _ => "PUT"
  | .get => "GET"
  | .delete => "DELETE"

def Change.entry? : Change → Option Entry
  | .put entry => entry
  | _ => none

end ClusterCache
