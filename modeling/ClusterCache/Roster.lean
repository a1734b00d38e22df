import ClusterCache.Text.Blank

/-!
# Membership lists

The members of a cluster are written as `id=address` pairs with commas between them.  Blanks
around pairs and around the first equals sign do not count, a pair without an equals sign uses
its id as address, and a pair without an id is skipped.
-/

namespace ClusterCache

/-- A member of the cluster and where it can be reached. -/
structure Member where
  id : String
  address : String
deriving DecidableEq, Repr

namespace Member

/-- The member that one pair of a list describes. -/
def ofPair? (pair : List Char) : Option Member :=
  let pair := Text.trim pair
  let (id, address) := match Text.splitFirst? '=' pair with
    | some (id, address) => (Text.trim id, Text.trim address)
    | none => (pair, pair)
  if id.isEmpty then none else some ⟨String.ofList id, String.ofList address⟩

/-- The members that a list describes, in order. -/
def parseList (text : String) : List Member := (Text.split ',' text.toList).filterMap ofPair?

end Member

end ClusterCache
