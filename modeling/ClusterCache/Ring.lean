import Std.Data.ExtTreeMap.Basic
import ClusterCache.Digest.Sha256
import ClusterCache.Text.Utf8

/-!
# The hash ring

Every member of the cluster holds a fixed number of positions on a ring of `2 ^ 64` places, and a
key belongs to the member at the first position at or after the key's own place, going round past
the end to the lowest position.  Adding or removing a member therefore moves only the keys
between its positions and the ones before them.

A position that two members claim stays with the later one; removing a member takes away only
the positions it still holds.
-/

namespace ClusterCache

open Std

/-- The place of a text on the ring: the first eight bytes of its digest, read as one number. -/
def place (text : String) : UInt64 :=
  let digest := Digest.sha256 (Text.utf8 text)
  digest.a.toUInt64 <<< 32 ||| digest.b.toUInt64

/-- The text whose place is the `i`-th position of a member. -/
def positionLabel (id : String) (i : Nat) : String := id ++ "-" ++ toString i

/-- A node's view of the ring.  `positions` says which member holds a position, `members` gives
the address of every active member. -/
structure Ring where
  localId : String
  replicas : Nat
  positions : ExtTreeMap UInt64 String
  members : ExtTreeMap String String

namespace Ring

/-- The ring without members; it has at least one position a member. -/
def empty (localId : String) (replicas : Nat) : Ring := ⟨localId, max 1 replicas, ∅, ∅⟩

def claims (r : Ring) (id : String) : List UInt64 :=
  (List.range r.replicas).map fun i => place (positionLabel id i)

/-- The holder of the first position at or after a place, going round past the end. -/
def holder? (r : Ring) (start : UInt64) : Option String :=
  let held := r.positions.toList
  ((held.find? fun p => start ≤ p.1).or held.head?).map (·.2)

/-- The member that owns a key; the local node owns everything while the ring is empty. -/
def owner (r : Ring) (key : String) : String := (r.holder? (place key)).getD r.localId

/-- Whether the local node owns a key. -/
def isLocal (r : Ring) (key : String) : Bool := r.owner key = r.localId

def contains (r : Ring) (id : String) : Bool := r.members.contains id

/-- The ids of the active members, in order. -/
def ids (r : Ring) : List String := r.members.keys

/-- The address of an active member; an empty one counts as none. -/
def address? (r : Ring) (id : String) : Option String :=
  r.members[id]?.filter (· ≠ "")

/-- Adds a member at an address, unless it is active already; also says whether it was added. -/
def add (r : Ring) (id address : String) : Ring × Bool :=
  if r.contains id then (r, false)
  else
    ({ r with
        positions := (r.claims id).foldl (fun held p => held.insert p id) r.positions
        members := r.members.insert id address }, true)

/-- Adds a member whose id is its address. -/
def addById (r : Ring) (id : String) : Ring × Bool := r.add id id

/-- Gives up a position if the member holds it. -/
def release (id : String) (held : ExtTreeMap UInt64 String) (p : UInt64) :
    ExtTreeMap UInt64 String :=
  if held[p]? = some id then held.erase p else held

/-- Removes a member and the positions it holds; also says whether it was active. -/
def remove (r : Ring) (id : String) : Ring × Bool :=
  if r.contains id then
    ({ r with
        positions := (r.claims id).foldl (release id) r.positions
        members := r.members.erase id }, true)
  else (r, false)

def size (r : Ring) : Nat := r.positions.size

def isReady (r : Ring) : Bool := !r.positions.isEmpty

end Ring

end ClusterCache
