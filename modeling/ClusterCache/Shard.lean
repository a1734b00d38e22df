import ClusterCache.EventQueue
import ClusterCache.Ring
import ClusterCache.Store

/-!
# A shard

The share of the cache that one node holds, and the worker that alone reads and writes it.
Anybody may submit a request: it is refused, or it waits in a bounded queue and its sender holds
a ticket.  The worker takes the requests in order.  It executes those whose key the node owns and
hands the others on to their owners, and it waits for nobody: a request handed on is out of the
queue, and its reply arrives some time later.

The worker dies when handing a request on goes wrong in the worker itself.  Its store goes with
it, and whatever waited is answered that there is no worker.
-/

namespace ClusterCache

open Std

/-- A shard.  `size` is the number of entries as last made known, `replies` holds the replies
that have come, by ticket. -/
structure Shard where
  ring : Ring
  capacity : Nat
  events : EventQueue
  store : Store := ∅
  queue : List (Nat × Request) := []
  size : Nat := 0
  counters : Counters := {}
  alive : Bool := true
  tickets : Nat := 0
  replies : ExtTreeMap Nat Reply := ∅

namespace Shard

/-- A shard without entries whose queue has room for `capacity` requests, and for one at least. -/
def make (ring : Ring) (capacity : Nat) (events : EventQueue) : Shard :=
  { ring, capacity := max 1 capacity, events }

/-- Submits a request: the ticket for its reply, or why it is refused.  The key is looked at
first. -/
def submit (s : Shard) (r : Request) : Shard × Except Failure Nat :=
  if r.key = "" then (s, .error .emptyKey)
  else if !s.alive then (s, .error .workerUnavailable)
  else if s.capacity ≤ s.queue.length then (s, .error .overloaded)
  else
    ({ s with queue := s.queue ++ [(s.tickets, r)], tickets := s.tickets + 1 }, .ok s.tickets)

def answer (s : Shard) (ticket : Nat) (reply : Reply) : Shard :=
  { s with replies := s.replies.insert ticket reply }

/-- Offers an event to the event queue and counts it if it is lost for want of room. -/
def offer (s : Shard) (e : Event) : Shard :=
  let (events, offer) := s.events.offer e
  { s with events, counters := s.counters.noteOffer offer }

def execute (s : Shard) (now : UInt64) (ticket : Nat) (r : Request) : Shard :=
  let effect := s.store.execute s.counters now r
  let s := { s with store := effect.store, counters := effect.counters, size := effect.store.size }
  let s := effect.event.elim s s.offer
  s.answer ticket (.done effect.value)

/-- The worker takes the next request, if there is one.  What it hands on comes back with the
ticket that waits for the reply. -/
def work (s : Shard) (now : UInt64) : Shard × Option (Nat × Call) :=
  match s.queue with
  | [] => (s, none)
  | (ticket, r) :: queue =>
    let s := { s with queue }
    let owner := s.ring.owner r.key
    if owner = s.ring.localId then (s.execute now ticket r, none)
    else
      match s.ring.address? owner with
      | none => (s.answer ticket (.failed (.addressUnknown owner)), none)
      | some address => (s, some (ticket, ⟨address, r⟩))

/-- The worker dies while it hands on the request of a ticket. -/
def die (s : Shard) (ticket : Nat) : Shard :=
  let orphans := ticket :: s.queue.map (·.1)
  { s with
    store := ∅
    queue := []
    alive := false
    events := s.events.dropSender
    replies := orphans.foldl (fun rs t => rs.insert t (.failed .workerUnavailable)) s.replies }

/-- Adds a member to the ring of the shard; also says whether it was added. -/
def addMember (s : Shard) (id address : String) : Shard × Bool :=
  let (ring, added) := s.ring.add id address
  ({ s with ring }, added)

/-- Removes a member from the ring of the shard; also says whether it was active. -/
def removeMember (s : Shard) (id : String) : Shard × Bool :=
  let (ring, removed) := s.ring.remove id
  ({ s with ring }, removed)

end Shard

end ClusterCache
