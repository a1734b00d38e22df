import ClusterCache.Event

/-!
# The event queue

A bounded queue between the store of a node and its upkeep.  Whoever offers an event never
waits: the queue takes it, or it is full, or nobody will ever read it.  Events already taken can
still be read after the last sender is gone.
-/

namespace ClusterCache

/-- Events waiting in order, the oldest first. -/
structure EventQueue where
  capacity : Nat
  waiting : List Event := []
  senders : Nat := 1
  hasReader : Bool := true

/-- What became of an event that was offered. -/
inductive Offer where
  | accepted
  | full
  | closed
deriving DecidableEq, Repr

namespace EventQueue

/-- A queue with room for `capacity` events, and for one at least. -/
def make (capacity : Nat) (senders : Nat) : EventQueue := { capacity := max 1 capacity, senders }

def offer (q : EventQueue) (e : Event) : EventQueue × Offer :=
  if !q.hasReader then (q, .closed)
  else if q.capacity ≤ q.waiting.length then (q, .full)
  else ({ q with waiting := q.waiting ++ [e] }, .accepted)

def take? (q : EventQueue) : Option (Event × EventQueue) :=
  match q.waiting with
  | [] => none
  | e :: rest => some (e, { q with waiting := rest })

def dropSender (q : EventQueue) : EventQueue := { q with senders := q.senders - 1 }

/-- Gives up the reader, and with it the events that wait. -/
def close (q : EventQueue) : EventQueue := { q with waiting := [], hasReader := false }

/-- Whether no event waits and none can come any more. -/
def isExhausted (q : EventQueue) : Bool := q.waiting.isEmpty && q.senders = 0

/-- Waits at most `millis` for an event while nobody offers one: the event, if one was waiting,
and how long that took.  Nothing comes before the time is up, senders or not. -/
def poll (q : EventQueue) (millis : Nat) : Option Event × EventQueue × Nat :=
  match q.take? with
  | some (e, rest) => (some e, rest, 0)
  | none => (none, q, millis)

end EventQueue

end ClusterCache
