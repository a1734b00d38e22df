import ClusterCache.EventQueue

/-!
# Counters

What a node has done since it started.
-/

namespace ClusterCache

/-- The seven counters of a node. -/
structure Counters where
  hits : Nat := 0
  misses : Nat := 0
  puts : Nat := 0
  removes : Nat := 0
  evictions : Nat := 0
  expirations : Nat := 0
  droppedEvents : Nat := 0
deriving DecidableEq, Repr

namespace Counters

/-- Counts a read that found its key. -/
def hit (c : Counters) : Counters := { c with hits := c.hits + 1 }

def miss (c : Counters) : Counters := { c with misses := c.misses + 1 }

def put (c : Counters) : Counters := { c with puts := c.puts + 1 }

/-- Counts a deletion that removed an entry. -/
def remove (c : Counters) : Counters := { c with removes := c.removes + 1 }

/-- Counts an entry given up for want of room. -/
def evict (c : Counters) : Counters := { c with evictions := c.evictions + 1 }

/-- Counts an entry given up because its time had come. -/
def expire (c : Counters) : Counters := { c with expirations := c.expirations + 1 }

/-- Counts an event lost because the event queue was full. -/
def drop (c : Counters) : Counters := { c with droppedEvents := c.droppedEvents + 1 }

/-- Counts an event that was offered if it is lost for want of room, and only then. -/
def noteOffer (c : Counters) (offer : Offer) : Counters :=
  match offer with
  | .full => c.drop
  | _ => c

/-- The share of reads that found their key, and zero before the first read.  Both counts are
rounded to doubles before they are divided. -/
def hitRate (c : Counters) : Float :=
  let reads := c.hits + c.misses
  if reads = 0 then 0 else c.hits.toUInt64.toFloat / reads.toUInt64.toFloat

end Counters

end ClusterCache
