import ClusterCache.Forwarding
import ClusterCache.Service
import ClusterCache.Settings

/-!
# Hosts

A node as it stands in a cluster: its shard, its keeper, and what it tells about itself.  The
keeper may work in the background, pass after pass, until it is asked to stop; it looks at that
wish only between two passes.
-/

namespace ClusterCache

/-- Whether the keeper of a host works in the background. -/
inductive Background where
  | idle
  | running (stopping : Bool)
  | ended
deriving DecidableEq, Repr

/-- A node of a cluster.  A host without a keeper leaves its events to others. -/
structure Host where
  shard : Shard
  keeper : Option Keeper
  background : Background := .idle
  timeoutMs : Nat
  policy : PolicyKind
  maximumSize : Nat
  address : Option String := none

namespace Host

/-- A host with a ring and settings.  Its event queue has the given number of senders, its keeper
the given patience. -/
def make (s : Settings) (ring : Ring) (senders : Nat) (pollMs : Option Nat) : Host :=
  { shard := Shard.make ring s.requestCapacity (EventQueue.make s.eventCapacity senders)
    keeper := pollMs.map (Keeper.make s.policy s.maximumSize)
    timeoutMs := s.timeoutMs
    policy := s.policy
    maximumSize := s.maximumSize }

def gauges (h : Host) : Gauges := h.keeper.elim {} (·.gauges)

def report (h : Host) : Http.Report :=
  ⟨h.shard.ring.localId, h.policy, h.shard.size, h.maximumSize, h.shard.counters, h.gauges⟩

/-- The sign of life of a host at a time. -/
def health (h : Host) (timestamp : String) : HealthAnswer :=
  ⟨"healthy", h.shard.ring.localId, h.shard.ring.isReady, timestamp⟩

/-- The keeper starts a pass if it rests. -/
def beginPass (h : Host) (clock : Clock) : Host := { h with keeper := h.keeper.map (·.begin clock) }

/-- The keeper goes on with its pass until the pass is over or has to wait. -/
def runKeeper (listing : Listing) (clock : Clock) (fuel : Nat) (h : Host) : Host :=
  match h.keeper with
  | none => h
  | some k =>
    let (shard, k) := k.run listing clock fuel h.shard
    { h with shard, keeper := some k }

def isResting (h : Host) : Bool := h.keeper.all (·.isResting)

/-- The keeper ends its work in the background and reads no more events. -/
def endBackground (h : Host) : Host :=
  { h with
    background := .ended
    shard := { h.shard with events := h.shard.events.close } }

/-- Whether the work in the background is over. -/
def hasEnded (h : Host) : Bool := h.background = .ended

end Host

end ClusterCache
