import ClusterCache.Eviction.Policy
import ClusterCache.Ring
import ClusterCache.Roster
import ClusterCache.Text.Decimal

/-!
# Settings

A node takes its settings from named texts of its environment.  A setting that is missing, or
that does not say what it should, has its default.
-/

namespace ClusterCache

/-- The settings of a node. -/
structure Settings where
  nodeId : String := "node-1"
  replicas : Nat := 10
  members : List Member := [⟨"node-1", "127.0.0.1:3000"⟩]
  maxSize : Nat := 1000
  headroom : Nat := 100
  policy : PolicyKind := .lfu
  upkeepThreads : Nat := 1
  timeoutMs : Nat := 500
  requestCapacity : Nat := 10000
  eventCapacity : Nat := 10000
  port : Nat := 3000

namespace Settings

/-- The number of entries above which a node gives entries up. -/
def maximumSize (s : Settings) : Nat := s.maxSize - s.headroom

def ofEnvironment (env : String → Option String) : Settings :=
  let number (limit : Nat) (name : String) : Option Nat :=
    (env name).bind fun text => Text.decimal? limit (Text.trim text.toList)
  let word := number UInt64.size
  let positive (name : String) : Option Nat := (word name).filter (0 < ·)
  let default : Settings := {}
  { nodeId := ((env "NODE_ID").filter fun id => !(Text.trim id.toList).isEmpty).getD default.nodeId
    replicas := (word "VIRTUAL_NODES").getD default.replicas
    members := (((env "CLUSTER_NODES").map Member.parseList).filter (!·.isEmpty)).getD
      default.members
    maxSize := (word "MAX_CACHE_SIZE").getD default.maxSize
    headroom := (word "HEADROOM").getD default.headroom
    policy := ((env "EVICTION_POLICY").bind PolicyKind.parse?).getD default.policy
    upkeepThreads := (positive "CLEANER_THREADS").getD default.upkeepThreads
    timeoutMs := (word "REQUEST_TIMEOUT_MS").getD default.timeoutMs
    requestCapacity := (positive "REQUEST_QUEUE_CAPACITY").getD default.requestCapacity
    eventCapacity := (positive "EVENT_QUEUE_CAPACITY").getD default.eventCapacity
    port := (number UInt16.size "SERVER_PORT").getD default.port }

/-- The ring of the members in the settings and of nobody else. -/
def listedRing (s : Settings) : Ring :=
  s.members.foldl (fun r m => (r.add m.id m.address).1) (Ring.empty s.nodeId s.replicas)

/-- The ring of a node: the members in its settings, and the node itself at a local address if
it is not among them. -/
def ring (s : Settings) : Ring :=
  let r := s.listedRing
  if r.contains s.nodeId then r else (r.add s.nodeId ("127.0.0.1:" ++ toString s.port)).1

end Settings

end ClusterCache
