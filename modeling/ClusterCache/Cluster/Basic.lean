import ClusterCache.Cluster.Host

/-!
# Clusters

Hosts that share a clock and a network.  A call from one to another ends in one of three ways: a
script says what becomes of calls to its address, or a host listens there and answers through its
routes, or nobody answers.

Time in milliseconds passes only when there is nothing left to do: then it goes on to the next
moment at which something has to happen.  What can be done at one moment is done in rounds, in
which every worker takes its turn, then every call under way, then every keeper in the
background.
-/

namespace ClusterCache

/-- How a scripted call ends. -/
inductive Ending where
  /-- The worker that makes the call dies of it. -/
  | fatal
  /-- There is never an answer. -/
  | silent
  /-- The call ends with a reply. -/
  | reply (failure : Option Failure) (value : Option String)

/-- What becomes of calls to an address, after a delay. -/
structure Script where
  delayMs : Nat := 0
  ending : Ending

/-- How far a call is under way. -/
inductive Progress where
  /-- Not sent yet. -/
  | launched
  /-- Its reply is due at a time. -/
  | due (millis : Nat) (reply : Reply)
  /-- It will never be answered. -/
  | silent
  /-- Another host has a ticket for it and answers with a failure after a time. -/
  | held (host ticket deadline : Nat)

/-- A call under way, and the ticket that waits for its reply. -/
structure Flight where
  host : Nat
  ticket : Nat
  call : Call
  progress : Progress := .launched

/-- Hosts, their clock and their network.  `log` holds the calls made, the latest last. -/
structure Cluster where
  hosts : List Host
  scripts : List (String × Script) := []
  clock : Clock
  flights : List Flight := []
  log : List Call := []

namespace Cluster

def host? (c : Cluster) (i : Nat) : Option Host := c.hosts[i]?

def modify (c : Cluster) (i : Nat) (change : Host → Host) : Cluster :=
  { c with hosts := c.hosts.modify i change }

def modifyShard (c : Cluster) (i : Nat) (change : Shard → Shard) : Cluster :=
  c.modify i fun h => { h with shard := change h.shard }

def script? (c : Cluster) (address : String) : Option Script := c.scripts.lookup address

/-- Sets or removes the script for an address. -/
def setScript (c : Cluster) (address : String) (script : Option Script) : Cluster :=
  let others := c.scripts.filter (·.1 ≠ address)
  { c with scripts := script.elim others fun s => (address, s) :: others }

/-- The host that listens at an address, the last of them if there are several. -/
def listener? (c : Cluster) (address : String) : Option Nat :=
  ((c.hosts.zipIdx.filter fun (h, _) => h.address = some address).getLast?).map (·.2)

def reply? (c : Cluster) (i ticket : Nat) : Option Reply :=
  (c.host? i).bind fun h => h.shard.replies[ticket]?

/-- Whether a call to an address kills the worker that makes it. -/
def isFatal (c : Cluster) (address : String) : Bool :=
  match c.script? address with
  | some ⟨_, .fatal⟩ => true
  | _ => false

/-! ## Workers -/

/-- The worker of a host takes its next request. -/
def work (c : Cluster) (i : Nat) : Cluster :=
  match c.host? i with
  | none => c
  | some h =>
    let (shard, handed) := h.shard.work c.clock.seconds
    let c := c.modifyShard i fun _ => shard
    match handed with
    | none => c
    | some (ticket, call) =>
      let c := { c with log := c.log ++ [call] }
      if c.isFatal call.address then c.modifyShard i (·.die ticket)
      else { c with flights := c.flights ++ [⟨i, ticket, call, .launched⟩] }

/-- Whether the worker of a host has something to do. -/
def hasWork (c : Cluster) (i : Nat) : Bool :=
  (c.host? i).any fun h => !h.shard.queue.isEmpty

/-- The worker of a host takes at most `count` requests. -/
def workTurn : Nat → Cluster → Nat → Cluster
  | 0, c, _ => c
  | count + 1, c, i => if c.hasWork i then workTurn count (c.work i) i else c

/-! ## Calls under way -/

/-- The reply that a host's answer to a call amounts to. -/
def peerReply (call : Call) (reply : Reply) : Reply :=
  let response := Service.answer .peers call.request.command reply
  call.outcome response.status response.bytes

/-- A host receives a call: the reply if there is one at once, or the ticket it waits for. -/
def receive (c : Cluster) (i : Nat) (call : Call) : Cluster × (Reply ⊕ Nat) :=
  match c.host? i, Service.read call.toHttp with
  | some h, .ask _ r =>
    match h.shard.submit r with
    | (shard, .ok ticket) => (c.modifyShard i fun _ => shard, .inr ticket)
    | (_, .error f) => (c, .inl (peerReply call (.failed f)))
  | _, .answered response => (c, .inl (call.outcome response.status response.bytes))
  | _, _ => (c, .inl call.unreachable)

/-- The reply at the end of a script. -/
def scriptedReply (call : Call) (failure : Option Failure) (value : Option String) : Reply :=
  match failure, call.request.command with
  | some f, _ => .failed f
  | none, .get => .done value
  | none, _ => .done none

/-- Sends a call: how it stands after that. -/
def launch (c : Cluster) (call : Call) : Cluster × Progress :=
  let now := c.clock.millis
  match c.script? call.address with
  | some ⟨delay, .reply failure value⟩ =>
    (c, .due (now + delay) (scriptedReply call failure value))
  | some ⟨_, _⟩ => (c, .silent)
  | none =>
    match c.listener? call.address with
    | none => (c, .due now call.unreachable)
    | some i =>
      let timeout := (c.host? i).elim 0 (·.timeoutMs)
      match c.receive i call with
      | (c, .inl reply) => (c, .due now reply)
      | (c, .inr ticket) =>
        if timeout = 0 then (c, .due now (peerReply call (.failed .timeout)))
        else (c, .held i ticket (now + timeout))

/-- What has become of a call that is under way: a reply, or how it stands now. -/
def follow (c : Cluster) (f : Flight) : Cluster × (Reply ⊕ Progress) :=
  let now := c.clock.millis
  let (c, progress) := match f.progress with
    | .launched => c.launch f.call
    | progress => (c, progress)
  match progress with
  | .due millis reply => (c, if millis ≤ now then .inl reply else .inr progress)
  | .held i ticket deadline =>
    match c.reply? i ticket with
    | some reply => (c, .inl (peerReply f.call reply))
    | none =>
      if deadline ≤ now then (c, .inl (peerReply f.call (.failed .timeout)))
      else (c, .inr progress)
  | _ => (c, .inr progress)

/-- Follows calls in order; those that are answered are under way no more. -/
def followAll : Cluster → List Flight → Cluster
  | c, [] => c
  | c, f :: fs =>
    match c.follow f with
    | (c, .inl reply) => followAll (c.modifyShard f.host fun s => s.answer f.ticket reply) fs
    | (c, .inr progress) =>
      followAll { c with flights := c.flights ++ [{ f with progress }] } fs

def flightTurn (c : Cluster) : Cluster := followAll { c with flights := [] } c.flights

/-- Whether a call can go on at this moment. -/
def canFollow (c : Cluster) (f : Flight) : Bool :=
  match f.progress with
  | .launched => true
  | .due millis _ => millis ≤ c.clock.millis
  | .silent => false
  | .held i ticket deadline => (c.reply? i ticket).isSome || deadline ≤ c.clock.millis

/-! ## Keepers -/

/-- How many steps anything is followed for.  No run that comes to rest needs more. -/
def patience : Nat := 1000000

/-- The keeper of a host goes on with its pass as far as it can. -/
def keep (c : Cluster) (i : Nat) : Cluster :=
  c.modify i (·.runKeeper Listing.ascending c.clock patience)

/-- Whether the keeper of a host can go on at this moment. -/
def canKeep (c : Cluster) (h : Host) : Bool :=
  h.keeper.any fun k => (k.step Listing.ascending c.clock h.shard).isSome

/-- The keeper of a host takes its turn in the background: it goes on with its pass, or starts
one, or ends its work if it is asked to. -/
def keeperTurn (c : Cluster) (i : Nat) : Cluster :=
  match c.host? i with
  | none => c
  | some h =>
    match h.background with
    | .running stopping =>
      if h.isResting then
        if stopping then c.modify i (·.endBackground)
        else (c.modify i (·.beginPass c.clock)).keep i
      else c.keep i
    | _ => c

/-- Whether the keeper of a host has something to do in the background. -/
def canTurn (c : Cluster) (h : Host) : Bool :=
  match h.background with
  | .running _ => h.isResting || c.canKeep h
  | _ => false

/-! ## Rounds and time -/

/-- How many requests a worker takes in its turn. -/
def burst : Nat := 128

/-- Whether there is something to do at this moment. -/
def isBusy (c : Cluster) : Bool :=
  (List.range c.hosts.length).any c.hasWork || c.flights.any c.canFollow
    || c.hosts.any c.canTurn

/-- The hosts whose next request came in a call, in the order of the calls. -/
def called (c : Cluster) : List Nat :=
  c.flights.filterMap fun f =>
    match f.progress with
    | .held i ticket _ =>
      if (c.host? i).any fun h => h.shard.queue.head?.any (·.1 = ticket) then some i else none
    | _ => none

/-- The order in which workers take their turns: those that were called come first. -/
def workOrder (c : Cluster) : List Nat :=
  let called := c.called
  called ++ (List.range c.hosts.length).filter fun i => !called.contains i

def round (c : Cluster) : Cluster :=
  let c := c.workOrder.foldl (workTurn burst) c
  let c := c.flightTurn
  (List.range c.hosts.length).foldl keeperTurn c

/-- Rounds until there is nothing left to do at this moment, at most `fuel` of them. -/
def settle : Nat → Cluster → Cluster
  | 0, c => c
  | fuel + 1, c => if c.isBusy then settle fuel c.round else c

/-- The moments at which something has to happen. -/
def deadlines (c : Cluster) : List Nat :=
  let flights := c.flights.filterMap fun f =>
    match f.progress with
    | .due millis _ => some millis
    | .held _ _ deadline => some deadline
    | _ => none
  let keepers := c.hosts.filterMap fun h =>
    match h.background with
    | .running _ => h.keeper.bind (·.deadline?)
    | _ => none
  flights ++ keepers

/-- Waits until a condition gives a result, or until a deadline of the one who waits, and for
`fuel` moments at most.  At every moment the condition and the deadline are looked at before
anything else happens, and then again when there is nothing left to do. -/
def await {α : Type} (ready : Cluster → Option α) (deadline : Option Nat) :
    Nat → Cluster → Cluster × Option α
  | 0, c => (c, none)
  | fuel + 1, c =>
    match ready c with
    | some a => (c, some a)
    | none =>
      if deadline.any (· ≤ c.clock.millis) then (c, none)
      else if c.isBusy then await ready deadline fuel (c.settle patience)
      else
        match (deadline.toList ++ c.deadlines).min? with
        | none => (c, none)
        | some millis => await ready deadline fuel { c with clock := c.clock.waitUntil millis }

end Cluster

end ClusterCache
