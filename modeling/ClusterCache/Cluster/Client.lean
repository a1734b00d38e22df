import ClusterCache.Cluster.Basic

/-!
# Using a cluster

What somebody outside can do with a cluster: submit requests and wait for their replies, speak
HTTP to a host, let time pass, and direct the keepers.  Between two of these everything that can
be done without time passing is done.
-/

namespace ClusterCache.Cluster

/-- Does everything that can be done without time passing. -/
def rest (c : Cluster) : Cluster := c.settle patience

/-- Submits a request to the shard of a host. -/
def submit (c : Cluster) (i : Nat) (r : Request) : Cluster × Except Failure Nat :=
  match c.host? i with
  | none => (c, .error .workerUnavailable)
  | some h =>
    let (shard, result) := h.shard.submit r
    (c.modifyShard i fun _ => shard, result)

/-- Waits for the reply of a ticket, for some milliseconds or for as long as it takes.  A reply
that is there already counts even if there is no time to wait. -/
def awaitReply (c : Cluster) (i ticket : Nat) (timeout : Option Nat) : Cluster × Reply :=
  let (c, reply) := c.await (·.reply? i ticket) (timeout.map (c.clock.millis + ·)) patience
  (c, reply.getD (.failed .timeout))

/-- A request with the time its sender is ready to wait. -/
structure Order where
  request : Request
  timeout : Option Nat := none

/-- What an order comes to: it is refused when it is submitted, or it is answered later. -/
inductive Result where
  | refused (failure : Failure)
  | replied (reply : Reply)
deriving DecidableEq, Repr

/-- Submits orders one after the other, before anything else happens. -/
def submitAll : Cluster → Nat → List Order → Cluster × List (Order × Except Failure Nat)
  | c, _, [] => (c, [])
  | c, i, o :: os =>
    let (c, result) := c.submit i o.request
    let (c, results) := submitAll c i os
    (c, (o, result) :: results)

/-- Waits for submitted orders one after the other. -/
def awaitAll : Cluster → Nat → List (Order × Except Failure Nat) → Cluster × List Result
  | c, _, [] => (c, [])
  | c, i, (_, .error f) :: os =>
    let (c, results) := awaitAll c i os
    (c, .refused f :: results)
  | c, i, (o, .ok ticket) :: os =>
    let (c, reply) := c.awaitReply i ticket o.timeout
    let (c, results) := awaitAll c i os
    (c, .replied reply :: results)

/-- Submits orders to a host and waits for them. -/
def perform (c : Cluster) (i : Nat) (orders : List Order) : Cluster × List Result :=
  let (c, submitted) := c.submitAll i orders
  c.awaitAll i submitted

/-- Sends an HTTP request to a host.  The time of day goes into a sign of life. -/
def exchange (c : Cluster) (i : Nat) (timestamp : String) (r : Http.Request) :
    Cluster × Http.Response :=
  let (c, response) : Cluster × Http.Response :=
    match c.host? i, Service.read r with
    | none, _ => (c, ⟨404, .none⟩)
    | some _, .answered response => (c, response)
    | some h, .report => (c, ⟨200, .report h.report⟩)
    | some h, .health => (c, .ofMessage 200 (h.health timestamp))
    | some h, .ask surface request =>
      match c.submit i request with
      | (c, .error f) => (c, Service.answer surface request.command (.failed f))
      | (c, .ok ticket) =>
        let (c, reply) := c.awaitReply i ticket (some h.timeoutMs)
        (c, Service.answer surface request.command reply)
  (c, Service.send r response)

def sleep (c : Cluster) (millis : Nat) : Cluster :=
  (c.await (fun _ => (none : Option Unit)) (some (c.clock.millis + millis)) patience).1

/-- Goes on with a pass of a keeper until it is over, waiting where it waits. -/
def finishPass (i : Nat) : Nat → Cluster → Cluster
  | 0, c => c
  | fuel + 1, c =>
    let c := c.keep i
    if ((c.host? i).elim true (·.isResting)) then c
    else if c.isBusy then finishPass i fuel (c.settle patience)
    else
      let own := ((c.host? i).bind (·.keeper)).bind (·.deadline?)
      match (own.toList ++ c.deadlines).min? with
      | none => c
      | some millis => finishPass i fuel { c with clock := c.clock.waitUntil millis }

/-- The keeper of a host makes one pass. -/
def maintain (c : Cluster) (i : Nat) : Cluster :=
  finishPass i patience (c.modify i (·.beginPass c.clock))

/-- The keeper of a host starts to work in the background. -/
def startBackground (c : Cluster) (i : Nat) : Cluster :=
  c.modify i fun h => { h with background := .running false }

/-- Asks the keeper of a host to stop and waits some milliseconds for it to end its pass; if it
does not, it is stopped where it stands.  Also says whether it ended by itself. -/
def stopBackground (c : Cluster) (i : Nat) (graceMs : Nat) : Cluster × Bool :=
  let c := c.modify i fun h =>
    match h.background with
    | .running _ => { h with background := .running true }
    | _ => h
  let ended (c : Cluster) : Option Unit := if (c.host? i).any (·.hasEnded) then some () else none
  match c.await ended (some (c.clock.millis + graceMs)) patience with
  | (c, some _) => (c, true)
  | (c, none) => (c.modify i (·.endBackground), false)

/-- Takes all events that wait at a host. -/
def takeEvents (c : Cluster) (i : Nat) : Cluster × List Event :=
  (c.modifyShard i fun s => { s with events := { s.events with waiting := [] } },
    (c.host? i).elim [] (·.shard.events.waiting))

/-- Nobody reads the events of a host any more. -/
def closeEvents (c : Cluster) (i : Nat) : Cluster :=
  c.modifyShard i fun s => { s with events := s.events.close }

/-- Offers an event to the queue of a host; also says whether it was accepted. -/
def inject (c : Cluster) (i : Nat) (e : Event) : Cluster × Bool :=
  let offer := (c.host? i).map fun h => (h.shard.events.offer e).2
  (c.modifyShard i (·.offer e), offer = some .accepted)

def takeLog (c : Cluster) : Cluster × List Call := ({ c with log := [] }, c.log)

end ClusterCache.Cluster
