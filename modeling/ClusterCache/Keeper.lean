import ClusterCache.Clock
import ClusterCache.Eviction.Policy
import ClusterCache.ExpiryIndex
import ClusterCache.Shard

/-!
# Upkeep

The keeper of a node deletes what has expired and what there is no room for.  It never touches
the store: it learns from events what the store holds, and it deletes by submitting requests like
anybody else.

A pass has three parts.  First the keeper waits for an event and takes note of it and of those
that have queued up behind it.  Then it sweeps the keys whose time has come, and waits until
its deletions are done.  Last it gives up keys while the store is above its limit, and waits
again.  A pass is cut into steps so small that anything else may happen between two of them.
-/

namespace ClusterCache

/-- An order in which the keys of a bucket are listed. -/
structure Listing where
  list : Std.ExtTreeSet String → List String
  perm : ∀ keys, (list keys).Perm keys.toList

def Listing.ascending : Listing := ⟨fun keys => keys.toList, fun _ => .refl _⟩

/-- How far a pass has come. -/
inductive Stage where
  /-- No pass is going on. -/
  | resting
  /-- Waiting for a first event until a time. -/
  | polling (deadline : Nat)
  /-- Waiting for a time because no event can come any more. -/
  | pausing (deadline : Nat)
  /-- Taking note of the events that wait, this many at most. -/
  | draining (left : Nat)
  /-- Sweeping what had expired by `now`: these keys of the bucket of a time are still to be
  deleted, these deletions have been issued. -/
  | expiring (now time : UInt64) (keys : List String) (issued : List Nat)
  /-- About to look at the size of the store. -/
  | measuring (issued : List Nat)
  /-- About to delete a key because there is no room for it. -/
  | evicting (victim : String) (issued : List Nat)
  /-- Waiting for deletions, for the first of them until a time.  `last` says whether the pass
  is over then. -/
  | settling (last : Bool) (deadline : Nat) (issued : List Nat)

/-- What a keeper makes known after a pass. -/
structure Gauges where
  trackedKeys : Nat := 0
  expiryBuckets : Nat := 0
  expiryKeys : Nat := 0
  queuedEvents : Nat := 0
deriving DecidableEq, Repr

/-- A keeper: the bookkeeping by which it chooses keys, the size above which it gives keys up,
how long it waits for an event, and how far its pass has come. -/
structure Keeper where
  policy : Policy
  expiry : ExpiryIndex := ExpiryIndex.empty
  limit : Nat
  pollMs : Nat
  stage : Stage := .resting
  gauges : Gauges := {}

namespace Keeper

/-- The number of events taken in a pass after the first. -/
def drainLimit : Nat := 1024

/-- How long a keeper waits for one of its deletions. -/
def settleMs : Nat := 1000

/-- A keeper that knows of no key. -/
def make (kind : PolicyKind) (limit pollMs : Nat) : Keeper :=
  { policy := Policy.empty kind, limit, pollMs }

def isResting (k : Keeper) : Bool :=
  match k.stage with
  | .resting => true
  | _ => false

def observe (k : Keeper) (e : Event) : Keeper :=
  match e.change with
  | .put entry =>
    { k with
      policy := k.policy.put e.key
      expiry := entry.elim k.expiry fun entry => k.expiry.add entry.expires e.key }
  | .get => { k with policy := k.policy.get e.key }
  | .delete => { k with policy := k.policy.delete e.key, expiry := k.expiry.remove e.key }

/-- Puts keys back into the bucket of a time. -/
def restore (k : Keeper) (time : UInt64) (keys : List String) : Keeper :=
  { k with expiry := keys.foldl (fun x key => x.add time key) k.expiry }

def begin (k : Keeper) (clock : Clock) : Keeper :=
  { k with stage := .polling (clock.millis + k.pollMs) }

def sweep (k : Keeper) (clock : Clock) : Keeper :=
  { k with stage := .expiring clock.seconds 0 [] [] }

def settle (k : Keeper) (last : Bool) (clock : Clock) (issued : List Nat) : Keeper :=
  { k with stage := .settling last (clock.millis + settleMs) issued }

/-- Ends a pass and makes known what there is. -/
def finish (k : Keeper) (s : Shard) : Keeper :=
  { k with
    stage := .resting
    gauges := ⟨k.policy.size, k.expiry.size, k.expiry.keyCount, s.events.waiting.length⟩ }

/-- Takes note of what came of the deletion of an expired key while `rest` of its bucket is still
to be deleted.  A key whose deletion is accepted is forgotten here too; a refusal ends the sweep,
and what is left of the bucket is put back. -/
def noteExpiry (k : Keeper) (clock : Clock) (now time : UInt64) (key : String)
    (rest : List String) (issued : List Nat) : Except Failure Nat → Keeper
  | .ok ticket =>
    { k with
      policy := k.policy.delete key
      stage := .expiring now time rest (issued ++ [ticket]) }
  | .error _ => (k.restore time (key :: rest)).settle false clock issued

/-- Takes the next bucket to sweep out of the index, if there is one that is due. -/
def nextBucket (listing : Listing) (clock : Clock) (k : Keeper) (now : UInt64)
    (issued : List Nat) : Keeper :=
  match k.expiry.peek?, k.expiry.poll? with
  | some time, some (bucket, expiry) =>
    if time ≤ now then { k with expiry, stage := .expiring now time (listing.list bucket) issued }
    else k.settle false clock issued
  | _, _ => k.settle false clock issued

/-- One step of the sweep of expired keys: the next key of the bucket at hand, or the next
bucket. -/
def expireStep (listing : Listing) (clock : Clock) (s : Shard) (k : Keeper) (now time : UInt64)
    (keys : List String) (issued : List Nat) : Shard × Keeper :=
  match keys with
  | key :: rest =>
    let (s, outcome) := s.submit ⟨key, .delete⟩
    ({ s with counters := if outcome.isOk then s.counters.expire else s.counters },
      k.noteExpiry clock now time key rest issued outcome)
  | [] => (s, k.nextBucket listing clock now issued)

/-- Looks at the size of the store, less the deletions issued, and chooses a key to give up. -/
def measure (clock : Clock) (k : Keeper) (size : Nat) (issued : List Nat) : Keeper :=
  if k.limit < size - issued.length then
    match k.policy.victim? with
    | some victim => { k with stage := .evicting victim issued }
    | none => k.settle true clock issued
  else k.settle true clock issued

/-- Takes note of what came of the deletion of a key given up.  A key whose deletion is accepted
is forgotten here too; a refusal ends the sweep. -/
def noteEviction (k : Keeper) (clock : Clock) (victim : String) (issued : List Nat) :
    Except Failure Nat → Keeper
  | .ok ticket =>
    { k with
      policy := k.policy.delete victim
      expiry := k.expiry.remove victim
      stage := .measuring (issued ++ [ticket]) }
  | .error _ => k.settle true clock issued

def evictStep (clock : Clock) (s : Shard) (k : Keeper) (victim : String) (issued : List Nat) :
    Shard × Keeper :=
  let (s, outcome) := s.submit ⟨victim, .delete⟩
  ({ s with counters := if outcome.isOk then s.counters.evict else s.counters },
    k.noteEviction clock victim issued outcome)

/-- One step of a pass; none if the keeper rests or has to wait. -/
def step (listing : Listing) (clock : Clock) (s : Shard) (k : Keeper) : Option (Shard × Keeper) :=
  match k.stage with
  | .resting => none
  | .polling deadline =>
    match s.events.take? with
    | some (e, events) =>
      some ({ s with events }, { k.observe e with stage := .draining drainLimit })
    | none =>
      if s.events.isExhausted then
        some (s, { k with stage := .pausing (clock.millis + k.pollMs) })
      else if deadline ≤ clock.millis then some (s, k.sweep clock)
      else none
  | .pausing deadline => if deadline ≤ clock.millis then some (s, k.sweep clock) else none
  | .draining 0 => some (s, k.sweep clock)
  | .draining (left + 1) =>
    match s.events.take? with
    | some (e, events) => some ({ s with events }, { k.observe e with stage := .draining left })
    | none => some (s, k.sweep clock)
  | .expiring now time keys issued => some (k.expireStep listing clock s now time keys issued)
  | .measuring issued => some (s, k.measure clock s.size issued)
  | .evicting victim issued => some (k.evictStep clock s victim issued)
  | .settling last _ [] =>
    some (s, if last then k.finish s else { k with stage := .measuring [] })
  | .settling last deadline (ticket :: issued) =>
    if s.replies.contains ticket || deadline ≤ clock.millis then
      some (s, k.settle last clock issued)
    else none

/-- When a keeper that waits will stop waiting. -/
def deadline? (k : Keeper) : Option Nat :=
  match k.stage with
  | .polling deadline => some deadline
  | .pausing deadline => some deadline
  | .settling _ deadline (_ :: _) => some deadline
  | _ => none

/-- Steps on until the keeper rests or has to wait, at most `fuel` times. -/
def run (listing : Listing) (clock : Clock) : Nat → Shard → Keeper → Shard × Keeper
  | 0, s, k => (s, k)
  | fuel + 1, s, k =>
    match k.step listing clock s with
    | none => (s, k)
    | some (s, k) => run listing clock fuel s k

end Keeper

end ClusterCache
