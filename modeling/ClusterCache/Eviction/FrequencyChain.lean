import Std.Data.ExtTreeMap.Basic
import ClusterCache.SlotList

/-!
# Keys in order of their number of accesses

The keys are kept in buckets, one for every number of accesses that occurs, chained in ascending
order; inside a bucket the keys stand in order of their latest access.  An access moves a key to
the back of the next bucket, which is made right after the present one if it is missing, and a
bucket that loses its last key leaves the chain.  So the key to give up first is always the front
of the front bucket, and every operation touches at most two buckets.
-/

namespace ClusterCache

open Std

/-- The keys with one number of accesses, the one accessed longest ago in front. -/
structure FrequencyChain.Bucket where
  frequency : Nat
  keys : SlotList String := SlotList.empty

/-- Where a key is: the slot of its bucket in the chain, and its slot in that bucket. -/
structure FrequencyChain.Spot where
  bucket : Nat
  slot : Nat
deriving DecidableEq

/-- Distinct keys with their numbers of accesses. -/
structure FrequencyChain where
  buckets : SlotList FrequencyChain.Bucket := SlotList.empty
  byFrequency : ExtTreeMap Nat Nat := ∅
  spots : ExtTreeMap String FrequencyChain.Spot := ∅

namespace FrequencyChain

def empty : FrequencyChain := {}

def size (c : FrequencyChain) : Nat := c.spots.size

/-- The number of accesses of a key. -/
def frequency? (c : FrequencyChain) (key : String) : Option Nat := do
  let spot ← c.spots[key]?
  let bucket ← c.buckets.get? spot.bucket
  return bucket.frequency

/-- Puts a key at the back of a bucket and records where it is. -/
def join (c : FrequencyChain) (bucket : Nat) (key : String) : FrequencyChain :=
  match c.buckets.get? bucket with
  | none => c
  | some b =>
    let (keys, slot) := b.keys.pushBack key
    { c with
      buckets := c.buckets.set bucket { b with keys }
      spots := c.spots.insert key ⟨bucket, slot⟩ }

/-- Takes a key out of its bucket, and the bucket out of the chain if that was its last key. -/
def leave (c : FrequencyChain) (spot : Spot) : FrequencyChain :=
  match c.buckets.get? spot.bucket with
  | none => c
  | some b =>
    let keys := b.keys.erase spot.slot
    if keys.isEmpty then
      { c with
        buckets := c.buckets.erase spot.bucket
        byFrequency := c.byFrequency.erase b.frequency }
    else { c with buckets := c.buckets.set spot.bucket { b with keys } }

/-- Puts a new key into the bucket of the keys accessed once, at the front of the chain. -/
def enter (c : FrequencyChain) (key : String) : FrequencyChain :=
  match c.byFrequency[1]? with
  | some bucket => c.join bucket key
  | none =>
    let (buckets, bucket) := c.buckets.pushFront { frequency := 1 }
    { c with buckets, byFrequency := c.byFrequency.insert 1 bucket }.join bucket key

/-- The chain with a bucket for a frequency, made right after `current` if it is missing, and the
slot of that bucket. -/
def withBucket? (c : FrequencyChain) (current frequency : Nat) : Option (FrequencyChain × Nat) :=
  match c.byFrequency[frequency]? with
  | some bucket => some (c, bucket)
  | none => do
    let (buckets, bucket) ← c.buckets.insertAfter? current { frequency }
    return ({ c with buckets, byFrequency := c.byFrequency.insert frequency bucket }, bucket)

/-- Moves a key on to the bucket for one access more. -/
def promote (c : FrequencyChain) (key : String) (spot : Spot) : FrequencyChain :=
  match c.buckets.get? spot.bucket with
  | none => { c with spots := c.spots.erase key }
  | some b =>
    match c.withBucket? spot.bucket (b.frequency + 1) with
    | none => c
    | some (c, bucket) => (c.leave spot).join bucket key

/-- Counts an access to a key, new or not. -/
def access (c : FrequencyChain) (key : String) : FrequencyChain :=
  match c.spots[key]? with
  | none => c.enter key
  | some spot => c.promote key spot

/-- Takes a key out, with its count. -/
def remove (c : FrequencyChain) (key : String) : FrequencyChain :=
  match c.spots[key]? with
  | none => c
  | some spot => { c with spots := c.spots.erase key }.leave spot

/-- The key accessed least often and, among those, longest ago. -/
def front? (c : FrequencyChain) : Option String := do
  let bucket ← c.buckets.front?
  bucket.keys.front?

/-- The buckets, front to back, each with its keys. -/
def chain (c : FrequencyChain) : List (Nat × List String) :=
  c.buckets.toList.map fun b => (b.frequency, b.keys.toList)

end FrequencyChain

end ClusterCache
