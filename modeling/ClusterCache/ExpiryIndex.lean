import Std.Data.ExtTreeMap.Basic
import Std.Data.ExtTreeSet.Basic

/-!
# Keys by the time they expire

The index keeps every key in the bucket of the second at which it expires, and beside that the
second of every key, so that a key whose time changes moves from bucket to bucket without a
search.  A bucket without keys is not kept.
-/

namespace ClusterCache

open Std

/-- Keys by expiration time, both ways. -/
structure ExpiryIndex where
  buckets : ExtTreeMap UInt64 (ExtTreeSet String) := ∅
  times : ExtTreeMap String UInt64 := ∅

namespace ExpiryIndex

def empty : ExpiryIndex := {}

def time? (x : ExpiryIndex) (key : String) : Option UInt64 := x.times[key]?

/-- The buckets with a key taken out of the one for a time. -/
def detach (buckets : ExtTreeMap UInt64 (ExtTreeSet String)) (time : UInt64) (key : String) :
    ExtTreeMap UInt64 (ExtTreeSet String) :=
  match buckets[time]? with
  | none => buckets
  | some keys =>
    let keys := keys.erase key
    if keys.isEmpty then buckets.erase time else buckets.insert time keys

/-- The buckets with a key put into the one for a time. -/
def attach (buckets : ExtTreeMap UInt64 (ExtTreeSet String)) (time : UInt64) (key : String) :
    ExtTreeMap UInt64 (ExtTreeSet String) :=
  buckets.insert time (((buckets[time]?).getD ∅).insert key)

/-- Takes a key out, if it is there, and says what its time was. -/
def take (x : ExpiryIndex) (key : String) : Option UInt64 × ExpiryIndex :=
  match x.times[key]? with
  | none => (none, x)
  | some time => (some time, ⟨detach x.buckets time key, x.times.erase key⟩)

def remove (x : ExpiryIndex) (key : String) : ExpiryIndex := (x.take key).2

/-- Puts a key into the bucket for a time, out of any other. -/
def add (x : ExpiryIndex) (time : UInt64) (key : String) : ExpiryIndex :=
  let times := x.times.insert key time
  match x.times[key]? with
  | none => ⟨attach x.buckets time key, times⟩
  | some previous =>
    if previous = time then ⟨x.buckets, times⟩
    else ⟨attach (detach x.buckets previous key) time key, times⟩

def earliest? (x : ExpiryIndex) : Option (UInt64 × ExtTreeSet String) := x.buckets.toList.head?

def peek? (x : ExpiryIndex) : Option UInt64 := x.earliest?.map (·.1)

def poll? (x : ExpiryIndex) : Option (ExtTreeSet String × ExpiryIndex) :=
  x.earliest?.map fun (time, keys) =>
    (keys, ⟨x.buckets.erase time, keys.toList.foldl (fun times key => times.erase key) x.times⟩)

def isEmpty (x : ExpiryIndex) : Bool := x.buckets.isEmpty

def size (x : ExpiryIndex) : Nat := x.buckets.size

def keyCount (x : ExpiryIndex) : Nat := x.times.size

end ExpiryIndex

end ClusterCache
