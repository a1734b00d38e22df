import Std.Data.ExtTreeMap.Basic
import ClusterCache.Counters
import ClusterCache.Event
import ClusterCache.Request

/-!
# The store

A map from keys to entries with times, and what one request does to it.  A read that finds an
entry past its time removes it and counts as a miss; a deletion always succeeds.
-/

namespace ClusterCache

open Std

/-- Entries by key. -/
abbrev Store := ExtTreeMap String Entry

/-- What a request leaves behind: the store and the counters after it, the value it found and
the event that tells of it. -/
structure Effect where
  store : Store
  counters : Counters
  value : Option String := none
  event : Option Event := none

namespace Store

def put (s : Store) (c : Counters) (now : UInt64) (key value : String) (ttl : UInt64) : Effect :=
  let entry := Entry.make value now ttl
  { store := s.insert key entry, counters := c.put, event := some ⟨key, .put (some entry)⟩ }

def get (s : Store) (c : Counters) (now : UInt64) (key : String) : Effect :=
  match s[key]? with
  | none => { store := s, counters := c.miss }
  | some entry =>
    if entry.isExpired now then
      { store := s.erase key, counters := c.expire.miss, event := some ⟨key, .delete⟩ }
    else
      { store := s, counters := c.hit, value := some entry.value, event := some ⟨key, .get⟩ }

def delete (s : Store) (c : Counters) (key : String) : Effect :=
  { store := s.erase key
    counters := if s.contains key then c.remove else c
    event := some ⟨key, .delete⟩ }

def execute (s : Store) (c : Counters) (now : UInt64) (r : Request) : Effect :=
  match r.command with
  | .put value ttl => s.put c now r.key value ttl
  | .get => s.get c now r.key
  | .delete => s.delete c r.key

end Store

end ClusterCache
