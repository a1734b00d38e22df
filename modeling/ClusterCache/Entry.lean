/-!
# Stored entries

An entry keeps its value and the seconds at which it was made and at which it expires.  The
expiration time stops at the last second a word can hold, so a long time to live never wraps
into the past.
-/

namespace ClusterCache

/-- A stored value with its times in seconds. -/
structure Entry where
  value : String
  created : UInt64
  expires : UInt64
deriving DecidableEq, Repr

namespace Entry

/-- An entry made now that lives for `ttl` seconds. -/
def make (value : String) (now ttl : UInt64) : Entry :=
  ⟨value, now, UInt64.ofNat (min (now.toNat + ttl.toNat) (UInt64.size - 1))⟩

/-- Whether an entry has expired; its expiration time itself is too late. -/
def isExpired (e : Entry) (now : UInt64) : Bool := e.expires ≤ now

def remaining (e : Entry) (now : UInt64) : UInt64 :=
  UInt64.ofNat (e.expires.toNat - now.toNat)

end Entry

end ClusterCache
