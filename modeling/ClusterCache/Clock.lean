/-!
# Clocks

A node reads two clocks: the second of the epoch, by which entries expire and which can be set,
and the milliseconds that have gone by, by which waiting ends and which only ever grow.
-/

namespace ClusterCache

/-- A reading of both clocks. -/
structure Clock where
  seconds : UInt64
  millis : Nat := 0
deriving DecidableEq, Repr

namespace Clock

/-- Moves the second of the epoch on; it starts again at zero after the last second of a word. -/
def advance (c : Clock) (seconds : UInt64) : Clock := { c with seconds := c.seconds + seconds }

def set (c : Clock) (seconds : UInt64) : Clock := { c with seconds }

/-- Waits until a time in milliseconds; time never goes back. -/
def waitUntil (c : Clock) (millis : Nat) : Clock := { c with millis := max c.millis millis }

end Clock

end ClusterCache
