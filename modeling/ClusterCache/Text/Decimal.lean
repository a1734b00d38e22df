/-!
# Decimal numbers in text

Numbers in settings and on the command surface are unsigned decimals: an optional plus sign and
then one or more of the ten ASCII digits.  A number is refused when it does not fit under the
caller's limit, so that it never wraps.
-/

namespace ClusterCache.Text

def digit? (c : Char) : Option Nat :=
  if '0' ≤ c ∧ c ≤ '9' then some (c.toNat - '0'.toNat) else none

/-- The number that the digits write when they follow a number already read. -/
def readDigits? : Nat → List Char → Option Nat
  | value, [] => some value
  | value, c :: cs => do
    let d ← digit? c
    readDigits? (10 * value + d) cs

/-- An unsigned decimal below `limit`, with at most one plus sign in front. -/
def decimal? (limit : Nat) (cs : List Char) : Option Nat :=
  let digits := match cs with
    | '+' :: rest => rest
    | _ => cs
  if digits.isEmpty then none else (readDigits? 0 digits).filter (· < limit)

end ClusterCache.Text
