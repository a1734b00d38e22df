/-!
# Numbers on the wire

The wire knows one kind of number, an unsigned word.  Any other number is only looked at to tell
whether a double can hold it: one that overflows is no number at all, one that does not is a
number of the wrong kind.
-/

namespace ClusterCache.Wire

/-- What a written number is to a reader of words. -/
inductive Numeral where
  | word (n : UInt64)
  | other
  | overflow
deriving DecidableEq, Repr

/-- The parts of a written number. -/
structure Parts where
  negative : Bool
  whole : List Char
  fraction : List Char
  exponent : Option (Bool × List Char)

/-- The value of a row of digits. -/
def digitsValue (digits : List Char) : Nat := Nat.ofDigitChars 10 digits 0

/-- The leading digits that a word can hold, and how many more there are. -/
def significand : Nat → List Char → Nat × Nat
  | value, [] => (value, 0)
  | value, d :: ds =>
    let longer := Nat.ofDigitChars 10 [d] value
    if longer < UInt64.size then significand longer ds else (value, ds.length + 1)

/-- A number rounded to the 53 bits of a double, a half to the even neighbour. -/
def roundToDouble (n : Nat) : Nat :=
  let excess := n.log2 - 52
  let unit := 1 <<< excess
  let quotient := n / unit
  let twice := 2 * (n % unit)
  let up := if twice = unit then quotient % 2 else if unit < twice then 1 else 0
  (quotient + up) * unit

/-- Whether a significand scaled by a power of ten is past the largest double.  Both factors are
rounded to doubles first, and so is their product. -/
def overflows (value : Nat) (exponent : Int) : Bool :=
  if value = 0 ∨ exponent < 0 then false
  else if 308 < exponent then true
  else 1 <<< 1024 ≤ roundToDouble (roundToDouble value * roundToDouble (Nat.pow 10 exponent.toNat))

namespace Parts

/-- The power of ten by which the exponent of a number scales it. -/
def scale (p : Parts) : Int :=
  match p.exponent with
  | none => 0
  | some (negative, digits) =>
    if negative then -(digitsValue digits : Int) else digitsValue digits

def numeral (p : Parts) : Numeral :=
  let value := digitsValue p.whole
  if !p.negative && p.fraction.isEmpty && p.exponent.isNone && value < UInt64.size then
    .word (UInt64.ofNat value)
  else
    let (lead, more) := significand 0 p.whole
    let (all, dropped) := significand lead p.fraction
    let places : Int := (more : Int) - ((p.fraction.length - dropped : Nat) : Int)
    if overflows all (places + p.scale) then .overflow else .other

end Parts

end ClusterCache.Wire
