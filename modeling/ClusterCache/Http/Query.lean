import ClusterCache.Text.Blank
import ClusterCache.Text.Utf8
import ClusterCache.Wire.Token

/-!
# Queries

A query is a form: pairs between ampersands, each with an equals sign between name and value.  A
plus sign is a space, a percent sign with two hexadecimal digits is a byte, and any other percent
sign is itself.  Bytes that are not UTF-8 are replaced.
-/

namespace ClusterCache.Http

open Text

/-- The byte that two hexadecimal digits write. -/
def escapedByte? (high low : UInt8) : Option UInt8 := do
  let high ← Wire.hexValue? (Char.ofNat high.toNat)
  let low ← Wire.hexValue? (Char.ofNat low.toNat)
  return UInt8.ofNat (16 * high + low)

def percentDecode : List UInt8 → List UInt8
  | 0x25 :: high :: low :: rest =>
    match escapedByte? high low with
    | some b => b :: percentDecode rest
    | none => 0x25 :: percentDecode (high :: low :: rest)
  | b :: rest => (if b = 0x2b then 0x20 else b) :: percentDecode rest
  | [] => []

/-- A name or a value of a form. -/
def formText (cs : List Char) : String :=
  decodeLenient (percentDecode (utf8 (String.ofList cs)))

def formPairs (query : List Char) : List (String × String) :=
  ((split '&' query).filter (!·.isEmpty)).map fun pair =>
    match splitFirst? '=' pair with
    | some (name, value) => (formText name, formText value)
    | none => (formText pair, "")

/-- The key that a query names: the empty one if it names none, and nothing at all if it names
one more than once. -/
def queryKey? (query : List Char) : Option String :=
  match (formPairs query).filter (·.1 = "key") with
  | [] => some ""
  | [(_, key)] => some key
  | _ => none

end ClusterCache.Http
