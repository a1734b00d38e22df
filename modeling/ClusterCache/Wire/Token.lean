import ClusterCache.Text.Utf8
import ClusterCache.Wire.Numeral

/-!
# Tokens of the wire text

The wire text is JSON.  Its reader goes from left to right and reports the first fault it meets,
so the text is cut into tokens that end with a broken one where the text stops making sense:
whoever never gets that far never sees the fault.

The text is a list of characters in which an absent one stands for bytes that are not UTF-8.
Such bytes, and escapes of half a character, are faults only in strings that somebody reads; a
string that is skipped may hold them.
-/

namespace ClusterCache.Wire

/-- A character of the wire text, absent where the bytes were not UTF-8. -/
abbrev Symbol := Option Char

/-- The tokens.  A string token has no text if what it holds is not text. -/
inductive Token where
  | openObject
  | closeObject
  | openArray
  | closeArray
  | colon
  | comma
  | string (text : Option String)
  | number (n : Numeral)
  | bool (b : Bool)
  | null
  | broken
deriving DecidableEq, Repr

/-- The pieces of a string: characters as they are, sixteen-bit units from escapes, and bytes
that are not text. -/
inductive Piece where
  | char (c : Char)
  | unit (n : Nat)
  | noise
deriving DecidableEq, Repr

def hexValue? (c : Char) : Option Nat :=
  if '0' ≤ c ∧ c ≤ '9' then some (c.toNat - '0'.toNat)
  else if 'a' ≤ c ∧ c ≤ 'f' then some (c.toNat - 'a'.toNat + 10)
  else if 'A' ≤ c ∧ c ≤ 'F' then some (c.toNat - 'A'.toNat + 10)
  else none

/-- The unit that four hexadecimal digits write. -/
def unit? (a b c d : Symbol) : Option Nat := do
  let a ← a.bind hexValue?
  let b ← b.bind hexValue?
  let c ← c.bind hexValue?
  let d ← d.bind hexValue?
  return 4096 * a + 256 * b + 16 * c + d

/-- The character that a one-letter escape stands for. -/
def escaped? : Char → Option Char
  | '"' => some '"'
  | '\\' => some '\\'
  | '/' => some '/'
  | 'b' => some '\x08'
  | 'f' => some '\x0c'
  | 'n' => some '\n'
  | 'r' => some '\r'
  | 't' => some '\t'
  | _ => none

/-- The pieces of a string up to its closing quote, and the text after the quote. -/
def pieces? : List Symbol → Option (List Piece × List Symbol)
  | [] => none
  | some '"' :: rest => some ([], rest)
  | some '\\' :: some 'u' :: a :: b :: c :: d :: rest => do
    let n ← unit? a b c d
    let (ps, rest) ← pieces? rest
    return (.unit n :: ps, rest)
  | some '\\' :: some e :: rest => do
    let c ← escaped? e
    let (ps, rest) ← pieces? rest
    return (.char c :: ps, rest)
  | some c :: rest =>
    if c = '\\' ∨ c < ' ' then none
    else (pieces? rest).map fun (ps, rest) => (.char c :: ps, rest)
  | none :: rest => (pieces? rest).map fun (ps, rest) => (.noise :: ps, rest)

/-- The characters of a string.  Two units that are the halves of a character make it together;
a lone half makes none. -/
def characters? : List Piece → Option (List Char)
  | [] => some []
  | .char c :: ps => (characters? ps).map (c :: ·)
  | .noise :: _ => none
  | .unit high :: .unit low :: ps =>
    if 0xd800 ≤ high ∧ high < 0xdc00 then
      if 0xdc00 ≤ low ∧ low < 0xe000 then
        (characters? ps).map
          (Char.ofNat (0x10000 + 0x400 * (high - 0xd800) + (low - 0xdc00)) :: ·)
      else none
    else if 0xdc00 ≤ high ∧ high < 0xe000 then none
    else (characters? (.unit low :: ps)).map (Char.ofNat high :: ·)
  | .unit n :: ps =>
    if 0xd800 ≤ n ∧ n < 0xe000 then none else (characters? ps).map (Char.ofNat n :: ·)

/-- Whether a symbol is one of the ten digits. -/
def isDigit (s : Symbol) : Bool := s.any Char.isDigit

/-- The digits in front of a text, and the rest. -/
def digits (cs : List Symbol) : List Char × List Symbol :=
  ((cs.takeWhile isDigit).filterMap id, cs.dropWhile isDigit)

/-- The digits after a mark, if the mark is there; a mark needs at least one digit. -/
def fraction? (cs : List Symbol) : Option (List Char × List Symbol) :=
  match cs with
  | some '.' :: rest =>
    let (ds, rest) := digits rest
    if ds.isEmpty then none else some (ds, rest)
  | _ => some ([], cs)

/-- The exponent in front of a text, if there is one, as a sign and digits. -/
def exponent? (cs : List Symbol) : Option (Option (Bool × List Char) × List Symbol) :=
  let signed (rest : List Symbol) : Option (Option (Bool × List Char) × List Symbol) :=
    let (negative, rest) := match rest with
      | some '+' :: rest => (false, rest)
      | some '-' :: rest => (true, rest)
      | _ => (false, rest)
    let (ds, rest) := digits rest
    if ds.isEmpty then none else some (some (negative, ds), rest)
  match cs with
  | some 'e' :: rest => signed rest
  | some 'E' :: rest => signed rest
  | _ => some (none, cs)

/-- The number in front of a text.  Its whole part is a zero or starts with another digit. -/
def number? (cs : List Symbol) : Option (Numeral × List Symbol) := do
  let (negative, cs) := match cs with
    | some '-' :: rest => (true, rest)
    | _ => (false, cs)
  let (whole, cs) := digits cs
  if whole.isEmpty || (whole.head? = some '0' && 1 < whole.length) then none
  else
    let (fraction, cs) ← fraction? cs
    let (exponent, cs) ← exponent? cs
    return (Parts.numeral ⟨negative, whole, fraction, exponent⟩, cs)

/-- Whether a symbol may stand between tokens. -/
def isSpace (s : Symbol) : Bool :=
  s = some ' ' || s = some '\n' || s = some '\t' || s = some '\r'

/-- The token at the front of a text without space in front, and the text after it. -/
def token (cs : List Symbol) : Token × List Symbol :=
  match cs with
  | some '{' :: rest => (.openObject, rest)
  | some '}' :: rest => (.closeObject, rest)
  | some '[' :: rest => (.openArray, rest)
  | some ']' :: rest => (.closeArray, rest)
  | some ':' :: rest => (.colon, rest)
  | some ',' :: rest => (.comma, rest)
  | some 't' :: some 'r' :: some 'u' :: some 'e' :: rest => (.bool true, rest)
  | some 'f' :: some 'a' :: some 'l' :: some 's' :: some 'e' :: rest => (.bool false, rest)
  | some 'n' :: some 'u' :: some 'l' :: some 'l' :: rest => (.null, rest)
  | some '"' :: rest =>
    match pieces? rest with
    | some (ps, rest) => (.string ((characters? ps).map String.ofList), rest)
    | none => (.broken, [])
  | _ =>
    match number? cs with
    | some (n, rest) => (.number n, rest)
    | none => (.broken, [])

/-- At most `fuel` tokens of a text, up to the first broken one. -/
def tokensUpTo : Nat → List Symbol → List Token
  | 0, _ => []
  | fuel + 1, cs =>
    match cs.dropWhile isSpace with
    | [] => []
    | c :: cs =>
      let (t, rest) := token (c :: cs)
      t :: tokensUpTo fuel rest

/-- The tokens of a text; every token takes at least one symbol. -/
def tokens (cs : List Symbol) : List Token := tokensUpTo cs.length cs

end ClusterCache.Wire
