/-!
# UTF-8

Encoding writes each character in one to four bytes.  Decoding reads any bytes: it yields the
characters, and an absent one for every maximal run of bytes that starts a character but does
not finish it, as for every byte that starts none.  A lenient reader puts the replacement
character there, a strict one refuses.
-/

namespace ClusterCache.Text

def utf8 (s : String) : List UInt8 := s.toList.flatMap String.utf8EncodeChar

/-- A character whose first bytes have been read: the bits so far, the number of bytes still to
come and the range in which the next one has to lie. -/
structure Unfinished where
  bits : Nat
  left : Nat
  low : UInt8
  high : UInt8

/-- What a byte can start. -/
inductive Start where
  | char (c : Char)
  | bad
  | more (u : Unfinished)

/-- Reads a byte that starts a character.  The narrower ranges of second bytes shut out overlong
forms, surrogates and numbers past the last code point. -/
def start (b : UInt8) : Start :=
  if b < 0x80 then .char (Char.ofNat b.toNat)
  else if b < 0xc2 then .bad
  else if b < 0xe0 then .more ⟨b.toNat - 0xc0, 1, 0x80, 0xbf⟩
  else if b = 0xe0 then .more ⟨0, 2, 0xa0, 0xbf⟩
  else if b = 0xed then .more ⟨0xd, 2, 0x80, 0x9f⟩
  else if b < 0xf0 then .more ⟨b.toNat - 0xe0, 2, 0x80, 0xbf⟩
  else if b = 0xf0 then .more ⟨0, 3, 0x90, 0xbf⟩
  else if b < 0xf4 then .more ⟨b.toNat - 0xf0, 3, 0x80, 0xbf⟩
  else if b = 0xf4 then .more ⟨4, 3, 0x80, 0x8f⟩
  else .bad

/-- Decodes on from an unfinished character, if there is one. -/
def decodeFrom : Option Unfinished → List UInt8 → List (Option Char)
  | none, [] => []
  | some _, [] => [none]
  | none, b :: bs =>
    match start b with
    | .char c => some c :: decodeFrom none bs
    | .bad => none :: decodeFrom none bs
    | .more u => decodeFrom (some u) bs
  | some u, b :: bs =>
    if u.low ≤ b ∧ b ≤ u.high then
      let bits := 64 * u.bits + (b.toNat - 0x80)
      if u.left = 1 then some (Char.ofNat bits) :: decodeFrom none bs
      else decodeFrom (some ⟨bits, u.left - 1, 0x80, 0xbf⟩) bs
    else
      match start b with
      | .char c => none :: some c :: decodeFrom none bs
      | .bad => none :: none :: decodeFrom none bs
      | .more v => none :: decodeFrom (some v) bs

/-- The characters of a byte sequence; absent ones stand for what is not UTF-8. -/
def decodeUtf8 (bytes : List UInt8) : List (Option Char) := decodeFrom none bytes

/-- Decodes leniently: the replacement character stands for what is not UTF-8. -/
def decodeLenient (bytes : List UInt8) : String :=
  String.ofList ((decodeUtf8 bytes).map (·.getD '\ufffd'))

end ClusterCache.Text
