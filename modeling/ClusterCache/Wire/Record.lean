import ClusterCache.Wire.Token

/-!
# Records

A message is a record of named fields.  It is written as an object with its fields in order, and
read from an object with the fields in any order or from an array with the fields in order.
Fields of an object that nobody knows are skipped.

A reader tells two faults apart: text that is not JSON is `malformed`, JSON that is not the record
asked for is `mistyped`.  The first fault from the left is the one reported, and nothing after the
end of the record is looked at unless the caller asks for it.
-/

namespace ClusterCache.Wire

/-- What can be wrong with a record. -/
inductive Fault where
  | malformed
  | mistyped
deriving DecidableEq, Repr

/-- The kinds of field. -/
inductive Kind where
  | text
  | optionalText
  | word
  | flag
deriving DecidableEq, Repr

/-- The value of a field. -/
inductive Datum where
  | text (s : String)
  | absent
  | word (n : UInt64)
  | flag (b : Bool)
deriving DecidableEq, Repr

/-- A field: its name, its kind and the value it has when a record leaves it out. -/
structure Field where
  name : String
  kind : Kind
  fallback : Option Datum := none
deriving DecidableEq, Repr

/-! ## Writing -/

def hexDigit (n : Nat) : Char := if n < 10 then Char.ofNat (n + 48) else Char.ofNat (n + 87)

/-- A character as it stands in a string. -/
def writeChar (c : Char) : List Char :=
  if c = '"' then ['\\', '"']
  else if c = '\\' then ['\\', '\\']
  else if c = '\x08' then ['\\', 'b']
  else if c = '\x0c' then ['\\', 'f']
  else if c = '\n' then ['\\', 'n']
  else if c = '\r' then ['\\', 'r']
  else if c = '\t' then ['\\', 't']
  else if c < ' ' then ['\\', 'u', '0', '0', hexDigit (c.toNat / 16), hexDigit (c.toNat % 16)]
  else [c]

def writeText (s : String) : List Char := '"' :: s.toList.flatMap writeChar ++ ['"']

def writeDatum : Datum → List Char
  | .text s => writeText s
  | .absent => "null".toList
  | .word n => (Nat.repr n.toNat).toList
  | .flag b => if b then "true".toList else "false".toList

def writeMember (member : String × Datum) : List Char :=
  writeText member.1 ++ ':' :: writeDatum member.2

def writeMembers : List (String × Datum) → List Char
  | [] => []
  | [m] => writeMember m
  | m :: ms => writeMember m ++ ',' :: writeMembers ms

def writeObject (members : List (String × Datum)) : List Char :=
  '{' :: writeMembers members ++ ['}']

/-- The fields of a record that are written: the absent ones are left out. -/
def members (fields : List Field) (data : List Datum) : List (String × Datum) :=
  ((fields.map (·.name)).zip data).filter fun m => m.2 ≠ .absent

/-! ## Reading -/

def readDatum (kind : Kind) : List Token → Except Fault (Datum × List Token)
  | [] => .error .malformed
  | t :: rest =>
    match kind, t with
    | .text, .string (some s) => .ok (.text s, rest)
    | .optionalText, .string (some s) => .ok (.text s, rest)
    | .optionalText, .null => .ok (.absent, rest)
    | .word, .number (.word n) => .ok (.word n, rest)
    | .flag, .bool b => .ok (.flag b, rest)
    | _, .string (some _) => .error .mistyped
    | _, .number (.word _) => .error .mistyped
    | _, .number .other => .error .mistyped
    | _, .bool _ => .error .mistyped
    | _, .null => .error .mistyped
    | _, .openArray => .error .mistyped
    | _, .openObject => .error .mistyped
    | _, _ => .error .malformed

/-- What a skipped value needs next. -/
inductive Need where
  | value
  | valueOrEnd
  | keyOrEnd
  | key
  | colon
  | commaOrEnd
deriving DecidableEq, Repr

/-- Skips to the end of a value.  `inside` lists the arrays (`false`) and objects (`true`) that
are open, innermost first. -/
def skip : List Bool → Need → List Token → Except Fault (List Token)
  | _, _, [] => .error .malformed
  | inside, need, t :: rest =>
    let finished (inside : List Bool) : Except Fault (List Token) :=
      if inside.isEmpty then .ok rest else skip inside .commaOrEnd rest
    let started : Except Fault (List Token) :=
      match t with
      | .string _ => finished inside
      | .number _ => finished inside
      | .bool _ => finished inside
      | .null => finished inside
      | .openArray => skip (false :: inside) .valueOrEnd rest
      | .openObject => skip (true :: inside) .keyOrEnd rest
      | _ => .error .malformed
    match need, inside, t with
    | .value, _, _ => started
    | .valueOrEnd, _ :: outside, .closeArray => finished outside
    | .valueOrEnd, _, _ => started
    | .keyOrEnd, _ :: outside, .closeObject => finished outside
    | .keyOrEnd, _, .string _ => skip inside .colon rest
    | .key, _, .string _ => skip inside .colon rest
    | .colon, _, .colon => skip inside .value rest
    | .commaOrEnd, false :: _, .comma => skip inside .value rest
    | .commaOrEnd, true :: _, .comma => skip inside .key rest
    | .commaOrEnd, false :: outside, .closeArray => finished outside
    | .commaOrEnd, true :: outside, .closeObject => finished outside
    | _, _, _ => .error .malformed

/-- Reads the colon after the name of a field. -/
def readColon : List Token → Except Fault (List Token)
  | .colon :: rest => .ok rest
  | _ => .error .malformed

/-- Reads the fields of an object up to its end, at most `fuel` of them.  `read` has the values
read so far by position; a field that is known and comes again is a fault. -/
def readMembers (fields : List Field) :
    Nat → Bool → List (Option Datum) → List Token →
      Except Fault (List (Option Datum) × List Token)
  | 0, _, _, _ => .error .malformed
  | fuel + 1, first, read, tokens => do
    let member (name : String) (rest : List Token) := do
      match fields.findIdx? (·.name = name) with
      | none => readMembers fields fuel false read (← skip [] .value (← readColon rest))
      | some i =>
        if (read[i]?).join.isSome then .error .mistyped
        else
          let kind := (fields[i]?).elim .text (·.kind)
          let (datum, rest) ← readDatum kind (← readColon rest)
          readMembers fields fuel false (read.set i (some datum)) rest
    match tokens with
    | .closeObject :: rest => .ok (read, rest)
    | .string (some name) :: rest => if first then member name rest else .error .malformed
    | .comma :: .string (some name) :: rest => if first then .error .malformed else member name rest
    | _ => .error .malformed

/-- The value of a field that an object leaves out. -/
def Field.left? (f : Field) : Option Datum :=
  f.fallback.or (if f.kind = .optionalText then some .absent else none)

/-- Fills in the fields that an object leaves out. -/
def fill : List Field → List (Option Datum) → Except Fault (List Datum)
  | [], _ => .ok []
  | f :: fs, ds => do
    let d ← match ds.head?.join.or f.left? with
      | some d => .ok d
      | none => .error .mistyped
    return d :: (← fill fs ds.tail)

/-- Reads the fields of an array in order, up to its end.  Only a field with a fallback may be
left out. -/
def readElements : Bool → List Field → List Token → Except Fault (List Datum × List Token)
  | _, [], .closeArray :: rest => .ok ([], rest)
  | _, [], _ => .error .malformed
  | first, f :: fs, tokens =>
    let element (rest : List Token) := do
      let (d, rest) ← readDatum f.kind rest
      let (ds, rest) ← readElements false fs rest
      return (d :: ds, rest)
    match first, tokens with
    | _, [] => .error .malformed
    | _, .closeArray :: _ =>
      match f.fallback with
      | none => .error .mistyped
      | some d => do
        let (ds, rest) ← readElements first fs tokens
        return (d :: ds, rest)
    | true, rest => element rest
    | false, .comma :: .closeArray :: _ => .error .malformed
    | false, .comma :: rest => element rest
    | false, _ => .error .malformed

/-- Reads a record and leaves what follows it. -/
def readRecord (fields : List Field) (tokens : List Token) :
    Except Fault (List Datum × List Token) :=
  match tokens with
  | .openObject :: rest => do
    let (read, rest) ← readMembers fields (rest.length + 1) true (fields.map fun _ => none) rest
    return (← fill fields read, rest)
  | .openArray :: rest => readElements true fields rest
  | .string (some _) :: _ => .error .mistyped
  | .number (.word _) :: _ => .error .mistyped
  | .number .other :: _ => .error .mistyped
  | .bool _ :: _ => .error .mistyped
  | .null :: _ => .error .mistyped
  | _ => .error .malformed

end ClusterCache.Wire
