import ClusterCache.Text.Blank

/-!
# Media types

A media type is a type, a slash, a subtype and perhaps parameters after semicolons.  A body is
taken for JSON if its type is `application` and its subtype is `json`, alone or before or after
the last plus sign, in any case.  A media type that is not well formed, in its parameters too,
names nothing.
-/

namespace ClusterCache.Http

/-- Whether a character may stand in the words of a media type. -/
def isTokenChar (c : Char) : Bool :=
  c.isAlphanum || "!#$%&'*+-.^_\x60|~".toList.contains c

/-- Whether a character may stand in a quoted value. -/
def isQuotedChar (c : Char) : Bool := ' ' ≤ c && c ≠ '\x7f'

/-- Where the reader of parameters stands. -/
inductive ParameterState where
  /-- Before a name: blanks may come. -/
  | start
  /-- Inside a name. -/
  | name
  /-- Right after the equals sign. -/
  | valueStart
  /-- Inside a value. -/
  | value
  /-- Right after an opening quote. -/
  | quoteStart
  /-- Inside a quoted value. -/
  | quoted
  /-- After a closing quote: blanks may come. -/
  | quotedEnd
deriving DecidableEq, Repr

/-- Whether the text after the first semicolon is a list of parameters. -/
def areParameters : ParameterState → List Char → Bool
  | .start, [] => true
  | .name, [] => false
  | .valueStart, [] => true
  | .value, [] => true
  | .quoteStart, [] => false
  | .quoted, [] => false
  | .quotedEnd, [] => true
  | .start, c :: cs =>
    if c = ' ' then areParameters .start cs
    else isTokenChar c && areParameters .name cs
  | .name, c :: cs =>
    if c = '=' then areParameters .valueStart cs
    else isTokenChar c && areParameters .name cs
  | .valueStart, c :: cs =>
    if c = '"' then areParameters .quoteStart cs
    else isTokenChar c && areParameters .value cs
  | .value, c :: cs =>
    if c = ';' then areParameters .start cs
    else isTokenChar c && areParameters .value cs
  | .quoteStart, c :: cs => isQuotedChar c && areParameters .quoted cs
  | .quoted, c :: cs =>
    if c = '"' then areParameters .quotedEnd cs
    else isQuotedChar c && areParameters .quoted cs
  | .quotedEnd, c :: cs =>
    if c = ';' then areParameters .start cs
    else c = ' ' && areParameters .quotedEnd cs

/-- The subtype and the parameters of what follows the slash. -/
def subtype (rest : List Char) : List Char × Option (List Char) :=
  match Text.splitFirst? ';' rest with
  | some (name, parameters) => (name, some parameters)
  | none => (rest, none)

/-- What stands before and after the last plus sign, if one stands there that is not the first
character. -/
def splitSuffix (name : List Char) : List Char × Option (List Char) :=
  match Text.splitFirst? '+' name.reverse with
  | some (after, before) =>
    if before.isEmpty then (name, none) else (before.reverse, some after.reverse)
  | none => (name, none)

/-- Whether a media type stands for JSON. -/
def isJson (mediaType : String) : Bool :=
  let text := mediaType.toList
  match Text.splitFirst? '/' text with
  | none => false
  | some (kind, rest) =>
    let (name, parameters) := subtype rest
    let wellFormed := text.all (fun c => c = '\t' || (' ' ≤ c && c < '\x7f'))
      && kind.all isTokenChar && name.all isTokenChar
      && (parameters.isNone || !name.isEmpty)
      && areParameters .start (parameters.getD [])
    let (stem, suffix) := splitSuffix (name.map Char.toLower)
    wellFormed && kind.map Char.toLower = "application".toList
      && (stem = "json".toList || suffix = some "json".toList)

end ClusterCache.Http
