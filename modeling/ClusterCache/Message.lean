import ClusterCache.Failure
import ClusterCache.Wire.Record

/-!
# Messages

The records that nodes and their callers exchange.  Requests on the public surface are read
leniently, with defaults for what is missing; answers there carry the code and the wording of a
failure only when there is one.  Requests between nodes have to be complete, save for the time to
live of a put.
-/

namespace ClusterCache

open Wire

/-- A type of message: its fields, and its values as data for these fields. -/
class Message (α : Type) where
  fields : List Field
  data : α → List Datum
  ofData? : List Datum → Option α

namespace Message

variable {α : Type} [Message α]

/-- The fields of a message that are written, with their names. -/
def members (m : α) : List (String × Datum) := Wire.members (fields α) (data m)

def encode (m : α) : List Char := writeObject (members m)

/-- Reads a message and ignores what follows it. -/
def decodeFront (text : List Symbol) : Except Fault α := do
  let (ds, _) ← readRecord (fields α) (tokens text)
  match ofData? ds with
  | some m => .ok m
  | none => .error .mistyped

/-- Reads a message that takes up the whole text. -/
def decode (text : List Symbol) : Except Fault α := do
  let (ds, rest) ← readRecord (fields α) (tokens text)
  match ofData? ds with
  | some m => if rest.isEmpty then .ok m else .error .malformed
  | none => .error .mistyped

end Message

def Wire.Datum.ofOption : Option String → Datum
  | some s => .text s
  | none => .absent

/-- The optional text that a field holds. -/
def Wire.Datum.option? : Datum → Option (Option String)
  | .text s => some (some s)
  | .absent => some none
  | _ => none

/-! ## Requests on the public surface -/

/-- Asks to store a value; the value may be missing, which is found out later. -/
structure PutOrder where
  key : String
  value : Option String
  ttl : UInt64
deriving DecidableEq, Repr

instance : Message PutOrder where
  fields := [⟨"key", .text, some (.text "")⟩, ⟨"value", .optionalText, some .absent⟩,
    ⟨"ttlInSec", .word, some (.word 0)⟩]
  data m := [.text m.key, .ofOption m.value, .word m.ttl]
  ofData?
    | [.text key, value, .word ttl] => value.option?.map fun value => ⟨key, value, ttl⟩
    | _ => none

/-- The value to store, if the order has a key and a value; the key is looked at first. -/
def PutOrder.validate (m : PutOrder) : Except Failure String :=
  if m.key = "" then .error .emptyKey
  else match m.value with
    | some value => .ok value
    | none => .error .missingValue

/-- Names the key to read or delete. -/
structure KeyQuery where
  key : String
deriving DecidableEq, Repr

instance : Message KeyQuery where
  fields := [⟨"key", .text, some (.text "")⟩]
  data m := [.text m.key]
  ofData?
    | [.text key] => some ⟨key⟩
    | _ => none

/-! ## Answers on the public surface -/

/-- Whether a value was stored. -/
structure PutAnswer where
  stored : Bool
  code : Option String := none
  message : Option String := none
deriving DecidableEq, Repr

instance : Message PutAnswer where
  fields := [⟨"putStatus", .flag, none⟩, ⟨"errorCode", .optionalText, none⟩,
    ⟨"errorMessage", .optionalText, none⟩]
  data m := [.flag m.stored, .ofOption m.code, .ofOption m.message]
  ofData?
    | [.flag stored, code, message] => do return ⟨stored, ← code.option?, ← message.option?⟩
    | _ => none

/-- The answer to a put that failed. -/
def PutAnswer.failed (f : Failure) : PutAnswer := ⟨false, some f.code, some f.message⟩

/-- The value read; a miss has neither a value nor an error. -/
structure GetAnswer where
  value : Option String
  code : Option String := none
  message : Option String := none
deriving DecidableEq, Repr

instance : Message GetAnswer where
  fields := [⟨"value", .optionalText, none⟩, ⟨"errorCode", .optionalText, none⟩,
    ⟨"errorMessage", .optionalText, none⟩]
  data m := [.ofOption m.value, .ofOption m.code, .ofOption m.message]
  ofData?
    | [value, code, message] => do return ⟨← value.option?, ← code.option?, ← message.option?⟩
    | _ => none

/-- The answer to a read that failed. -/
def GetAnswer.failed (f : Failure) : GetAnswer := ⟨none, some f.code, some f.message⟩

/-- Whether a key was deleted. -/
structure DeleteAnswer where
  removed : Bool
  code : Option String := none
  message : Option String := none
deriving DecidableEq, Repr

instance : Message DeleteAnswer where
  fields := [⟨"removeStatus", .flag, none⟩, ⟨"errorCode", .optionalText, none⟩,
    ⟨"errorMessage", .optionalText, none⟩]
  data m := [.flag m.removed, .ofOption m.code, .ofOption m.message]
  ofData?
    | [.flag removed, code, message] => do return ⟨removed, ← code.option?, ← message.option?⟩
    | _ => none

/-- The answer to a deletion that failed. -/
def DeleteAnswer.failed (f : Failure) : DeleteAnswer := ⟨false, some f.code, some f.message⟩

/-- Whether a node is up, and what it knows of its cluster. -/
structure HealthAnswer where
  status : String
  nodeId : String
  clusterReady : Bool
  timestamp : String
deriving DecidableEq, Repr

instance : Message HealthAnswer where
  fields := [⟨"status", .text, none⟩, ⟨"nodeId", .text, none⟩, ⟨"clusterReady", .flag, none⟩,
    ⟨"timestamp", .text, none⟩]
  data m := [.text m.status, .text m.nodeId, .flag m.clusterReady, .text m.timestamp]
  ofData?
    | [.text status, .text nodeId, .flag ready, .text time] => some ⟨status, nodeId, ready, time⟩
    | _ => none

/-! ## Messages between nodes -/

/-- Asks the owner of a key to store a value. -/
structure PeerPut where
  key : String
  value : String
  ttl : UInt64
deriving DecidableEq, Repr

instance : Message PeerPut where
  fields := [⟨"key", .text, none⟩, ⟨"value", .text, none⟩, ⟨"ttlInSec", .word, some (.word 0)⟩]
  data m := [.text m.key, .text m.value, .word m.ttl]
  ofData?
    | [.text key, .text value, .word ttl] => some ⟨key, value, ttl⟩
    | _ => none

/-- Asks the owner of a key for its value. -/
structure PeerGet where
  key : String
deriving DecidableEq, Repr

instance : Message PeerGet where
  fields := [⟨"key", .text, none⟩]
  data m := [.text m.key]
  ofData?
    | [.text key] => some ⟨key⟩
    | _ => none

/-- Asks the owner of a key to delete it. -/
structure PeerDelete where
  key : String
deriving DecidableEq, Repr

instance : Message PeerDelete where
  fields := [⟨"key", .text, none⟩]
  data m := [.text m.key]
  ofData?
    | [.text key] => some ⟨key⟩
    | _ => none

/-- Whether the owner stored a value. -/
structure PeerPutAnswer where
  success : Bool
deriving DecidableEq, Repr

instance : Message PeerPutAnswer where
  fields := [⟨"success", .flag, none⟩]
  data m := [.flag m.success]
  ofData?
    | [.flag success] => some ⟨success⟩
    | _ => none

/-- The value that the owner found; it is empty if there was none. -/
structure PeerGetAnswer where
  found : Bool
  value : String
deriving DecidableEq, Repr

instance : Message PeerGetAnswer where
  fields := [⟨"found", .flag, none⟩, ⟨"value", .text, some (.text "")⟩]
  data m := [.flag m.found, .text m.value]
  ofData?
    | [.flag found, .text value] => some ⟨found, value⟩
    | _ => none

/-- The answer that carries an optional value. -/
def PeerGetAnswer.ofValue (value : Option String) : PeerGetAnswer := ⟨value.isSome, value.getD ""⟩

/-- The optional value that an answer carries. -/
def PeerGetAnswer.toValue (m : PeerGetAnswer) : Option String :=
  if m.found then some m.value else none

/-- Whether the owner deleted a key. -/
structure PeerDeleteAnswer where
  success : Bool
deriving DecidableEq, Repr

instance : Message PeerDeleteAnswer where
  fields := [⟨"success", .flag, none⟩]
  data m := [.flag m.success]
  ofData?
    | [.flag success] => some ⟨success⟩
    | _ => none

/-- What a node answers another when a request fails. -/
structure ErrorAnswer where
  code : String
  message : String
deriving DecidableEq, Repr

instance : Message ErrorAnswer where
  fields := [⟨"errorCode", .text, none⟩, ⟨"errorMessage", .text, none⟩]
  data m := [.text m.code, .text m.message]
  ofData?
    | [.text code, .text message] => some ⟨code, message⟩
    | _ => none

def ErrorAnswer.ofFailure (f : Failure) : ErrorAnswer := ⟨f.code, f.message⟩

end ClusterCache
