import ClusterCache.Message
import ClusterCache.Proofs.Text.Utf8
import ClusterCache.Proofs.Wire.Record

/-!
# Reading messages back

A message whose data its fields can hold is read back from the bytes that are written for it.
-/

namespace ClusterCache

open Wire

/-- Messages whose fields have different names and can hold what they are given. -/
class FaithfulMessage (α : Type) [Message α] : Prop where
  names : ((Message.fields α).map (·.name)).Nodup
  holds : ∀ m : α, List.Forall₂ Field.Holds (Message.fields α) (Message.data m)
  back : ∀ m : α, Message.ofData? (Message.data m) = some m

namespace Message

variable {α : Type} [Message α]

/-- The bytes that are written for a message. -/
def bytes (m : α) : List UInt8 := Text.utf8 (String.ofList (encode m))

theorem decodeUtf8_bytes (m : α) : Text.decodeUtf8 (bytes m) = (encode m).map some := by
  rw [bytes, Text.decodeUtf8_utf8, String.toList_ofList]

variable [FaithfulMessage α]

theorem readRecord_encode (m : α) :
    readRecord (fields α) (tokens ((encode m).map some)) = .ok (data m, []) := by
  have hscans := scans_writeObject (members m) []
  rw [List.append_nil] at hscans
  have hread := readRecord_written FaithfulMessage.names (FaithfulMessage.holds m) []
  rw [List.append_nil] at hread
  rw [encode, tokens_of_scans hscans]
  exact hread

theorem decode_bytes (m : α) : decode (Text.decodeUtf8 (bytes m)) = .ok m := by
  simp only [decode, decodeUtf8_bytes, readRecord_encode, bind, Except.bind, FaithfulMessage.back]
  rfl

theorem decodeFront_bytes (m : α) : decodeFront (Text.decodeUtf8 (bytes m)) = .ok m := by
  simp only [decodeFront, decodeUtf8_bytes, readRecord_encode, bind, Except.bind,
    FaithfulMessage.back]

theorem decode_encode (m : α) : decode ((encode m).map some) = .ok m := by
  rw [← decodeUtf8_bytes]
  exact decode_bytes m

end Message

/-! ## The messages that are written and read -/

/-- A field for a text that may be missing holds one that is there and one that is not. -/
theorem Wire.Field.holds_ofOption {f : Field} (hkind : f.kind = .optionalText)
    (hleft : f.left? = some .absent) (value : Option String) : f.Holds (.ofOption value) := by
  cases value with
  | some s => exact .optionalText s hkind
  | none => exact .absent hleft

theorem Wire.Datum.option?_ofOption (value : Option String) :
    (Datum.ofOption value).option? = some value := by
  cases value <;> rfl

instance : FaithfulMessage PutOrder where
  names := by decide
  holds _ := .cons (.text _ rfl) (.cons (Field.holds_ofOption rfl rfl _) (.cons (.word _ rfl) .nil))
  back m := by simp [Message.ofData?, Message.data, Datum.option?_ofOption]

instance : FaithfulMessage PeerPut where
  names := by decide
  holds m := .cons (.text _ rfl) (.cons (.text _ rfl) (.cons (.word _ rfl) .nil))
  back _ := rfl

instance : FaithfulMessage PeerGet where
  names := by decide
  holds m := .cons (.text _ rfl) .nil
  back _ := rfl

instance : FaithfulMessage PeerDelete where
  names := by decide
  holds m := .cons (.text _ rfl) .nil
  back _ := rfl

instance : FaithfulMessage PeerPutAnswer where
  names := by decide
  holds m := .cons (.flag _ rfl) .nil
  back _ := rfl

instance : FaithfulMessage PeerGetAnswer where
  names := by decide
  holds m := .cons (.flag _ rfl) (.cons (.text _ rfl) .nil)
  back _ := rfl

instance : FaithfulMessage PeerDeleteAnswer where
  names := by decide
  holds m := .cons (.flag _ rfl) .nil
  back _ := rfl

instance : FaithfulMessage PutAnswer where
  names := by decide
  holds _ := .cons (.flag _ rfl) (.cons (Field.holds_ofOption rfl rfl _)
    (.cons (Field.holds_ofOption rfl rfl _) .nil))
  back m := by simp [Message.ofData?, Message.data, Datum.option?_ofOption]

instance : FaithfulMessage GetAnswer where
  names := by decide
  holds _ := .cons (Field.holds_ofOption rfl rfl _) (.cons (Field.holds_ofOption rfl rfl _)
    (.cons (Field.holds_ofOption rfl rfl _) .nil))
  back m := by simp [Message.ofData?, Message.data, Datum.option?_ofOption]

instance : FaithfulMessage DeleteAnswer where
  names := by decide
  holds _ := .cons (.flag _ rfl) (.cons (Field.holds_ofOption rfl rfl _)
    (.cons (Field.holds_ofOption rfl rfl _) .nil))
  back m := by simp [Message.ofData?, Message.data, Datum.option?_ofOption]

instance : FaithfulMessage ErrorAnswer where
  names := by decide
  holds m := .cons (.text _ rfl) (.cons (.text _ rfl) .nil)
  back _ := rfl

instance : FaithfulMessage HealthAnswer where
  names := by decide
  holds m := .cons (.text _ rfl) (.cons (.text _ rfl) (.cons (.flag _ rfl) (.cons (.text _ rfl) .nil)))
  back _ := rfl

end ClusterCache
