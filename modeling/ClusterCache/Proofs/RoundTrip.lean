import ClusterCache.Proofs.Forwarding

/-!
# Round trips over the wire

Whatever a message says, its reader gets it back from what was written: every text, with quotes,
control characters and characters of any plane, every word, and every choice of which of the
parts that may be missing are there.  So a node that is asked by another node is asked for what
the other one was asked for.
-/

namespace ClusterCache

namespace Message

/-- A message of this type is read back from the text that is written for it and from the bytes
of that text, also by a reader that ignores what comes after a message. -/
def ReadsBack (α : Type) [Message α] : Prop :=
  ∀ m : α, decode ((encode m).map some) = .ok m ∧
    decode (Text.decodeUtf8 (bytes m)) = .ok m ∧ decodeFront (Text.decodeUtf8 (bytes m)) = .ok m

theorem readsBack (α : Type) [Message α] [FaithfulMessage α] : ReadsBack α :=
  fun m => ⟨decode_encode m, decode_bytes m, decodeFront_bytes m⟩

end Message

open Message

/-- All messages that are both written and read are read back.  So the body of a call between
nodes is read as the key, the value and the time to live that the caller was given, and the route
that it goes to asks the shard for exactly that, unless the body is larger than any that is read. -/
theorem wire_round_trip :
    (ReadsBack PeerPut ∧ ReadsBack PeerGet ∧ ReadsBack PeerDelete ∧
      ReadsBack PeerPutAnswer ∧ ReadsBack PeerGetAnswer ∧ ReadsBack PeerDeleteAnswer ∧
      ReadsBack PutAnswer ∧ ReadsBack GetAnswer ∧ ReadsBack DeleteAnswer ∧
      ReadsBack ErrorAnswer ∧ ReadsBack HealthAnswer) ∧
    (∀ (address key value : String) (ttl : UInt64),
      decodeFront (Text.decodeUtf8 (Call.toHttp ⟨address, key, .put value ttl⟩).body) =
        .ok (⟨key, value, ttl⟩ : PeerPut)) ∧
    (∀ address key : String,
      decodeFront (Text.decodeUtf8 (Call.toHttp ⟨address, key, .get⟩).body) =
        .ok (⟨key⟩ : PeerGet)) ∧
    (∀ address key : String,
      decodeFront (Text.decodeUtf8 (Call.toHttp ⟨address, key, .delete⟩).body) =
        .ok (⟨key⟩ : PeerDelete)) ∧
    ∀ c : Call, Service.read c.toHttp =
      if Service.bodyLimit < c.toHttp.body.length then .answered ⟨413, .none⟩
      else .ask .peers c.request := by
  refine ⟨⟨readsBack _, readsBack _, readsBack _, readsBack _, readsBack _, readsBack _,
    readsBack _, readsBack _, readsBack _, readsBack _, readsBack _⟩, ?_, ?_, ?_, ?_⟩
  · intro address key value ttl
    rw [Call.body_put, decodeFront_bytes]
  · intro address key
    rw [Call.body_get, decodeFront_bytes]
  · intro address key
    rw [Call.body_delete, decodeFront_bytes]
  · exact Service.read_call

end ClusterCache
