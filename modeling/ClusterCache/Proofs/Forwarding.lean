import ClusterCache.Cluster.Basic
import ClusterCache.Proofs.Message

/-!
# Calls and their answers

The routes between nodes read the request that a call carries, and the caller reads the reply that
the routes wrote, a value that is empty included.
-/

namespace ClusterCache

/-- The bytes that a request takes up in a call. -/
def Request.wireSize (r : Request) : Nat := (Call.toHttp ⟨"", r⟩).body.length

namespace Call

theorem body_put (address key value : String) (ttl : UInt64) :
    (toHttp ⟨address, key, .put value ttl⟩).body = Message.bytes (⟨key, value, ttl⟩ : PeerPut) := by
  rw [toHttp, text, Message.bytes]

theorem body_get (address key : String) :
    (toHttp ⟨address, key, .get⟩).body = Message.bytes (⟨key⟩ : PeerGet) := by
  rw [toHttp, text, Message.bytes]

theorem body_delete (address key : String) :
    (toHttp ⟨address, key, .delete⟩).body = Message.bytes (⟨key⟩ : PeerDelete) := by
  rw [toHttp, text, Message.bytes]

end Call

namespace Service

theorem readBody_bytes {α : Type} [Message α] [FaithfulMessage α] (m : α) (use : α → Intent)
    {r : Http.Request} (htype : r.contentType = some "application/json")
    (hbody : r.body = Message.bytes m) :
    readBody r use = if bodyLimit < r.body.length then .answered ⟨413, .none⟩ else use m := by
  have hjson : Http.isJson "application/json" = true := by decide
  rw [readBody, htype, Option.any_some, hjson, if_neg (by decide), hbody,
    Message.decodeFront_bytes]

theorem ofPath?_verb (command : Command) :
    Resource.ofPath? (Http.pathOf ("/rpc/" ++ command.verb)) = some (match command with
      | .put _ _ => .peerPut
      | .get => .peerGet
      | .delete => .peerDelete) := by
  cases command with
  | put value ttl =>
      change Resource.ofPath? (Http.pathOf ("/rpc/" ++ "put")) = some .peerPut
      decide +kernel
  | get => decide +kernel
  | delete => decide +kernel

theorem length_body_toHttp (c : Call) : c.toHttp.body.length = c.request.wireSize := rfl

/-- A call is read as the request it carries, unless it is too large to be read. -/
theorem read_call (c : Call) :
    read c.toHttp = if bodyLimit < c.request.wireSize then .answered ⟨413, .none⟩
      else .ask .peers c.request := by
  have hpath : Resource.ofPath? (Http.pathOf c.toHttp.target) = _ :=
    ofPath?_verb c.request.command
  have hmethod : c.toHttp.method = "POST" := rfl
  have htype : c.toHttp.contentType = some "application/json" := rfl
  rw [read, hpath, hmethod, if_neg (by decide), if_neg (by decide), ← length_body_toHttp]
  obtain ⟨address, key, command⟩ := c
  cases command with
  | put value ttl =>
      exact readBody_bytes (⟨key, value, ttl⟩ : PeerPut) _ htype (Call.body_put address key value ttl)
  | get => exact readBody_bytes (⟨key⟩ : PeerGet) _ htype (Call.body_get address key)
  | delete => exact readBody_bytes (⟨key⟩ : PeerDelete) _ htype (Call.body_delete address key)

theorem read_toHttp (c : Call) (hlimit : c.request.wireSize ≤ bodyLimit) :
    read c.toHttp = .ask .peers c.request := by
  rw [read_call, if_neg (Nat.not_lt.mpr hlimit)]

end Service

namespace Call

/-- A message that answers a call is put to the use the caller has for it. -/
theorem outcome_bytes {α : Type} [Message α] [FaithfulMessage α] (c : Call) {use : α → Reply}
    (hread : ∀ body, c.read 200 body = readBody body use) (m : α) :
    c.outcome 200 (Message.bytes m) = use m := by
  rw [outcome, hread, readBody, Message.decode_bytes]

end Call

theorem PeerGetAnswer.toValue_ofValue (value : Option String) :
    (PeerGetAnswer.ofValue value).toValue = value := by
  cases value <;> rfl

/-- The reply of an owner that did what it was asked for arrives as it is, be the value that it
found empty or not. -/
theorem Cluster.peerReply_done (call : Call) {value : Option String}
    (hvalue : call.request.command ≠ .get → value = none) :
    peerReply call (.done value) = .done value := by
  obtain ⟨address, key, command⟩ := call
  cases command with
  | put v ttl =>
      rw [hvalue (by simp)]
      exact Call.outcome_bytes ⟨address, key, .put v ttl⟩ (fun _ => rfl) (⟨true⟩ : PeerPutAnswer)
  | get =>
      have hanswer := Call.outcome_bytes ⟨address, key, .get⟩ (fun _ => rfl)
        (PeerGetAnswer.ofValue value)
      exact hanswer.trans (congrArg Reply.done (PeerGetAnswer.toValue_ofValue value))
  | delete =>
      rw [hvalue (by simp)]
      exact Call.outcome_bytes ⟨address, key, .delete⟩ (fun _ => rfl) (⟨true⟩ : PeerDeleteAnswer)

end ClusterCache
