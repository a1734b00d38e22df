import ClusterCache.Cluster.Client
import ClusterCache.Proofs.Cluster.Basic
import ClusterCache.Proofs.Http.Query

/-!
# Callers and peers are served alike

What a caller asks of a host under `/cache` another node can ask under `/rpc`.  Whatever the host is
like, both leave the cluster as it would be after the other, and both answers tell the same: the
status, whether the command was done, the value that was found, and what went wrong.
-/

namespace ClusterCache

/-- A failure is never reported with the status of a success. -/
theorem Failure.le_status (f : Failure) : 400 ≤ f.status := by
  cases f <;> simp [status]

namespace Service

/-! ## Asking -/

/-- The body of a request is a message, in JSON and of no more bytes than are read. -/
structure Carries {α : Type} [Message α] (p : Http.Request) (m : α) : Prop where
  json : p.contentType.any Http.isJson = true
  limit : p.body.length ≤ bodyLimit
  message : Message.decodeFront (Text.decodeUtf8 p.body) = .ok m

/-- A caller asks for something; a put has a value. -/
structure AsksCallers (r : Request) (p : Http.Request) : Prop where
  path : Http.pathOf p.target = "/cache".toList
  asks : match r.command with
    | .put value ttl => p.method = "PUT" ∧ Carries p (⟨r.key, some value, ttl⟩ : PutOrder)
    | .get => p.method = "GET" ∧ Http.queryKey? (Http.queryOf p.target) = some r.key
    | .delete => p.method = "DELETE" ∧ Http.queryKey? (Http.queryOf p.target) = some r.key

/-- Another node asks for something. -/
structure AsksPeers (r : Request) (p : Http.Request) : Prop where
  method : p.method = "POST"
  asks : match r.command with
    | .put value ttl => Http.pathOf p.target = "/rpc/put".toList ∧
        Carries p (⟨r.key, value, ttl⟩ : PeerPut)
    | .get => Http.pathOf p.target = "/rpc/get".toList ∧ Carries p (⟨r.key⟩ : PeerGet)
    | .delete => Http.pathOf p.target = "/rpc/delete".toList ∧ Carries p (⟨r.key⟩ : PeerDelete)

theorem Carries.readBody {α : Type} [Message α] {p : Http.Request} {m : α} (h : Carries p m)
    (use : α → Intent) : readBody p use = use m := by
  rw [Service.readBody, h.json, if_neg (by decide), if_neg (Nat.not_lt.mpr h.limit), h.message]

theorem readKey_eq {p : Http.Request} {key : String}
    (h : Http.queryKey? (Http.queryOf p.target) = some key) (use : KeyQuery → Intent) :
    readKey p use = use ⟨key⟩ := by
  rw [readKey, h]

theorem carries_bytes {α : Type} [Message α] [FaithfulMessage α] {p : Http.Request} (m : α)
    (htype : p.contentType = some "application/json") (hbody : p.body = Message.bytes m)
    (hlimit : p.body.length ≤ bodyLimit) : Carries p m where
  json := by
    rw [htype]
    decide
  limit := hlimit
  message := by rw [hbody, Message.decodeFront_bytes]

section Read

variable {r : Request} {p : Http.Request}

theorem AsksPeers.read (h : AsksPeers r p) : read p = .ask .peers r := by
  obtain ⟨key, command⟩ := r
  obtain ⟨hmethod, hasks⟩ := h
  cases command
  all_goals
    obtain ⟨hpath, hbody⟩ := hasks
    rw [Service.read, hmethod, hpath]
    exact hbody.readBody _

/-- A put without a key is answered at once; everything else is asked of the shard. -/
theorem AsksCallers.read (h : AsksCallers r p) : read p = .ask .callers r ∨
    r.key = "" ∧ read p = .answered (answer .callers r.command (.failed .emptyKey)) := by
  obtain ⟨key, command⟩ := r
  obtain ⟨hpath, hasks⟩ := h
  cases command with
  | put value ttl =>
      obtain ⟨hmethod, hbody⟩ := hasks
      have hread : Service.read p = ofOrder ⟨key, some value, ttl⟩ := by
        rw [Service.read, hmethod, hpath]
        exact hbody.readBody _
      rw [hread, ofOrder, PutOrder.validate]
      -- The order is turned down with what the shard says of a request without a key.
      by_cases hkey : key = ""
      · exact .inr ⟨hkey, by rw [if_pos hkey]; rfl⟩
      · exact .inl (by rw [if_neg hkey])
  | get =>
      obtain ⟨hmethod, hkey⟩ := hasks
      left
      rw [Service.read, hmethod, hpath]
      exact readKey_eq hkey fun m => .ask .callers ⟨m.key, .get⟩
  | delete =>
      obtain ⟨hmethod, hkey⟩ := hasks
      left
      rw [Service.read, hmethod, hpath]
      exact readKey_eq hkey fun m => .ask .callers ⟨m.key, .delete⟩

/-- None of the requests asks for the head of a resource. -/
theorem AsksCallers.method_ne (h : AsksCallers r p) : p.method ≠ "HEAD" := by
  obtain ⟨key, command⟩ := r
  obtain ⟨-, hasks⟩ := h
  cases command <;> (rw [hasks.1]; decide)

theorem AsksPeers.method_ne (h : AsksPeers r p) : p.method ≠ "HEAD" := by
  rw [h.method]
  decide

end Read

/-! ## Every request can be asked -/

/-- The target that names a key to read or delete. -/
def keyTarget (key : String) : String :=
  String.ofList ("/cache".toList ++ '?' :: Http.keyQuery key)

/-- A request as a caller may send it. -/
def callersRequest (r : Request) : Http.Request :=
  match r.command with
  | .put value ttl =>
    { method := "PUT"
      target := "/cache"
      contentType := some "application/json"
      body := Message.bytes (⟨r.key, some value, ttl⟩ : PutOrder) }
  | .get => { method := "GET", target := keyTarget r.key }
  | .delete => { method := "DELETE", target := keyTarget r.key }

/-- What a caller writes to put a value is what a node writes. -/
theorem bytes_putOrder (key value : String) (ttl : UInt64) :
    Message.bytes (⟨key, some value, ttl⟩ : PutOrder) =
      Message.bytes (⟨key, value, ttl⟩ : PeerPut) := by
  have hmembers : Message.members (⟨key, some value, ttl⟩ : PutOrder) =
      Message.members (⟨key, value, ttl⟩ : PeerPut) := rfl
  rw [Message.bytes, Message.bytes, Message.encode, Message.encode, hmembers]

theorem cut_keyTarget (key : String) : Http.pathOf (keyTarget key) = "/cache".toList ∧
    Http.queryKey? (Http.queryOf (keyTarget key)) = some key := by
  have hfragment : '#' ∉ "/cache".toList ++ '?' :: Http.keyQuery key := by
    rw [List.mem_append, List.mem_cons, not_or, not_or]
    exact ⟨by decide, by decide, Http.notMem_keyQuery key (by decide)⟩
  obtain ⟨hpath, hquery⟩ := Http.cut_target (by decide) hfragment
  exact ⟨hpath, (congrArg _ hquery).trans (Http.queryKey?_keyQuery key)⟩

theorem asks_callersRequest (r : Request) (hlimit : r.wireSize ≤ bodyLimit) :
    AsksCallers r (callersRequest r) := by
  obtain ⟨key, command⟩ := r
  cases command with
  | put value ttl =>
      have hpath : Http.pathOf "/cache" = "/cache".toList := by decide
      have hbody : (callersRequest ⟨key, .put value ttl⟩).body =
          Message.bytes (⟨key, some value, ttl⟩ : PutOrder) := by
        rw [callersRequest]
      have hsize : (callersRequest ⟨key, .put value ttl⟩).body.length ≤ bodyLimit := by
        rw [hbody, bytes_putOrder, ← Call.body_put "" key value ttl]
        exact hlimit
      exact ⟨hpath, rfl, carries_bytes _ rfl hbody hsize⟩
  | get => exact ⟨(cut_keyTarget key).1, rfl, (cut_keyTarget key).2⟩
  | delete => exact ⟨(cut_keyTarget key).1, rfl, (cut_keyTarget key).2⟩

theorem asks_toHttp (c : Call) (hlimit : c.request.wireSize ≤ bodyLimit) :
    AsksPeers c.request c.toHttp := by
  obtain ⟨address, key, command⟩ := c
  refine ⟨rfl, ?_⟩
  cases command with
  | put value ttl =>
      have hpath : Http.pathOf ("/rpc/" ++ "put") = "/rpc/put".toList := by decide
      exact ⟨hpath, carries_bytes _ rfl (Call.body_put address key value ttl) hlimit⟩
  | get =>
      have hpath : Http.pathOf ("/rpc/" ++ "get") = "/rpc/get".toList := by decide
      exact ⟨hpath, carries_bytes _ rfl (Call.body_get address key) hlimit⟩
  | delete =>
      have hpath : Http.pathOf ("/rpc/" ++ "delete") = "/rpc/delete".toList := by decide
      exact ⟨hpath, carries_bytes _ rfl (Call.body_delete address key) hlimit⟩

/-! ## Answers -/

/-- The body of a response is a message. -/
def Says {α : Type} [Message α] (response : Http.Response) (m : α) : Prop :=
  Message.decode (Text.decodeUtf8 response.bytes) = .ok m

/-- A caller and another node are both told that a command was done.  The caller gets a value exactly
if the node is told that there is one, and then they get the same. -/
def BothDone : Command → Http.Response → Http.Response → Prop
  | .put _ _, a, b => Says a ({ stored := true } : PutAnswer) ∧ Says b (⟨true⟩ : PeerPutAnswer)
  | .get, a, b => ∃ (m : GetAnswer) (n : PeerGetAnswer), Says a m ∧ Says b n ∧
      m.code = none ∧ m.message = none ∧
      (m.value.isSome ↔ n.found = true) ∧ (n.found = true → m.value = some n.value)
  | .delete, a, b =>
    Says a ({ removed := true } : DeleteAnswer) ∧ Says b (⟨true⟩ : PeerDeleteAnswer)

/-- A caller and another node are both told that a command failed, with the same code and the same
wording. -/
def BothFailed (command : Command) (a b : Http.Response) : Prop :=
  ∃ e : ErrorAnswer, Says b e ∧
    match command with
    | .put _ _ => Says a (⟨false, some e.code, some e.message⟩ : PutAnswer)
    | .get => Says a (⟨none, some e.code, some e.message⟩ : GetAnswer)
    | .delete => Says a (⟨false, some e.code, some e.message⟩ : DeleteAnswer)

/-- A caller and another node are told the same. -/
structure Agree (command : Command) (a b : Http.Response) : Prop where
  status : a.status = b.status
  outcome : (a.status = 200 ∧ BothDone command a b) ∨ (400 ≤ a.status ∧ BothFailed command a b)

theorem says_ofMessage {α : Type} [Message α] [FaithfulMessage α] (status : Nat) (m : α) :
    Says (.ofMessage status m) m :=
  Message.decode_bytes m

/-- Both surfaces make the same of a reply. -/
theorem agree_answer (command : Command) (reply : Reply) :
    Agree command (answer .callers command reply) (answer .peers command reply) := by
  cases reply with
  | done value =>
      cases command with
      | put _ _ => exact ⟨rfl, .inl ⟨rfl, says_ofMessage 200 _, says_ofMessage 200 _⟩⟩
      | get =>
          refine ⟨rfl, .inl ⟨rfl, { value }, .ofValue value, says_ofMessage 200 _,
            says_ofMessage 200 _, rfl, rfl, Iff.rfl, fun hfound => ?_⟩⟩
          obtain ⟨text, rfl⟩ := Option.isSome_iff_exists.mp hfound
          rfl
      | delete => exact ⟨rfl, .inl ⟨rfl, says_ofMessage 200 _, says_ofMessage 200 _⟩⟩
  | failed f =>
      cases command
      all_goals
        exact ⟨rfl, .inr ⟨f.le_status, .ofFailure f, says_ofMessage f.status _,
          says_ofMessage f.status _⟩⟩

end Service

namespace Cluster

open Service

/-- A host is asked for something by somebody who waits as long as the host says; a refusal is a reply
too. -/
def inquire (c : Cluster) (i timeout : Nat) (r : Request) : Cluster × Reply :=
  match c.submit i r with
  | (c, .error f) => (c, .failed f)
  | (c, .ok ticket) => c.awaitReply i ticket (some timeout)

section Exchange

variable {c : Cluster} {i : Nat} {h : Host} (hi : c.host? i = some h) {r : Request}
  {p : Http.Request}
include hi

/-- A request without a key is refused, and nothing changes. -/
theorem inquire_of_keyless (hkey : r.key = "") (timeout : Nat) :
    c.inquire i timeout r = (c, .failed .emptyKey) := by
  have hsubmit : h.shard.submit r = (h.shard, .error .emptyKey) := by rw [Shard.submit, if_pos hkey]
  rw [inquire, submit, hi]
  simp only [hsubmit]
  rw [modifyShard_congr hi (g := fun s => s) rfl, modifyShard_id]

theorem exchange_of_ask {surface : Surface} (hread : read p = .ask surface r)
    (hmethod : p.method ≠ "HEAD") (time : String) :
    c.exchange i time p = ((c.inquire i h.timeoutMs r).1,
      answer surface r.command (c.inquire i h.timeoutMs r).2) := by
  rw [exchange, hi, hread, inquire]
  rcases hsubmit : c.submit i r with ⟨d, f | ticket⟩ <;>
    simp only [send, if_neg hmethod, hsubmit]

theorem exchange_callers (hp : AsksCallers r p) (time : String) :
    c.exchange i time p = ((c.inquire i h.timeoutMs r).1,
      answer .callers r.command (c.inquire i h.timeoutMs r).2) := by
  obtain hread | ⟨hkey, hread⟩ := hp.read
  · exact exchange_of_ask hi hread hp.method_ne time
  · rw [inquire_of_keyless hi hkey, exchange, hi, hread]
    simp only [send, if_neg hp.method_ne]

/-- Whatever a host is like, callers and other nodes are served alike: afterwards everything is as it
is after the other request, and both are told the same. -/
theorem surfaces_agree {q : Http.Request} (hp : AsksCallers r p) (hq : AsksPeers r q)
    (time time' : String) :
    (c.exchange i time p).1 = (c.exchange i time' q).1 ∧
      Agree r.command (c.exchange i time p).2 (c.exchange i time' q).2 := by
  rw [exchange_callers hi hp, exchange_of_ask hi hq.read hq.method_ne]
  exact ⟨rfl, agree_answer r.command _⟩

end Exchange

/-- Requests with and without a key, as they are sent on both surfaces to a host that has its own
ring. -/
theorem surfaces_agree_of_three :
    let c : Cluster := { hosts := [Host.make {} (Settings.ring {}) 1 none], clock := ⟨0, 0⟩ }
    let rs : List Request := [⟨"", .put "v" 10⟩, ⟨"a b", .get⟩, ⟨"é", .delete⟩]
    ∀ r ∈ rs, AsksCallers r (callersRequest r) ∧ AsksPeers r (Call.toHttp ⟨"", r⟩) ∧
      (c.exchange 0 "" (callersRequest r)).1 = (c.exchange 0 "" (Call.toHttp ⟨"", r⟩)).1 ∧
      Agree r.command (c.exchange 0 "" (callersRequest r)).2
        (c.exchange 0 "" (Call.toHttp ⟨"", r⟩)).2 := by
  intro c rs r hr
  have hhost : c.host? 0 = some (Host.make {} (Settings.ring {}) 1 none) := rfl
  have hlimits : ∀ r ∈ rs, r.wireSize ≤ bodyLimit := by decide +kernel
  have hp := asks_callersRequest r (hlimits r hr)
  have hq := asks_toHttp ⟨"", r⟩ (hlimits r hr)
  exact ⟨hp, hq, surfaces_agree hhost hp hq "" ""⟩

end Cluster

end ClusterCache
