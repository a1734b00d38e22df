import ClusterCache.Proofs.DistinctKeys
import ClusterCache.Proofs.Journal

/-!
# One request at a time

A request touches the entry of its own key and no other.  What it leaves of the entry, what it
answers and what it tells of the key depend on that entry alone.  A shard takes its requests from
the front of a queue that only submissions make longer.
-/

namespace ClusterCache

open Std

namespace Command

/-- The entry of the key after a command. -/
def leaves (now : UInt64) (slot : Option Entry) : Command → Option Entry
  | .put value ttl => some (Entry.make value now ttl)
  | .get => slot.filter fun e => !e.isExpired now
  | .delete => none

/-- The value that a command finds. -/
def finds (now : UInt64) (slot : Option Entry) : Command → Option String
  | .get => (slot.filter fun e => !e.isExpired now).map (·.value)
  | _ => none

/-- The change of the key that a command tells of. -/
def tells (now : UInt64) (slot : Option Entry) : Command → Option Change
  | .put value ttl => some (.put (some (Entry.make value now ttl)))
  | .get => slot.map fun e => if e.isExpired now then .delete else .get
  | .delete => some .delete

theorem leaves_get_of_expired {now : UInt64} {e : Entry} (h : e.isExpired now = true) :
    get.leaves now (some e) = none := by
  simp [leaves, h]

theorem leaves_get_of_live {now : UInt64} {e : Entry} (h : e.isExpired now = false) :
    get.leaves now (some e) = some e := by
  simp [leaves, h]

theorem finds_get_of_expired {now : UInt64} {e : Entry} (h : e.isExpired now = true) :
    get.finds now (some e) = none := by
  simp [finds, h]

theorem finds_get_of_live {now : UInt64} {e : Entry} (h : e.isExpired now = false) :
    get.finds now (some e) = some e.value := by
  simp [finds, h]

theorem leaves_of_tells_none {now : UInt64} {slot : Option Entry} {c : Command}
    (h : c.tells now slot = none) : slot = none ∧ c.leaves now slot = none := by
  cases c with
  | put value ttl => simp [tells] at h
  | get =>
      obtain rfl : slot = none := by simpa [tells] using h
      exact ⟨rfl, rfl⟩
  | delete => simp [tells] at h

theorem leaves_of_tells_get {now : UInt64} {slot : Option Entry} {c : Command}
    (h : c.tells now slot = some .get) : c = .get ∧ c.leaves now slot = slot ∧ slot ≠ none := by
  cases c with
  | put value ttl => simp [tells] at h
  | delete => simp [tells] at h
  | get =>
      cases slot with
      | none => simp [tells] at h
      | some e =>
          have hlive : e.isExpired now = false := by
            by_contra he
            simp [tells, he] at h
          simp [leaves, hlive]

theorem leaves_of_tells_delete {now : UInt64} {slot : Option Entry} {c : Command}
    (h : c.tells now slot = some .delete) : c.leaves now slot = none := by
  cases c with
  | put value ttl => simp [tells] at h
  | delete => rfl
  | get =>
      cases slot with
      | none => rfl
      | some e =>
          have hexpired : e.isExpired now = true := by
            by_contra he
            simp [tells, he] at h
          simp [leaves, hexpired]

theorem leaves_of_tells_put {now : UInt64} {slot : Option Entry} {c : Command}
    {entry : Option Entry} (h : c.tells now slot = some (.put entry)) :
    c.leaves now slot = entry ∧ entry ≠ none := by
  cases c with
  | put value ttl =>
      obtain rfl : some (Entry.make value now ttl) = entry := by simpa [tells] using h
      exact ⟨rfl, by simp⟩
  | delete => simp [tells] at h
  | get =>
      cases slot with
      | none => simp [tells] at h
      | some e =>
          by_cases he : e.isExpired now = true <;> simp [tells, he] at h

end Command

namespace Store

theorem lookup_execute (s : Store) (c : Counters) (now : UInt64) (r : Request) (key : String) :
    (s.execute c now r).store[key]? =
      if key = r.key then r.command.leaves now s[r.key]? else s[key]? := by
  obtain ⟨k, command⟩ := r
  cases command with
  | put value ttl => exact lookup_insert s k _ key
  | delete => exact lookup_erase s k key
  | get =>
      simp only [execute, get]
      cases hs : s[k]? with
      | none =>
          by_cases hk : key = k
          · rw [if_pos hk, hk, hs]
            rfl
          · rw [if_neg hk]
      | some e =>
          cases he : e.isExpired now with
          | true =>
              simp only [he, if_true]
              rw [lookup_erase, Command.leaves_get_of_expired he]
          | false =>
              simp only [he, Bool.false_eq_true, if_false]
              rw [Command.leaves_get_of_live he]
              by_cases hk : key = k
              · rw [if_pos hk, hk, hs]
              · rw [if_neg hk]

theorem value_execute (s : Store) (c : Counters) (now : UInt64) (r : Request) :
    (s.execute c now r).value = r.command.finds now s[r.key]? := by
  obtain ⟨k, command⟩ := r
  cases command with
  | put value ttl => rfl
  | delete => rfl
  | get =>
      simp only [execute, get]
      cases s[k]? with
      | none => rfl
      | some e =>
          cases he : e.isExpired now with
          | true =>
              rw [Command.finds_get_of_expired he]
              simp [he]
          | false =>
              rw [Command.finds_get_of_live he]
              simp [he]

theorem event_execute (s : Store) (c : Counters) (now : UInt64) (r : Request) :
    (s.execute c now r).event = (r.command.tells now s[r.key]?).map (Event.mk r.key) := by
  obtain ⟨k, command⟩ := r
  cases command with
  | put value ttl => rfl
  | delete => rfl
  | get =>
      simp only [execute, get, Command.tells]
      cases s[k]? with
      | none => rfl
      | some e => by_cases he : e.isExpired now = true <;> simp [he]

end Store

attribute [ext] Counters

theorem Counters.noteOffer_eq (c : Counters) (o : Offer) :
    c.noteOffer o =
      { c with droppedEvents := c.droppedEvents + if o = .full then 1 else 0 } := by
  cases o <;> rfl

namespace EventQueue

theorem offer_of_accepted {q : EventQueue} {e : Event} (h : (q.offer e).2 = .accepted) :
    (q.offer e).1 = { q with waiting := q.waiting ++ [e] } := by
  rw [offer] at h ⊢
  split_ifs at h ⊢
  rfl

theorem offer_of_lost {q : EventQueue} {e : Event} (h : (q.offer e).2 ≠ .accepted) :
    (q.offer e).1 = q := by
  rw [offer] at h ⊢
  split_ifs at h ⊢ <;> first | rfl | exact absurd rfl h

@[simp] theorem offer_hasReader (q : EventQueue) (e : Event) :
    (q.offer e).1.hasReader = q.hasReader := by
  rw [offer]
  split_ifs <;> rfl

theorem offer_ne_closed {q : EventQueue} (h : q.hasReader = true) (e : Event) :
    (q.offer e).2 ≠ .closed := by
  rw [offer, if_neg (by simp [h])]
  split_ifs <;> simp

theorem offer_waiting (q : EventQueue) (e : Event) :
    (q.offer e).1.waiting =
      q.waiting ++ if (q.offer e).2 = .accepted then [e] else [] := by
  by_cases h : (q.offer e).2 = .accepted
  · rw [if_pos h, offer_of_accepted h]
  · rw [if_neg h, offer_of_lost h, List.append_nil]

end EventQueue

namespace Shard

/-- The shard with one more request in its queue. -/
def enqueue (s : Shard) (r : Request) : Shard :=
  { s with queue := s.queue ++ [(s.tickets, r)], tickets := s.tickets + 1 }

/-- Why a request is refused, if it is: the first of three reasons. -/
def refusal? (s : Shard) (r : Request) : Option Failure :=
  if r.key = "" then some .emptyKey
  else if s.alive = false then some .workerUnavailable
  else if s.capacity ≤ s.queue.length then some .overloaded
  else none

theorem submit_eq (s : Shard) (r : Request) :
    s.submit r = (s.refusal? r).elim (s.enqueue r, .ok s.tickets) fun f => (s, .error f) := by
  rw [submit, refusal?]
  by_cases hkey : r.key = ""
  · simp [hkey]
  · by_cases halive : s.alive = true
    · by_cases hroom : s.capacity ≤ s.queue.length
      · simp [hkey, halive, hroom]
      · simp [hkey, halive, hroom, enqueue]
    · simp [hkey, halive]

theorem refusal?_eq_none {s : Shard} {r : Request} (h : s.refusal? r = none) :
    r.key ≠ "" ∧ s.alive = true ∧ s.queue.length < s.capacity := by
  rw [refusal?] at h
  split_ifs at h with hkey halive hroom
  exact ⟨hkey, by simpa using halive, by omega⟩

/-- A request with a key is refused by a living worker for want of room only. -/
theorem full_of_refusal? {s : Shard} {r : Request} {failure : Failure} (hkey : r.key ≠ "")
    (halive : s.alive = true) (h : s.refusal? r = some failure) : s.capacity ≤ s.queue.length := by
  rw [refusal?, if_neg hkey, if_neg (by simp [halive])] at h
  split_ifs at h with hfull
  exact hfull

section Execute

variable (s : Shard) (now : UInt64) (ticket : Nat) (r : Request)

theorem execute_eq :
    s.execute now ticket r =
      { s with
        events := ((r.command.tells now s.store[r.key]?).map (Event.mk r.key)).elim s.events
          fun e => (s.events.offer e).1
        counters := ((r.command.tells now s.store[r.key]?).map (Event.mk r.key)).elim
          (s.store.execute s.counters now r).counters fun e =>
            (s.store.execute s.counters now r).counters.noteOffer (s.events.offer e).2
        store := (s.store.execute s.counters now r).store
        size := (s.store.execute s.counters now r).store.size
        replies := s.replies.insert ticket (.done (r.command.finds now s.store[r.key]?)) } := by
  rw [← Store.event_execute s.store s.counters, ← Store.value_execute s.store s.counters]
  simp only [execute]
  cases (s.store.execute s.counters now r).event with
  | none => rfl
  | some e => rfl

@[simp] theorem execute_ring : (s.execute now ticket r).ring = s.ring := by
  rw [execute_eq]

@[simp] theorem execute_capacity : (s.execute now ticket r).capacity = s.capacity := by
  rw [execute_eq]

@[simp] theorem execute_queue : (s.execute now ticket r).queue = s.queue := by
  rw [execute_eq]

@[simp] theorem execute_alive : (s.execute now ticket r).alive = s.alive := by
  rw [execute_eq]

@[simp] theorem execute_tickets : (s.execute now ticket r).tickets = s.tickets := by
  rw [execute_eq]

theorem lookup_execute (key : String) :
    (s.execute now ticket r).store[key]? =
      if key = r.key then r.command.leaves now s.store[r.key]? else s.store[key]? := by
  rw [execute_eq, Store.lookup_execute]

end Execute

/-! ## The worker's turn -/

section Work

variable {s : Shard} {now : UInt64} {ticket : Nat} {r : Request} {rest : List (Nat × Request)}

theorem work_of_idle (hqueue : s.queue = []) (now : UInt64) : s.work now = (s, none) := by
  simp only [work, hqueue]

/-- The worker executes a request for a key of its own. -/
theorem work_of_local (hqueue : s.queue = (ticket, r) :: rest)
    (hlocal : s.ring.isLocal r.key = true) :
    s.work now = (Shard.execute { s with queue := rest } now ticket r, none) := by
  have howner : s.ring.owner r.key = s.ring.localId := by simpa [Ring.isLocal] using hlocal
  rw [work, hqueue]
  simp only [howner, if_true]

/-- The worker hands a request on if it knows where the owner of the key is. -/
theorem work_of_known {address : String} (hqueue : s.queue = (ticket, r) :: rest)
    (hforeign : s.ring.isLocal r.key = false)
    (haddress : s.ring.address? (s.ring.owner r.key) = some address) :
    s.work now = ({ s with queue := rest }, some (ticket, ⟨address, r⟩)) := by
  have howner : s.ring.owner r.key ≠ s.ring.localId := by simpa [Ring.isLocal] using hforeign
  rw [work, hqueue]
  simp only [howner, if_false, haddress]

/-- The worker answers itself if it does not know where the owner is. -/
theorem work_of_unknown (hqueue : s.queue = (ticket, r) :: rest)
    (hforeign : s.ring.isLocal r.key = false)
    (haddress : s.ring.address? (s.ring.owner r.key) = none) :
    s.work now = (answer { s with queue := rest } ticket
      (.failed (.addressUnknown (s.ring.owner r.key))), none) := by
  have howner : s.ring.owner r.key ≠ s.ring.localId := by simpa [Ring.isLocal] using hforeign
  rw [work, hqueue]
  simp only [howner, if_false, haddress]

end Work

/-- What the worker does when it takes its turn, and what is to be said of it. -/
inductive Turn (s : Shard) (now : UInt64) : List Record → Shard × Option (Nat × Call) → Prop where
  | idle (hqueue : s.queue = []) : Turn s now [] (s, none)
  | execute (ticket : Nat) (r : Request) (rest : List (Nat × Request))
      (hqueue : s.queue = (ticket, r) :: rest) (hlocal : s.ring.isLocal r.key = true) :
      Turn s now
        (.executed ⟨now, ticket, r⟩ :: ((r.command.tells now s.store[r.key]?).map fun change =>
          .offered ⟨r.key, change⟩ (s.events.offer ⟨r.key, change⟩).2).toList)
        (Shard.execute { s with queue := rest } now ticket r, none)
  | giveUp (ticket : Nat) (r : Request) (rest : List (Nat × Request))
      (hqueue : s.queue = (ticket, r) :: rest) (hforeign : s.ring.isLocal r.key = false)
      (haddress : s.ring.address? (s.ring.owner r.key) = none) :
      Turn s now [.passed ticket r] (answer { s with queue := rest } ticket
        (.failed (.addressUnknown (s.ring.owner r.key))), none)
  | handOn (ticket : Nat) (r : Request) (rest : List (Nat × Request)) (address : String)
      (hqueue : s.queue = (ticket, r) :: rest) (hforeign : s.ring.isLocal r.key = false)
      (haddress : s.ring.address? (s.ring.owner r.key) = some address) :
      Turn s now [.passed ticket r] ({ s with queue := rest }, some (ticket, ⟨address, r⟩))

theorem turn_work (s : Shard) (now : UInt64) : Turn s now (Record.ofWork s now) (s.work now) := by
  cases hqueue : s.queue with
  | nil =>
      rw [work, Record.ofWork, hqueue]
      exact .idle hqueue
  | cons head rest =>
      obtain ⟨ticket, r⟩ := head
      rw [Record.ofWork, hqueue]
      cases hlocal : s.ring.isLocal r.key with
      | true =>
          rw [work_of_local hqueue hlocal]
          simp only [hlocal, if_true, Store.event_execute, Option.map_map]
          exact .execute ticket r rest hqueue hlocal
      | false =>
          simp only [hlocal, Bool.false_eq_true, if_false]
          cases haddress : s.ring.address? (s.ring.owner r.key) with
          | none =>
              rw [work_of_unknown hqueue hlocal haddress]
              exact .giveUp ticket r rest hqueue hlocal haddress
          | some address =>
              rw [work_of_known hqueue hlocal haddress]
              exact .handOn ticket r rest address hqueue hlocal haddress

/-- What is handed on goes to the address of the owner, which is another node. -/
theorem address_of_work {s s' : Shard} {now : UInt64} {ticket : Nat} {call : Call}
    (h : s.work now = (s', some (ticket, call))) :
    s.ring.owner call.request.key ≠ s.ring.localId ∧
      s.ring.address? (s.ring.owner call.request.key) = some call.address := by
  have hturn := s.turn_work now
  rw [h] at hturn
  generalize Record.ofWork s now = rs at hturn
  cases hturn with
  | handOn _ r rest address hqueue hforeign haddress =>
      exact ⟨by simpa [Ring.isLocal] using hforeign, haddress⟩

theorem queue_work (s : Shard) (now : UInt64) : (s.work now).1.queue = s.queue.tail := by
  have hturn := s.turn_work now
  generalize Record.ofWork s now = rs, s.work now = out at hturn ⊢
  cases hturn with
  | idle hqueue => rw [hqueue, List.tail_nil]
  | execute ticket r rest hqueue hlocal => simp [hqueue]
  | giveUp ticket r rest hqueue hforeign haddress => simp [hqueue, answer]
  | handOn ticket r rest address hqueue hforeign haddress => simp [hqueue]

theorem Turn.queue {s s' : Shard} {now : UInt64} {rs : Journal} {handed : Option (Nat × Call)}
    (h : s.Turn now rs (s', handed)) :
    Journal.taken rs ++ s'.queue = s.queue ∧ Journal.accepted rs = [] ∧
      Journal.observed rs = [] := by
  cases h with
  | idle hqueue => exact ⟨rfl, rfl, rfl⟩
  | execute ticket r rest hqueue hlocal =>
      rw [hqueue, execute_queue, Journal.taken_execution]
      cases r.command.tells now s.store[r.key]? <;> exact ⟨rfl, rfl, rfl⟩
  | giveUp ticket r rest hqueue hforeign haddress =>
      rw [hqueue]
      exact ⟨rfl, rfl, rfl⟩
  | handOn ticket r rest address hqueue hforeign haddress =>
      rw [hqueue]
      exact ⟨rfl, rfl, rfl⟩

theorem Turn.frame {s s' : Shard} {now : UInt64} {rs : Journal} {handed : Option (Nat × Call)}
    (h : s.Turn now rs (s', handed)) :
    s'.ring = s.ring ∧ s'.capacity = s.capacity ∧ s'.alive = s.alive ∧ s'.tickets = s.tickets := by
  cases h with
  | execute ticket r rest hqueue hlocal => simp
  | _ => exact ⟨rfl, rfl, rfl, rfl⟩

/-- What the worker tells goes to the end of the event queue, if it is accepted. -/
theorem Turn.events {s s' : Shard} {now : UInt64} {rs : Journal} {handed : Option (Nat × Call)}
    (h : s.Turn now rs (s', handed)) :
    s'.events.hasReader = s.events.hasReader ∧
      s'.events.waiting = s.events.waiting ++ Journal.told rs ∧
      (s.events.hasReader = true → ∀ p ∈ Journal.offered rs, p.2 ≠ .closed) := by
  cases h with
  | execute ticket r rest hqueue hlocal =>
      rw [Journal.told, Journal.offered_execution, execute_eq]
      cases r.command.tells now s.store[r.key]? with
      | none => simp
      | some c =>
          refine ⟨by simp, ?_, fun hreader p hp => ?_⟩
          · simp only [Option.map_some, Option.elim_some, EventQueue.offer_waiting]
            by_cases ho : (s.events.offer ⟨r.key, c⟩).2 = .accepted <;> simp [ho]
          · obtain rfl : p = (⟨r.key, c⟩, (s.events.offer ⟨r.key, c⟩).2) := by simpa using hp
            exact EventQueue.offer_ne_closed hreader _
  | _ => exact ⟨rfl, (List.append_nil _).symm, fun _ p hp => by cases hp⟩

/-- The answers that a dying worker leaves behind are those of what it was doing. -/
theorem lookup_die (s : Shard) (ticket other : Nat) :
    (s.die ticket).replies[other]? =
      if other = ticket ∨ other ∈ s.queue.map (·.1) then some (Reply.failed .workerUnavailable)
      else s.replies[other]? := by
  have hall : ∀ (tickets : List Nat) (rs : ExtTreeMap Nat Reply),
      (tickets.foldl (fun rs t => rs.insert t (.failed .workerUnavailable)) rs)[other]? =
        if other ∈ tickets then some (Reply.failed .workerUnavailable) else rs[other]? := by
    intro tickets
    induction tickets with
    | nil => simp
    | cons t tickets ih =>
        intro rs
        rw [List.foldl_cons, ih, lookup_insert]
        by_cases ht : other = t <;> simp [ht]
  simp only [die, hall, List.mem_cons]

end Shard

end ClusterCache
