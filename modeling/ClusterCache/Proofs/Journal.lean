import ClusterCache.Keeper
import Mathlib.Data.List.Basic

/-!
# Journals

What is decided in a node, in the order in which it is decided: which requests are taken into the
queue and which are refused, what the worker does with them, what it tells of them and what the
keeper hears.
-/

namespace ClusterCache

/-- Who submits a request: somebody outside, or one of the two sweeps of the keeper. -/
inductive Origin where
  | caller
  | expiry
  | eviction
deriving DecidableEq, Repr

/-- A request executed at a second of the clock. -/
structure Execution where
  now : UInt64
  ticket : Nat
  request : Request
deriving DecidableEq, Repr

/-- An entry of a journal. -/
inductive Record where
  | accepted (origin : Origin) (ticket : Nat) (r : Request)
  | refused (origin : Origin) (r : Request) (failure : Failure)
  | executed (x : Execution)
  | passed (ticket : Nat) (r : Request)
  | offered (e : Event) (outcome : Offer)
  | observed (e : Event)
deriving DecidableEq, Repr

namespace Record

/-- What is to be said of a request that is submitted. -/
def ofSubmit (s : Shard) (origin : Origin) (r : Request) : Record :=
  match (s.submit r).2 with
  | .ok ticket => .accepted origin ticket r
  | .error f => .refused origin r f

/-- What is to be said of a turn of the worker. -/
def ofWork (s : Shard) (now : UInt64) : List Record :=
  match s.queue with
  | [] => []
  | (ticket, r) :: _ =>
    if s.ring.isLocal r.key then
      .executed ⟨now, ticket, r⟩ ::
        ((s.store.execute s.counters now r).event.map fun e =>
          .offered e (s.events.offer e).2).toList
    else [.passed ticket r]

/-- What is to be said of a step of the keeper. -/
def ofStep (s : Shard) (k : Keeper) : List Record :=
  match k.stage with
  | .polling _ | .draining (_ + 1) => (s.events.take?.map fun found => .observed found.1).toList
  | .expiring _ _ (key :: _) _ => [ofSubmit s .expiry ⟨key, .delete⟩]
  | .evicting victim _ => [ofSubmit s .eviction ⟨victim, .delete⟩]
  | _ => []

/-- The request taken into the queue. -/
def accepted? : Record → Option (Nat × Request)
  | accepted _ ticket r => some (ticket, r)
  | _ => none

/-- The request taken out of the queue. -/
def taken? : Record → Option (Nat × Request)
  | executed x => some (x.ticket, x.request)
  | passed ticket r => some (ticket, r)
  | _ => none

/-- The request executed. -/
def executed? : Record → Option Execution
  | executed x => some x
  | _ => none

/-- The event offered, with what became of it. -/
def offered? : Record → Option (Event × Offer)
  | offered e outcome => some (e, outcome)
  | _ => none

/-- The event heard. -/
def observed? : Record → Option Event
  | observed e => some e
  | _ => none

end Record

/-- What was decided in a node, the oldest first. -/
abbrev Journal := List Record

namespace Journal

/-- The requests taken into the queue, with their tickets. -/
def accepted (j : Journal) : List (Nat × Request) := j.filterMap Record.accepted?

/-- The requests taken out of the queue. -/
def taken (j : Journal) : List (Nat × Request) := j.filterMap Record.taken?

/-- The requests executed. -/
def executed (j : Journal) : List Execution := j.filterMap Record.executed?

/-- The events offered, with what became of them. -/
def offered (j : Journal) : List (Event × Offer) := j.filterMap Record.offered?

/-- The events heard. -/
def observed (j : Journal) : List Event := j.filterMap Record.observed?

/-- The events offered that were accepted. -/
def told (j : Journal) : List Event :=
  (offered j).filterMap fun p => if p.2 = .accepted then some p.1 else none

/-- The last put or deletion of a key of which an event was offered, with what became of it. -/
def lastChange (j : Journal) (key : String) : Option (Change × Offer) :=
  ((offered j).filter fun p => p.1.key = key ∧ p.1.change ≠ .get).getLast?.map
    fun p => (p.1.change, p.2)

/-- The last put or deletion of a key that was heard. -/
def lastHeard (j : Journal) (key : String) : Option Change :=
  ((observed j).filter fun e => e.key = key ∧ e.change ≠ .get).getLast?.map (·.change)

variable (i j : Journal)

@[simp] theorem accepted_append : accepted (i ++ j) = accepted i ++ accepted j :=
  List.filterMap_append

@[simp] theorem taken_append : taken (i ++ j) = taken i ++ taken j :=
  List.filterMap_append

@[simp] theorem executed_append : executed (i ++ j) = executed i ++ executed j :=
  List.filterMap_append

@[simp] theorem offered_append : offered (i ++ j) = offered i ++ offered j :=
  List.filterMap_append

@[simp] theorem observed_append : observed (i ++ j) = observed i ++ observed j :=
  List.filterMap_append

@[simp] theorem told_append : told (i ++ j) = told i ++ told j := by
  rw [told, offered_append, List.filterMap_append]
  rfl

theorem lastChange_append (key : String) :
    lastChange (i ++ j) key = (lastChange j key).or (lastChange i key) := by
  rw [lastChange, offered_append, List.filter_append, List.getLast?_append, Option.map_or]
  rfl

theorem lastHeard_append (key : String) :
    lastHeard (i ++ j) key = (lastHeard j key).or (lastHeard i key) := by
  rw [lastHeard, observed_append, List.filter_append, List.getLast?_append, Option.map_or]
  rfl

theorem lastHeard_eq_none {j : Journal} {key : String}
    (h : ∀ e ∈ observed j, e.key = key → e.change = .get) : lastHeard j key = none := by
  have hnone : (observed j).filter (fun e => e.key = key ∧ e.change ≠ .get) = [] := by
    rw [List.filter_eq_nil_iff]
    intro e he
    simpa using h e he
  rw [lastHeard, hnone]
  rfl

theorem lastHeard_of_observed {j : Journal} {e : Event} (h : observed j = [e])
    (hchange : e.change ≠ .get) : lastHeard j e.key = some e.change := by
  rw [lastHeard, h, List.filter_cons_of_pos (by simpa using hchange)]
  rfl

theorem lastChange_of_offered_nil {j : Journal} (h : offered j = []) (key : String) :
    lastChange j key = none := by
  rw [lastChange, h]
  rfl

theorem lastChange_of_offered {j : Journal} {e : Event} {o : Offer} (h : offered j = [(e, o)])
    (key : String) :
    lastChange j key = if e.key = key ∧ e.change ≠ .get then some (e.change, o) else none := by
  rw [lastChange, h]
  by_cases he : e.key = key ∧ e.change ≠ .get
  · rw [List.filter_cons_of_pos (by simpa using he), if_pos he]
    rfl
  · rw [List.filter_cons_of_neg (by simpa using he), if_neg he]
    rfl

theorem lastChange_of_last {j : Journal} {before after : List (Event × Offer)} {e : Event}
    {o : Offer} (h : offered j = before ++ (e, o) :: after) (hchange : e.change ≠ .get)
    (hafter : ∀ p ∈ after, p.1.key = e.key → p.1.change = .get) :
    lastChange j e.key = some (e.change, o) := by
  have hnone : after.filter (fun p => p.1.key = e.key ∧ p.1.change ≠ .get) = [] := by
    rw [List.filter_eq_nil_iff]
    intro p hp
    simpa using hafter p hp
  rw [lastChange, h, List.filter_append, List.filter_cons_of_pos (by simpa using hchange), hnone,
    List.getLast?_append]
  rfl

theorem lastChange_eq_none {j : Journal} {key : String}
    (h : ∀ p ∈ offered j, p.1.key = key → p.1.change = .get) : lastChange j key = none := by
  have hnone : (offered j).filter (fun p => p.1.key = key ∧ p.1.change ≠ .get) = [] := by
    rw [List.filter_eq_nil_iff]
    intro p hp
    simpa using h p hp
  rw [lastChange, hnone]
  rfl

/-- What became of the last change is what became of an event that was offered. -/
theorem mem_offered_of_lastChange {j : Journal} {key : String} {c : Change} {o : Offer}
    (h : lastChange j key = some (c, o)) : ∃ e, (e, o) ∈ offered j := by
  obtain ⟨p, hp, heq⟩ := Option.map_eq_some_iff.mp h
  obtain ⟨_, rfl⟩ := Prod.mk.inj heq
  exact ⟨p.1, (List.mem_filter.mp (List.mem_of_getLast? hp)).1⟩

section Execution

variable (x : Execution) (change : Option Change) (e : Change → Event) (o : Change → Offer)

@[simp] theorem taken_execution :
    taken (.executed x :: (change.map fun c => .offered (e c) (o c)).toList) =
      [(x.ticket, x.request)] := by
  cases change <;> rfl

@[simp] theorem executed_execution :
    executed (.executed x :: (change.map fun c => .offered (e c) (o c)).toList) = [x] := by
  cases change <;> rfl

@[simp] theorem offered_execution :
    offered (.executed x :: (change.map fun c => .offered (e c) (o c)).toList) =
      (change.map fun c => (e c, o c)).toList := by
  cases change <;> rfl

end Execution

/-- Every request executed has been taken out of the queue. -/
theorem mem_taken_of_executed {x : Execution} (h : x ∈ executed j) :
    (x.ticket, x.request) ∈ taken j := by
  obtain ⟨record, hmem, hrecord⟩ := List.mem_filterMap.mp h
  refine List.mem_filterMap.mpr ⟨record, hmem, ?_⟩
  cases record with
  | executed y =>
      obtain rfl : y = x := by simpa [Record.executed?] using hrecord
      rfl
  | _ => simp [Record.executed?] at hrecord

end Journal

end ClusterCache
