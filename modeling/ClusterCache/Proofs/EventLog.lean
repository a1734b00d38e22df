import ClusterCache.Proofs.Findings

/-!
# The events as a log of the store

Whatever the worker does to its store it tells of, whether anybody hears of it or not.  The events
that it has offered, noted one after the other from the store without entries on, make its store.
-/

namespace ClusterCache

open Std

namespace Store

def note (s : Store) (e : Event) : Store :=
  match e.change with
  | .put (some entry) => s.insert e.key entry
  | .put none | .get => s
  | .delete => s.erase e.key

def replay (events : List Event) : Store := events.foldl note ∅

theorem replay_append (events more : List Event) :
    replay (events ++ more) = more.foldl note (replay events) :=
  List.foldl_append

theorem foldl_note_execute (s : Store) (c : Counters) (now : UInt64) (r : Request) :
    ((r.command.tells now s[r.key]?).map (Event.mk r.key)).toList.foldl note s =
      (s.execute c now r).store := by
  obtain ⟨key, command⟩ := r
  cases command with
  | put value ttl => rfl
  | delete => rfl
  | get =>
      simp only [execute, get, Command.tells]
      cases hs : s[key]? with
      | none => rfl
      | some e => by_cases he : e.isExpired now = true <;> simp [he, note]

end Store

namespace Journal

/-- The events offered, whatever became of them. -/
def log (j : Journal) : List Event := (offered j).map (·.1)

@[simp] theorem log_append (i j : Journal) : log (i ++ j) = log i ++ log j := by
  rw [log, offered_append, List.map_append]
  rfl

theorem log_of_offered_nil {j : Journal} (h : offered j = []) : log j = [] := by
  rw [log, h, List.map_nil]

theorem log_execution (x : Execution) (change : Option Change) (key : String)
    (o : Change → Offer) :
    log (.executed x :: (change.map fun c => .offered ⟨key, c⟩ (o c)).toList) =
      (change.map (Event.mk key)).toList := by
  cases change <;> rfl

end Journal

/-- What is answered and what is told when a request is executed on a store. -/
inductive Report (s : Store) (x : Execution) : Option String → List Event → Prop where
  | put (value : String) (ttl : UInt64) (hput : x.request.command = .put value ttl) :
      Report s x none [⟨x.request.key, .put (some (Entry.make value x.now ttl))⟩]
  | hit (e : Entry) (hget : x.request.command = .get) (hstored : s[x.request.key]? = some e)
      (hlive : e.isExpired x.now = false) : Report s x (some e.value) [⟨x.request.key, .get⟩]
  | lapse (e : Entry) (hget : x.request.command = .get) (hstored : s[x.request.key]? = some e)
      (hexpired : e.isExpired x.now = true) : Report s x none [⟨x.request.key, .delete⟩]
  | miss (hget : x.request.command = .get) (hnone : s[x.request.key]? = none) : Report s x none []
  | delete (hdelete : x.request.command = .delete) : Report s x none [⟨x.request.key, .delete⟩]

theorem report_execution (s : Store) (x : Execution) :
    Report s x (x.request.command.finds x.now s[x.request.key]?)
      ((x.request.command.tells x.now s[x.request.key]?).map (Event.mk x.request.key)).toList := by
  cases hcommand : x.request.command with
  | put value ttl => exact .put value ttl hcommand
  | delete => exact .delete hcommand
  | get =>
      cases hs : s[x.request.key]? with
      | none => exact .miss hcommand hs
      | some e =>
          cases he : e.isExpired x.now with
          | true =>
              rw [Command.finds_get_of_expired he]
              simpa [Command.tells, he] using Report.lapse e hcommand hs he
          | false =>
              rw [Command.finds_get_of_live he]
              simpa [Command.tells, he] using Report.hit e hcommand hs he

theorem Report.stored_of_get {s : Store} {x : Execution} {answer : Option String} {e : Event}
    (h : Report s x answer [e]) (hget : e.change = .get) : s[e.key]? ≠ none := by
  cases h with
  | hit entry _ hstored _ => simp [hstored]
  | _ => cases hget

theorem Report.log_cases {s : Store} {x : Execution} {answer : Option String}
    {events : List Event} (h : Report s x answer events) : events = [] ∨ ∃ e, events = [e] := by
  cases h with
  | miss => exact Or.inl rfl
  | _ => exact Or.inr ⟨_, rfl⟩

theorem Report.hits {s : Store} {x : Execution} {answer : Option String} {events : List Event}
    (h : Report s x answer events) (c : Counters) :
    (s.execute c x.now x.request).counters.hits =
      c.hits + events.countP (·.change = .get) := by
  cases h with
  | put value ttl hput => simp [Store.execute, hput, Store.put, Counters.put]
  | hit e hget hstored hlive =>
      simp [Store.execute, hget, Store.get, hstored, hlive, Counters.hit]
  | lapse e hget hstored hexpired =>
      simp [Store.execute, hget, Store.get, hstored, hexpired, Counters.expire, Counters.miss]
  | miss hget hnone => simp [Store.execute, hget, Store.get, hnone, Counters.miss]
  | delete hdelete =>
      simp only [Store.execute, hdelete, Store.delete]
      split_ifs <;> simp [Counters.remove]

namespace Node

open Journal

variable {n n' : Node} {j rs : Journal} {a : Act}

/-- An act in which nothing is executed tells nothing and leaves the store of a living worker.  An
execution is reported, and the store after it is the one that has noted the report. -/
theorem Deed.reported (h : n.Deed rs n') :
    (executed rs = [] ∧ log rs = [] ∧ n'.shard.counters.hits = n.shard.counters.hits ∧
      (n'.shard.alive = true → n.shard.alive = true ∧ n'.shard.store = n.shard.store)) ∨
    ∃ x answer, (x.ticket, x.request) ∈ n.shard.queue ∧ executed rs = [x] ∧
      n'.shard.replies[x.ticket]? = some (.done answer) ∧
      Report n.shard.store x answer (log rs) ∧
      n'.shard.counters.hits = n.shard.counters.hits + (log rs).countP (·.change = .get) ∧
      n'.shard.store = (log rs).foldl Store.note n.shard.store := by
  cases h with
  | execute now ticket r rest hqueue hlocal =>
      have hreport := report_execution n.shard.store ⟨now, ticket, r⟩
      refine Or.inr ⟨⟨now, ticket, r⟩, r.command.finds now n.shard.store[r.key]?,
        by simp [hqueue], executed_execution _ _ _ _, by simp [Shard.execute_eq], ?_⟩
      rw [log_execution]
      refine ⟨hreport, ?_, ?_⟩
      · rw [Shard.execute_eq, ← hreport.hits n.shard.counters]
        cases r.command.tells now n.shard.store[r.key]? with
        | none => rfl
        | some change => simp [Counters.noteOffer_eq]
      · rw [Shard.execute_eq, Store.foldl_note_execute _ n.shard.counters]
  | expire key keeper hnone => exact Or.inl ⟨rfl, rfl, rfl, fun halive => ⟨halive, rfl⟩⟩
  | evict key keeper hnone => exact Or.inl ⟨rfl, rfl, rfl, fun halive => ⟨halive, rfl⟩⟩
  | other rs n' hexecuted hoffered hswept hcounters hsize hstore =>
      exact Or.inl ⟨hexecuted, log_of_offered_nil hoffered, by rw [hcounters], hstore⟩

/-- The store of a living worker is what the events offered tell of, and every read that they tell
of found an entry. -/
structure Logged (n : Node) (j : Journal) : Prop where
  store : n.shard.alive = true → n.shard.store = Store.replay (log j)
  hits : n.shard.counters.hits = (log j).countP (·.change = .get)
  held : ∀ before e after, log j = before ++ e :: after → e.change = .get →
    (Store.replay before)[e.key]? ≠ none

theorem Logged.step (hj : n.Logged j) (horderly : n.Orderly j) (h : n.Deed rs n') :
    n'.Logged (j ++ rs) := by
  rcases h.reported with ⟨_, hlog, hhits, hstore⟩ |
    ⟨x, answer, hqueue, _, _, hreport, hhits, hstore⟩
  · refine ⟨fun halive => ?_, ?_, ?_⟩
    · obtain ⟨hbefore, hsame⟩ := hstore halive
      rw [hsame, hj.store hbefore, log_append, hlog, List.append_nil]
    · rw [hhits, hj.hits, log_append, hlog, List.append_nil]
    · rw [log_append, hlog, List.append_nil]
      exact hj.held
  · have hsame := hj.store (horderly.alive_of_queue hqueue)
    refine ⟨fun _ => ?_, ?_, fun before e after hsplit hget => ?_⟩
    · rw [hstore, log_append, Store.replay_append, hsame]
    · rw [hhits, hj.hits, log_append, List.countP_append]
    · rw [log_append] at hsplit
      rcases hreport.log_cases with hnil | ⟨e', hone⟩
      · rw [hnil, List.append_nil] at hsplit
        exact hj.held before e after hsplit hget
      · rw [hone] at hsplit hreport
        -- The event is the one of this execution, or it was offered before.
        rcases List.eq_nil_or_concat after with rfl | ⟨after, z, rfl⟩
        · obtain ⟨rfl, heq⟩ := List.append_inj' hsplit rfl
          obtain rfl : e' = e := by simpa using heq
          rw [← hsame]
          exact hreport.stored_of_get hget
        · rw [List.concat_eq_append, ← List.cons_append, ← List.append_assoc] at hsplit
          exact hj.held before e after (List.append_inj' hsplit rfl).1 hget

theorem logged_run (settings : Settings) (ring : Ring) (senders pollMs : Nat) (acts : List Act) :
    ((make settings ring senders pollMs).run acts).Logged
      ((make settings ring senders pollMs).journal acts) := by
  induction acts using List.reverseRecOn with
  | nil => exact ⟨fun _ => rfl, rfl, fun before e after hsplit => by simp [log, offered] at hsplit⟩
  | append_singleton acts a ih =>
      rw [run_concat, journal_concat]
      exact ih.step (orderly_run settings ring senders pollMs acts).1 (deed_act _ a)

/-- What the events offered in a run have to do with the store. -/
structure FaithfulLog (start : Node) (acts : List Act) : Prop where
  store : (start.run acts).shard.alive = true →
    (start.run acts).shard.store = Store.replay (log (start.journal acts))
  /-- An act tells nothing unless it executes a request, and then it tells what there is to tell of
  it on the store replayed so far, and the store has noted it. -/
  told : ∀ before a after, acts = before ++ a :: after →
    (executed ((start.run before).records a) = [] ∧ log ((start.run before).records a) = []) ∨
    ∃ x answer, executed ((start.run before).records a) = [x] ∧
      (start.run (before ++ [a])).shard.replies[x.ticket]? = some (.done answer) ∧
      Report (Store.replay (log (start.journal before))) x answer
        (log ((start.run before).records a)) ∧
      (start.run (before ++ [a])).shard.store =
        Store.replay (log (start.journal (before ++ [a])))
  hits : (start.run acts).shard.counters.hits =
    (log (start.journal acts)).countP (·.change = .get)
  /-- The key of every event of a read is bound where the read comes in the replay. -/
  held : ∀ before e after, log (start.journal acts) = before ++ e :: after → e.change = .get →
    (Store.replay before)[e.key]? ≠ none
  conveyed : (start.run acts).Conveyed (start.journal acts)

theorem faithful_log_run (settings : Settings) (ring : Ring) (senders pollMs : Nat)
    (acts : List Act) : FaithfulLog (make settings ring senders pollMs) acts := by
  have hlogged := logged_run settings ring senders pollMs acts
  refine ⟨hlogged.store, fun before a after hsplit => ?_, hlogged.hits, hlogged.held,
    conveyed_run settings ring senders pollMs acts⟩
  have hbefore := logged_run settings ring senders pollMs before
  obtain ⟨horderly, _⟩ := orderly_run settings ring senders pollMs before
  rcases (deed_act ((make settings ring senders pollMs).run before) a).reported with
    ⟨hexecuted, hlog, _⟩ | ⟨x, answer, hqueue, hexecuted, hreply, hreport, _, hstore⟩
  · exact Or.inl ⟨hexecuted, hlog⟩
  · rw [hbefore.store (horderly.alive_of_queue hqueue)] at hreport hstore
    refine Or.inr ⟨x, answer, hexecuted, ?_, hreport, ?_⟩
    · rw [run_concat]
      exact hreply
    · rw [run_concat, hstore, journal_concat, log_append, Store.replay_append]

/-- A put, two reads of which the second comes too late, and the deletion of a key without entry. -/
example :
    let acts : List Act := [.submit ⟨"k", .put "v" 5⟩, .work 0 false, .submit ⟨"k", .get⟩,
      .work 4 false, .submit ⟨"k", .get⟩, .work 5 false, .submit ⟨"l", .delete⟩, .work 5 false]
    log ((make {} (Ring.empty "n" 1) 1 0).journal acts) =
      [⟨"k", .put (some ⟨"v", 0, 5⟩)⟩, ⟨"k", .get⟩, ⟨"k", .delete⟩, ⟨"l", .delete⟩] := by
  decide +kernel

end Node

end ClusterCache
