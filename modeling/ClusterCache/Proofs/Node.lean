import ClusterCache.Proofs.Keeper
import ClusterCache.Settings

/-!
# Runs of a node

A node is a shard with its keeper.  Whatever can happen to it is an act: somebody submits a
request or gives up waiting for a reply, the worker takes its turn, a reply comes back from
another node, the keeper begins a pass or takes a step of it, the membership changes, the keeper
stops for good.  A run is any list of acts, each with its own reading of the clock, and it leaves
behind a journal.
-/

namespace ClusterCache

/-- A shard and its keeper.  `away` holds the tickets of requests that were handed on and are not
answered, `gone` those whose replies nobody waits for. -/
structure Node where
  shard : Shard
  keeper : Keeper
  away : List Nat := []
  gone : List Nat := []

/-- What can happen to a node.  A turn of the worker is fatal if it would die of handing a request
on. -/
inductive Act where
  | submit (r : Request)
  | abandon (ticket : Nat)
  | work (now : UInt64) (fatal : Bool)
  | answer (ticket : Nat) (reply : Reply)
  | begin (clock : Clock)
  | keep (listing : Listing) (clock : Clock)
  | join (id address : String)
  | part (id : String)
  | close

namespace Act

/-- Whether an act leaves the membership as it is. -/
def keepsMembers : Act → Bool
  | .join _ _ | .part _ => false
  | _ => true

/-- Whether an act leaves the events that wait to be heard. -/
def keepsReader : Act → Bool
  | .close => false
  | _ => true

/-- Whether an act is a turn of the worker. -/
def isWork : Act → Bool
  | .work _ _ => true
  | _ => false

/-- Whether an act leaves those who wait for replies waiting. -/
def keepsCallers : Act → Bool
  | .abandon _ => false
  | _ => true

/-- The second of the epoch at which an act happens, if it looks at the clock. -/
def time? : Act → Option UInt64
  | .work now _ => some now
  | .begin clock | .keep _ clock => some clock.seconds
  | _ => none

end Act

namespace Node

/-- A node without entries. -/
def make (settings : Settings) (ring : Ring) (senders pollMs : Nat) : Node :=
  { shard := Shard.make ring settings.requestCapacity
      (EventQueue.make settings.eventCapacity senders)
    keeper := Keeper.make settings.policy settings.maximumSize pollMs }

/-- What an act does. -/
def act (n : Node) : Act → Node
  | .submit r => { n with shard := (n.shard.submit r).1 }
  | .abandon ticket => { n with gone := ticket :: n.gone }
  | .work now fatal =>
    match n.shard.work now with
    | (shard, none) => { n with shard }
    | (shard, some (ticket, _)) =>
      if fatal then { n with shard := shard.die ticket }
      else { n with shard, away := n.away ++ [ticket] }
  | .answer ticket reply =>
    if ticket ∈ n.away then
      { n with shard := n.shard.answer ticket reply, away := n.away.filter (· ≠ ticket) }
    else n
  | .begin clock => if n.keeper.isResting then { n with keeper := n.keeper.begin clock } else n
  | .keep listing clock =>
    match n.keeper.step listing clock n.shard with
    | none => n
    | some (shard, keeper) => { n with shard, keeper }
  | .join id address => { n with shard := (n.shard.addMember id address).1 }
  | .part id => { n with shard := (n.shard.removeMember id).1 }
  | .close => { n with shard := { n.shard with events := n.shard.events.close } }

theorem shard_act_work (n : Node) (now : UInt64) :
    (n.act (.work now false)).shard = (n.shard.work now).1 := by
  simp only [act]
  rcases n.shard.work now with ⟨shard, _ | ⟨ticket, call⟩⟩ <;> rfl

theorem keeper_act_work (n : Node) (now : UInt64) :
    (n.act (.work now false)).keeper = n.keeper := by
  simp only [act]
  rcases n.shard.work now with ⟨shard, _ | ⟨ticket, call⟩⟩ <;> rfl

/-- What is to be said of an act. -/
def records (n : Node) : Act → Journal
  | .submit r => [Record.ofSubmit n.shard .caller r]
  | .work now _ => Record.ofWork n.shard now
  | .keep _ _ => Record.ofStep n.shard n.keeper
  | _ => []

/-- One act after the other. -/
def run (n : Node) (acts : List Act) : Node := acts.foldl act n

/-- The journal of a run. -/
def journal : Node → List Act → Journal
  | _, [] => []
  | n, a :: acts => n.records a ++ journal (n.act a) acts

@[simp] theorem run_nil (n : Node) : n.run [] = n := rfl

@[simp] theorem journal_nil (n : Node) : n.journal [] = [] := rfl

theorem run_append (n : Node) (as bs : List Act) : n.run (as ++ bs) = (n.run as).run bs := by
  simp [run]

theorem run_concat (n : Node) (as : List Act) (a : Act) :
    n.run (as ++ [a]) = (n.run as).act a := by
  simp [run]

theorem journal_append (n : Node) (as bs : List Act) :
    n.journal (as ++ bs) = n.journal as ++ (n.run as).journal bs := by
  induction as generalizing n with
  | nil => rfl
  | cons a as ih =>
      rw [List.cons_append, journal, journal, ih, List.append_assoc]
      rfl

theorem journal_concat (n : Node) (as : List Act) (a : Act) :
    n.journal (as ++ [a]) = n.journal as ++ (n.run as).records a := by
  simp [journal_append, journal]

/-- An act with what must hold before it, what is to be said of it and what it leaves. -/
inductive Step (n : Node) : Act → List Record → Node → Prop where
  | accept (r : Request) (hnone : n.shard.refusal? r = none) :
      Step n (.submit r) [.accepted .caller n.shard.tickets r]
        { n with shard := n.shard.enqueue r }
  | refuse (r : Request) (failure : Failure) (hrefusal : n.shard.refusal? r = some failure) :
      Step n (.submit r) [.refused .caller r failure] n
  | abandon (ticket : Nat) : Step n (.abandon ticket) [] { n with gone := ticket :: n.gone }
  | turn (now : UInt64) (fatal : Bool) (records : List Record) (shard : Shard)
      (hturn : n.shard.Turn now records (shard, none)) :
      Step n (.work now fatal) records { n with shard }
  | handOn (now : UInt64) (ticket : Nat) (call : Call) (shard : Shard) (records : List Record)
      (hturn : n.shard.Turn now records (shard, some (ticket, call))) :
      Step n (.work now false) records { n with shard, away := n.away ++ [ticket] }
  | perish (now : UInt64) (ticket : Nat) (call : Call) (shard : Shard) (records : List Record)
      (hturn : n.shard.Turn now records (shard, some (ticket, call))) :
      Step n (.work now true) records { n with shard := shard.die ticket }
  | answer (ticket : Nat) (reply : Reply) (haway : ticket ∈ n.away) :
      Step n (.answer ticket reply) []
        { n with shard := n.shard.answer ticket reply, away := n.away.filter (· ≠ ticket) }
  | stray (ticket : Nat) (reply : Reply) (haway : ticket ∉ n.away) :
      Step n (.answer ticket reply) [] n
  | begin (clock : Clock) (hstage : n.keeper.stage = .resting) :
      Step n (.begin clock) [] { n with keeper := n.keeper.begin clock }
  | busy (clock : Clock) (hstage : n.keeper.stage ≠ .resting) : Step n (.begin clock) [] n
  | move (listing : Listing) (clock : Clock) (records : List Record) (shard : Shard)
      (keeper : Keeper) (hmove : Keeper.Move listing clock n.shard n.keeper records shard keeper) :
      Step n (.keep listing clock) records { n with shard, keeper }
  | stuck (listing : Listing) (clock : Clock)
      (hstep : n.keeper.step listing clock n.shard = none) : Step n (.keep listing clock) [] n
  | join (id address : String) :
      Step n (.join id address) [] { n with shard := (n.shard.addMember id address).1 }
  | part (id : String) : Step n (.part id) [] { n with shard := (n.shard.removeMember id).1 }
  | close : Step n .close []
      { n with shard := { n.shard with events := n.shard.events.close } }

theorem step_submit (n : Node) (r : Request) :
    n.Step (.submit r) (n.records (.submit r)) (n.act (.submit r)) := by
  simp only [records, Record.ofSubmit, act, Shard.submit_eq]
  cases hrefusal : n.shard.refusal? r with
  | none => exact .accept r hrefusal
  | some f => exact .refuse r f hrefusal

theorem step_work (n : Node) (now : UInt64) (fatal : Bool) :
    n.Step (.work now fatal) (n.records (.work now fatal)) (n.act (.work now fatal)) := by
  have hturn := Shard.turn_work n.shard now
  simp only [records, act]
  rcases hwork : n.shard.work now with ⟨shard, _ | ⟨ticket, call⟩⟩
  · rw [hwork] at hturn
    exact .turn now fatal _ shard hturn
  · rw [hwork] at hturn
    cases fatal with
    | true => exact .perish now ticket call shard _ hturn
    | false => exact .handOn now ticket call shard _ hturn

theorem step_keep (n : Node) (listing : Listing) (clock : Clock) :
    n.Step (.keep listing clock) (n.records (.keep listing clock))
      (n.act (.keep listing clock)) := by
  simp only [records, act]
  cases hstep : n.keeper.step listing clock n.shard with
  | none =>
      rw [Keeper.ofStep_of_stuck hstep]
      exact .stuck listing clock hstep
  | some found =>
      obtain ⟨shard, keeper⟩ := found
      exact .move listing clock _ shard keeper (Keeper.move_of_step hstep)

theorem step_act (n : Node) (a : Act) : n.Step a (n.records a) (n.act a) := by
  cases a with
  | submit r => exact n.step_submit r
  | abandon ticket => exact .abandon ticket
  | work now fatal => exact n.step_work now fatal
  | answer ticket reply =>
      by_cases haway : ticket ∈ n.away
      · rw [act, if_pos haway]
        exact .answer ticket reply haway
      · rw [act, if_neg haway]
        exact .stray ticket reply haway
  | begin clock =>
      by_cases hstage : n.keeper.stage = .resting
      · rw [act, if_pos (by simp [Keeper.isResting, hstage])]
        exact .begin clock hstage
      · rw [act, if_neg (by cases hs : n.keeper.stage <;> simp_all [Keeper.isResting])]
        exact .busy clock hstage
  | keep listing clock => exact n.step_keep listing clock
  | join id address => exact .join id address
  | part id => exact .part id
  | close => exact .close

/-- Giving up waiting for a reply changes nothing for anybody else. -/
theorem run_filter_keepsCallers (n : Node) (gone : List Nat) (acts : List Act) :
    ∃ gone', { n with gone }.run (acts.filter Act.keepsCallers) =
        { n.run acts with gone := gone' } ∧
      { n with gone }.journal (acts.filter Act.keepsCallers) = n.journal acts := by
  induction acts generalizing n gone with
  | nil => exact ⟨gone, rfl, rfl⟩
  | cons a acts ih =>
      by_cases ha : a.keepsCallers = true
      · have hact : { n with gone }.act a = { n.act a with gone } := by
          cases a with
          | abandon ticket => cases ha
          | submit | join | part | close => rfl
          | work now fatal =>
              simp only [act]
              rcases n.shard.work now with ⟨shard, _ | ⟨ticket, call⟩⟩
              · rfl
              · cases fatal <;> rfl
          | answer ticket reply =>
              simp only [act]
              split_ifs <;> rfl
          | begin clock =>
              simp only [act]
              split_ifs <;> rfl
          | keep listing clock =>
              simp only [act]
              cases n.keeper.step listing clock n.shard <;> rfl
        have hrecords : { n with gone }.records a = n.records a := by cases a <;> rfl
        rw [List.filter_cons_of_pos ha]
        obtain ⟨gone', hrun, hjournal⟩ := ih (n.act a) gone
        refine ⟨gone', ?_, ?_⟩
        · exact (congrArg (run · _) hact).trans hrun
        · rw [journal, journal, hrecords, hact, hjournal]
      · rw [List.filter_cons_of_neg ha]
        cases a with
        | abandon ticket =>
            obtain ⟨gone', hrun, hjournal⟩ := ih (n.act (.abandon ticket)) gone
            exact ⟨gone', hrun, hjournal⟩
        | _ => exact absurd rfl ha

/-! ## What every act keeps -/

section Laws

variable {n n' : Node} {a : Act} {rs : Journal}

theorem Step.capacity (h : n.Step a rs n') : n'.shard.capacity = n.shard.capacity := by
  cases h with
  | turn now fatal records shard hturn => exact hturn.frame.2.1
  | handOn now ticket call shard records hturn => exact hturn.frame.2.1
  | perish now ticket call shard records hturn => exact hturn.frame.2.1
  | move listing clock records shard keeper hmove => exact hmove.frame.2.1
  | _ => rfl

theorem Step.ring (h : n.Step a rs n') (hkeeps : a.keepsMembers = true) :
    n'.shard.ring = n.shard.ring := by
  cases h with
  | turn now fatal records shard hturn => exact hturn.frame.1
  | handOn now ticket call shard records hturn => exact hturn.frame.1
  | perish now ticket call shard records hturn => exact hturn.frame.1
  | move listing clock records shard keeper hmove => exact hmove.frame.1
  | join id address => cases hkeeps
  | part id => cases hkeeps
  | _ => rfl

/-- What comes into the queue at one end leaves it at the other, but for what a dying worker
throws away. -/
theorem Step.queue (h : n.Step a rs n') :
    n'.shard.alive = n.shard.alive ∧
        Journal.taken rs ++ n'.shard.queue = n.shard.queue ++ Journal.accepted rs ∨
      n'.shard.alive = false ∧ n'.shard.queue = [] ∧ Journal.accepted rs = [] ∧
        Journal.taken rs <+: n.shard.queue := by
  cases h with
  | accept r hnone => exact Or.inl ⟨rfl, rfl⟩
  | turn now fatal records shard hturn =>
      left
      refine ⟨hturn.frame.2.2.1, ?_⟩
      rw [hturn.queue.1, hturn.queue.2.1, List.append_nil]
  | handOn now ticket call shard records hturn =>
      left
      refine ⟨hturn.frame.2.2.1, ?_⟩
      rw [hturn.queue.1, hturn.queue.2.1, List.append_nil]
  | perish now ticket call shard records hturn =>
      obtain ⟨htaken, haccepted, _⟩ := hturn.queue
      exact Or.inr ⟨rfl, rfl, haccepted, _, htaken⟩
  | move listing clock records shard keeper hmove =>
      left
      refine ⟨hmove.frame.2.2.1, ?_⟩
      rw [hmove.quiet.1]
      rcases hmove.queue with ⟨haccepted, hqueue, _⟩ | ⟨key, _, haccepted, hqueue, _⟩
      · simp [haccepted, hqueue]
      · simp [haccepted, hqueue]
  | _ => exact Or.inl ⟨rfl, (List.append_nil _).symm⟩

theorem Step.alive (h : n.Step a rs n') (halive : n'.shard.alive = true) :
    n.shard.alive = true := by
  rcases h.queue with ⟨hsame, _⟩ | ⟨hdead, _⟩
  · rwa [← hsame]
  · rw [hdead] at halive
    cases halive

theorem alive_of_run {acts : List Act} (h : (n.run acts).shard.alive = true) :
    n.shard.alive = true := by
  induction acts generalizing n with
  | nil => exact h
  | cons a acts ih => exact (n.step_act a).alive (ih h)

theorem Step.queue_eq (h : n.Step a rs n') (halive : n'.shard.alive = true) :
    Journal.taken rs ++ n'.shard.queue = n.shard.queue ++ Journal.accepted rs := by
  rcases h.queue with ⟨_, hqueue⟩ | ⟨hdead, _⟩
  · exact hqueue
  · rw [hdead] at halive
    cases halive

theorem Step.queue_prefix (h : n.Step a rs n') :
    Journal.taken rs ++ n'.shard.queue <+: n.shard.queue ++ Journal.accepted rs := by
  rcases h.queue with ⟨_, hqueue⟩ | ⟨_, hnil, haccepted, hprefix⟩
  · exact hqueue ▸ List.prefix_refl _
  · rwa [hnil, haccepted, List.append_nil, List.append_nil]

theorem Step.accepted_of_dead (h : n.Step a rs n') (hdead : n.shard.alive = false) :
    Journal.accepted rs = [] := by
  cases h with
  | accept r hnone =>
      rw [(Shard.refusal?_eq_none hnone).2.1] at hdead
      cases hdead
  | turn now fatal records shard hturn => exact hturn.queue.2.1
  | handOn now ticket call shard records hturn => exact hturn.queue.2.1
  | perish now ticket call shard records hturn => exact hturn.queue.2.1
  | move listing clock records shard keeper hmove =>
      rcases hmove.queue with ⟨haccepted, _⟩ | ⟨key, hnone, _⟩
      · exact haccepted
      · rw [(Shard.refusal?_eq_none hnone).2.1] at hdead
        cases hdead
  | _ => rfl

theorem Step.tickets (h : n.Step a rs n') :
    List.range n'.shard.tickets =
      List.range n.shard.tickets ++ (Journal.accepted rs).map (·.1) := by
  cases h with
  | accept r hnone => exact List.range_succ
  | turn now fatal records shard hturn =>
      rw [hturn.frame.2.2.2, hturn.queue.2.1, List.map_nil, List.append_nil]
  | handOn now ticket call shard records hturn =>
      rw [hturn.frame.2.2.2, hturn.queue.2.1, List.map_nil, List.append_nil]
  | perish now ticket call shard records hturn =>
      rw [hturn.queue.2.1, List.map_nil, List.append_nil, ← hturn.frame.2.2.2]
      rfl
  | move listing clock records shard keeper hmove =>
      rcases hmove.queue with ⟨haccepted, _, htickets⟩ | ⟨key, _, haccepted, _, htickets⟩
      · simp [haccepted, htickets]
      · simp [haccepted, htickets, List.range_succ]
  | _ => exact (List.append_nil _).symm

theorem Step.length_queue_le (h : n.Step a rs n')
    (hle : n.shard.queue.length ≤ n.shard.capacity) :
    n'.shard.queue.length ≤ n'.shard.capacity := by
  have hprefix := h.queue_prefix.length_le
  rw [h.capacity]
  cases h with
  | accept r hnone =>
      have hroom := (Shard.refusal?_eq_none hnone).2.2
      simp only [Shard.enqueue, List.length_append, List.length_singleton]
      omega
  | turn now fatal records shard hturn =>
      rw [hturn.queue.2.1] at hprefix
      simp only [List.length_append, List.length_nil] at hprefix ⊢
      omega
  | handOn now ticket call shard records hturn =>
      rw [hturn.queue.2.1] at hprefix
      simp only [List.length_append, List.length_nil] at hprefix ⊢
      omega
  | perish now ticket call shard records hturn => exact Nat.zero_le _
  | move listing clock records shard keeper hmove =>
      rcases hmove.queue with ⟨_, hqueue, _⟩ | ⟨key, hnone, _, hqueue, _⟩
      · simpa [hqueue] using hle
      · have hroom := (Shard.refusal?_eq_none hnone).2.2
        simp only [hqueue, List.length_append, List.length_singleton]
        omega
  | _ => exact hle

/-- What the worker tells is what the keeper hears, in the same order. -/
theorem Step.events (h : n.Step a rs n') (hkeeps : a.keepsReader = true)
    (hreader : n.shard.events.hasReader = true) :
    n'.shard.events.hasReader = true ∧ (∀ p ∈ Journal.offered rs, p.2 ≠ .closed) ∧
      Journal.observed rs ++ n'.shard.events.waiting =
        n.shard.events.waiting ++ Journal.told rs := by
  have hturn : ∀ {now s' handed}, n.shard.Turn now rs (s', handed) →
      s'.events.hasReader = true ∧ (∀ p ∈ Journal.offered rs, p.2 ≠ .closed) ∧
        Journal.observed rs ++ s'.events.waiting =
          n.shard.events.waiting ++ Journal.told rs := by
    intro now s' handed hturn
    obtain ⟨hsame, hwaiting, hopen⟩ := hturn.events
    exact ⟨hsame ▸ hreader, hopen hreader, by rw [hturn.queue.2.2, hwaiting, List.nil_append]⟩
  cases h with
  | turn now fatal records shard h => exact hturn h
  | handOn now ticket call shard records h => exact hturn h
  | perish now ticket call shard records h =>
      have hdone := hturn h
      exact hdone
  | move listing clock records shard keeper hmove =>
      obtain ⟨hsame, hwaiting⟩ := hmove.events
      rw [Journal.told, hmove.quiet.2.2]
      exact ⟨hsame ▸ hreader, by simp, by rw [hwaiting, List.filterMap_nil, List.append_nil]⟩
  | close => cases hkeeps
  | _ => exact ⟨hreader, fun p hp => (by cases hp), (List.append_nil _).symm⟩

theorem Step.hasReader (h : n.Step a rs n') :
    n'.shard.events.hasReader = (n.shard.events.hasReader && a.keepsReader) := by
  cases h with
  | turn now fatal records shard hturn => exact hturn.events.1.trans (Bool.and_true _).symm
  | handOn now ticket call shard records hturn => exact hturn.events.1.trans (Bool.and_true _).symm
  | perish now ticket call shard records hturn => exact hturn.events.1.trans (Bool.and_true _).symm
  | move listing clock records shard keeper hmove =>
      exact hmove.events.1.trans (Bool.and_true _).symm
  | close => exact (Bool.and_false _).symm
  | _ => exact (Bool.and_true _).symm

end Laws

/-! ## The events of a run -/

theorem hasReader_run (n : Node) (acts : List Act) :
    (n.run acts).shard.events.hasReader =
      (n.shard.events.hasReader && acts.all Act.keepsReader) := by
  induction acts generalizing n with
  | nil => exact (Bool.and_true _).symm
  | cons a acts ih =>
      have hstep := (n.step_act a).hasReader
      rw [List.all_cons, ← Bool.and_assoc, ← hstep]
      exact ih (n.act a)

/-- As long as there is somebody to hear the events, those that were heard and those that wait are
those that waited at first and those that were accepted, in this order. -/
theorem events_run (n : Node) (acts : List Act)
    (hreader : (n.run acts).shard.events.hasReader = true) :
    (∀ p ∈ Journal.offered (n.journal acts), p.2 ≠ .closed) ∧
      Journal.observed (n.journal acts) ++ (n.run acts).shard.events.waiting =
        n.shard.events.waiting ++ Journal.told (n.journal acts) := by
  induction acts generalizing n with
  | nil => exact ⟨fun p hp => (by cases hp), (List.append_nil _).symm⟩
  | cons a acts ih =>
      obtain ⟨hopen, hheard⟩ := ih (n.act a) hreader
      have hstep := n.step_act a
      have hkeeps : (n.shard.events.hasReader && (a :: acts).all Act.keepsReader) = true := by
        rw [← hasReader_run, hreader]
      simp only [List.all_cons, Bool.and_eq_true] at hkeeps
      obtain ⟨_, hopen', hheard'⟩ := hstep.events hkeeps.2.1 hkeeps.1
      rw [journal, Journal.offered_append, Journal.observed_append, Journal.told_append]
      refine ⟨fun p hp => ?_, ?_⟩
      · rcases List.mem_append.mp hp with hp | hp
        · exact hopen' p hp
        · exact hopen p hp
      · calc Journal.observed (n.records a) ++ Journal.observed ((n.act a).journal acts) ++
              ((n.act a).run acts).shard.events.waiting
            = Journal.observed (n.records a) ++ (n.act a).shard.events.waiting ++
                Journal.told ((n.act a).journal acts) := by
              rw [List.append_assoc, hheard, List.append_assoc]
          _ = n.shard.events.waiting ++
                (Journal.told (n.records a) ++ Journal.told ((n.act a).journal acts)) := by
              rw [hheard', List.append_assoc]

/-- What is said of the events in a journal is what becomes of them in the queue, as long as there
is somebody to hear them. -/
structure Conveyed (n : Node) (j : Journal) : Prop where
  heard : n.shard.events.hasReader = true →
    Journal.observed j ++ n.shard.events.waiting = Journal.told j
  reached : n.shard.events.hasReader = true → ∀ p ∈ Journal.offered j, p.2 ≠ .closed

theorem conveyed_run (settings : Settings) (ring : Ring) (senders pollMs : Nat)
    (acts : List Act) :
    ((make settings ring senders pollMs).run acts).Conveyed
      ((make settings ring senders pollMs).journal acts) where
  heard hreader := (events_run _ acts hreader).2
  reached hreader := (events_run _ acts hreader).1

end Node

end ClusterCache
