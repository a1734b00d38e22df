import ClusterCache.Proofs.Replies
import ClusterCache.Proofs.WithoutWorker

/-!
# The death of a worker

A worker that dies while it hands a request on takes its store with it.  What it has done before
stays done: the replies, the counters, the size made known, the events told.  What waited for it
is answered that there is no worker, what comes later is refused, and the passes that go on in
the node end and change nothing but what the events that were left make the keeper learn.
-/

namespace ClusterCache.Node

open Journal

variable {n : Node} {now : UInt64} {ticket : Nat} {call : Call}

/-- What is left of a node when its worker dies in a turn, of the call for a ticket.  `j` is the
journal up to then. -/
structure Bereft (n : Node) (now : UInt64) (ticket : Nat) (j : Journal) : Prop where
  results : ∀ earlier x later, executed j = earlier ++ x :: later → ∀ more,
    (n.run (.work now true :: more)).shard.replies[x.ticket]? =
      some (.done ((Ledger.after earlier).step x).2)
  /-- The request that the worker has died of and those that wait are answered all alike. -/
  orphans : ∀ t, t = ticket ∨ t ∈ n.shard.queue.map (·.1) → ∀ more,
    (n.run (.work now true :: more)).shard.replies[t]? = some (.failed .workerUnavailable)
  silence : ∀ more, executed (n.journal (.work now true :: more)) = [] ∧
    offered (n.journal (.work now true :: more)) = [] ∧
    accepted (n.journal (.work now true :: more)) = []
  counters : ∀ more, (n.run (.work now true :: more)).shard.counters = n.shard.counters
  size : ∀ more, (n.run (.work now true :: more)).shard.size = n.shard.store.size
  /-- The events that were told are there to be heard, in order. -/
  events : ∀ more, (∀ a ∈ more, a.keepsReader = true) →
    observed (n.journal (.work now true :: more)) ++
      (n.run (.work now true :: more)).shard.events.waiting = n.shard.events.waiting
  refusals : ∀ more r, (n.run (.work now true :: more)).shard.submit r =
    ((n.run (.work now true :: more)).shard,
      .error (if r.key = "" then .emptyKey else .workerUnavailable))
  ends : ∀ more, ∃ bound, ∀ rest, bound ≤ (n.run (.work now true :: more)).turns rest →
    ∃ p, p <+: rest ∧ ((n.run (.work now true :: more)).run p).keeper.stage = .resting
  /-- Between passes the keeper knows what it knew when the worker died, with the bucket it was at
  put back, and what it has heard since. -/
  books : ∀ more, (n.run (.work now true :: more)).keeper.stage = .resting →
    (n.keeper.whole.hear (observed (n.journal (.work now true :: more)))).SameBooks
      (n.run (.work now true :: more)).keeper
  passes : ∀ more, (n.run (.work now true :: more)).keeper.stage = .resting →
    ∀ clock, (n.run (.work now true :: more)).IdlePass clock

/-- The worker dies of a request that it hands on, the first in the queue. -/
theorem act_of_death (hdeath : (n.shard.work now).2 = some (ticket, call)) :
    ∃ r rest, n.shard.queue = (ticket, r) :: rest ∧
      n.records (.work now true) = [.passed ticket r] ∧
      n.act (.work now true) =
        { n with shard := Shard.die { n.shard with queue := rest } ticket } := by
  have hturn := n.shard.turn_work now
  rw [records, act]
  generalize Record.ofWork n.shard now = rs at hturn ⊢
  generalize n.shard.work now = w at hturn hdeath ⊢
  obtain ⟨shard, handed⟩ := w
  obtain rfl : handed = some (ticket, call) := hdeath
  cases hturn with
  | handOn t r rest address hqueue hforeign haddress => exact ⟨r, rest, hqueue, rfl, rfl⟩

theorem dead_of_death (hdeath : (n.shard.work now).2 = some (ticket, call)) :
    (n.act (.work now true)).Dead := by
  obtain ⟨r, rest, _, _, hact⟩ := act_of_death hdeath
  rw [hact]
  exact ⟨rfl, rfl⟩

theorem same_of_death (hdeath : (n.shard.work now).2 = some (ticket, call)) :
    (n.act (.work now true)).shard.counters = n.shard.counters ∧
      (n.act (.work now true)).shard.size = n.shard.size ∧
      (n.act (.work now true)).shard.events.waiting = n.shard.events.waiting ∧
      (n.act (.work now true)).keeper = n.keeper := by
  obtain ⟨r, rest, _, _, hact⟩ := act_of_death hdeath
  rw [hact]
  exact ⟨rfl, rfl, rfl, rfl⟩

theorem reply_of_death (hdeath : (n.shard.work now).2 = some (ticket, call)) {t : Nat}
    (ht : t = ticket ∨ t ∈ n.shard.queue.map (·.1)) :
    (n.act (.work now true)).shard.replies[t]? = some (.failed .workerUnavailable) := by
  obtain ⟨r, rest, hqueue, _, hact⟩ := act_of_death hdeath
  rw [hact, Shard.lookup_die, if_pos]
  rw [hqueue, List.map_cons, List.mem_cons] at ht
  exact or_self_left.mp ht

theorem journal_of_death (hdeath : (n.shard.work now).2 = some (ticket, call))
    (more : List Act) : ∃ r, n.journal (.work now true :: more) =
      .passed ticket r :: (n.act (.work now true)).journal more := by
  obtain ⟨r, rest, _, hrecords, _⟩ := act_of_death hdeath
  refine ⟨r, ?_⟩
  rw [journal, hrecords]
  rfl

theorem bereft_of_turn {j : Journal} (hj : n.Orderly j) (hanswers : n.Answers j)
    (hn : n.Unanswered) (hk : n.keeper.Sound)
    (hsize : n.shard.alive = true → n.shard.size = n.shard.store.size)
    (hdeath : (n.shard.work now).2 = some (ticket, call)) : n.Bereft now ticket j := by
  have hd := dead_of_death hdeath
  have hstep := n.step_act (.work now true)
  have hsound := hstep.keeper_sound hk
  obtain ⟨hcounters, hsame, hwaiting, hkeeper⟩ := same_of_death hdeath
  have hrun : ∀ more, n.run (.work now true :: more) = (n.act (.work now true)).run more :=
    fun _ => rfl
  have halive : n.shard.alive = true := by
    by_contra hdead
    obtain ⟨r, rest, hqueue, _⟩ := act_of_death hdeath
    rw [hj.dead (by simpa using hdead)] at hqueue
    cases hqueue
  constructor
  · intro earlier x later hsplit more
    exact hn.reply_stays (hanswers.replies earlier x later hsplit) (.work now true :: more)
  · intro t ht more
    exact (hn.step hj hstep).reply_stays (reply_of_death hdeath ht) more
  · intro more
    obtain ⟨r, hjournal⟩ := journal_of_death hdeath more
    obtain ⟨_, hidle⟩ := hd.run more
    rw [hjournal]
    exact ⟨hidle.executed, hidle.offered, hidle.accepted⟩
  · exact fun more => (hd.run more).2.counters.trans hcounters
  · exact fun more => ((hd.run more).2.size.trans hsame).trans (hsize halive)
  · intro more hkeeps
    obtain ⟨r, hjournal⟩ := journal_of_death hdeath more
    rw [hjournal, ← hwaiting]
    exact hd.waiting hkeeps
  · exact fun more r => (hd.run more).1.submit r
  · intro more
    exact ⟨_, fun rest hturns => (hd.run more).1.ends (sound_run hsound more) hturns⟩
  · intro more hresting
    obtain ⟨r, hjournal⟩ := journal_of_death hdeath more
    have hbooks := hd.sameBooks hsound more
    rw [hkeeper, Keeper.whole_of_pending (k := ((n.act (.work now true)).run more).keeper)
      (by rw [← hrun, hresting]; rfl)] at hbooks
    rw [hjournal]
    exact hbooks
  · exact fun more hresting => (hd.run more).1.idlePass (sound_run hsound more) hresting

/-- However many requests, events, due keys and entries too many there are when the worker dies,
it leaves its node in order. -/
theorem bereft_of_death (settings : Settings) (ring : Ring) (senders pollMs : Nat)
    (before : List Act)
    (hdeath : (((make settings ring senders pollMs).run before).shard.work now).2 =
      some (ticket, call)) :
    ((make settings ring senders pollMs).run before).Bereft now ticket
      ((make settings ring senders pollMs).journal before) := by
  obtain ⟨hj, hanswers⟩ := orderly_run settings ring senders pollMs before
  have hn := unanswered_run settings ring senders pollMs before
  have hmade : (make settings ring senders pollMs).keeper.Sound := Keeper.sound_make _ _ _
  refine bereft_of_turn hj hanswers hn (sound_run hmade before) (fun halive => ?_) hdeath
  exact (tidy_run (tidy_make settings ring senders pollMs) halive).shard.size

/-- The settings of a node of two that gives keys up when it has more than one. -/
def smallSettings : Settings :=
  { nodeId := "a", replicas := 1, members := [⟨"a", "A"⟩, ⟨"b", "B"⟩], maxSize := 101 }

def small : Node := make smallSettings smallSettings.ring 1 0

/-- The keeper knows of a key put for five seconds, the event of another put waits to be heard,
and two requests wait, the first of them for a key of the other node. -/
def crowd : List Act :=
  [.submit ⟨"x", .put "v" 5⟩, .work 0 false, .begin ⟨0, 0⟩] ++
    List.replicate 7 (.keep .ascending ⟨0, 0⟩) ++
    [.submit ⟨"z", .put "w" 9⟩, .work 0 false, .submit ⟨"k", .get⟩, .submit ⟨"x", .delete⟩]

/-- A pass of eight steps after five seconds. -/
def passAtFive : List Act := .begin ⟨5, 0⟩ :: List.replicate 8 (.keep .ascending ⟨5, 0⟩)

/-- The pass after the death finds a key due and an entry too many.  It hears the event that was
left, and the two keys stay in the books. -/
theorem bereft_of_death_with_due_key :
    (small.run crowd).Bereft 0 2 (small.journal crowd) ∧
      let m := small.run (crowd ++ .work 0 true :: passAtFive)
      m.keeper.isResting = true ∧ m.keeper.expiry.time? "x" = some 5 ∧
        m.keeper.expiry.time? "z" = some 9 ∧ m.keeper.policy.size = 2 ∧
        m.keeper.limit < m.shard.size ∧ m.shard.events.waiting = [] ∧
        m.shard.counters = (small.run crowd).shard.counters := by
  have hdeath : ((small.run crowd).shard.work 0).2 = some (2, ⟨"B", ⟨"k", .get⟩⟩) := by
    decide +kernel
  exact ⟨bereft_of_death smallSettings smallSettings.ring 1 0 crowd hdeath, by decide +kernel⟩

end ClusterCache.Node
