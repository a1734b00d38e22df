import ClusterCache.Proofs.Agreement
import ClusterCache.Proofs.RefusedDeletions
import ClusterCache.Proofs.Serving

/-!
# The order of the keys of a bucket

A sweep of expired keys goes through a bucket in whatever order its keys are listed.  The order
decides in which order they are deleted and heard of, and which of them are still there after a
refusal, but nothing else.
-/

namespace ClusterCache

open Std

namespace Act

/-- Steps of the keeper, each with its own listing and its own clock. -/
def keeps (steps : List (Listing × Clock)) : List Act := steps.map fun step => .keep step.1 step.2

/-- Turns of the worker. -/
def works (times : List UInt64) : List Act := times.map fun now => .work now false

end Act

namespace Shard

/-- The shard with deletions of expired keys counted and given tickets. -/
def counting (s : Shard) (count : Nat) : Shard :=
  { s with
    tickets := s.tickets + count
    counters := { s.counters with expirations := s.counters.expirations + count } }

/-- The shard after deletions of expired keys have been accepted. -/
def asked (s : Shard) (keys : List String) : Shard :=
  (s.counting keys.length).trailed (ClusterCache.deletions s.tickets keys)

@[simp] theorem asked_nil (s : Shard) : s.asked [] = s := by
  simp [asked, trailed, counting, ClusterCache.deletions]

theorem expirations_asked (s : Shard) (keys : List String) :
    (s.asked keys).counters.expirations = s.counters.expirations + keys.length := by
  simp [asked, trailed, counting]

theorem asked_concat (s : Shard) (keys : List String) (key : String) :
    s.asked (keys ++ [key]) = { (s.asked keys).enqueue ⟨key, .delete⟩ with
      counters := (s.asked keys).counters.expire } := by
  simp [asked, trailed, counting, enqueue, deletions_concat, Counters.expire, Nat.add_assoc]

/-- The shard when its worker comes to the deletions of a sweep that are so many. -/
def beforeDeletions (s : Shard) (count : Nat) (times : List UInt64) : Shard :=
  (s.counting count).workAll (times.take s.queue.length)

end Shard

theorem Keeper.Move.isEviction {listing : Listing} {clock : Clock} {s s' : Shard} {k k' : Keeper}
    {rs : Journal} (h : Move listing clock s k rs s' k') (hstage : k.stage.isEviction = true) :
    k'.stage.isEviction = true ∨ k'.stage = .resting := by
  cases h with
  | note e rest left hwaiting hfrom =>
      rcases hfrom with ⟨deadline, hfrom, _⟩ | hfrom <;> simp [hfrom, Stage.isEviction] at hstage
  | sweep hfrom =>
      rcases hfrom with ⟨deadline, hfrom, _⟩ | ⟨deadline, hfrom, _⟩ | ⟨left, hfrom, _⟩ <;>
        simp [hfrom, Stage.isEviction] at hstage
  | settled last deadline ticket issued hfrom hdone =>
      cases last with
      | false => simp [hfrom, Stage.isEviction] at hstage
      | true => exact Or.inl rfl
  | finish deadline hfrom => exact Or.inr rfl
  | choose | measured | evict | halt => exact Or.inl rfl
  | _ => simp_all [Stage.isEviction]

namespace Node

open Keeper

/-- The node after its keeper has begun a sweep of expired keys and has taken steps. -/
def afterSweep (n : Node) (clock : Clock) (steps : List (Listing × Clock)) : Node :=
  { n with keeper := n.keeper.sweep clock }.run (Act.keeps steps)

/-- What is to be said of the steps of a sweep. -/
def sweepLog (n : Node) (clock : Clock) (steps : List (Listing × Clock)) : Journal :=
  { n with keeper := n.keeper.sweep clock }.journal (Act.keeps steps)

/-- A sweep of expired keys has tried the deletions that it tries. -/
structure Sweeps (n : Node) (clock : Clock) (steps : List (Listing × Clock))
    (accepted : List String) (refused : Option String) : Prop where
  ended : ∃ deadline issued,
    (n.afterSweep clock steps).keeper.stage = .settling false deadline issued
  tries : (n.sweepLog clock steps).Tries .expiry accepted refused

/-- The node after turns of the worker. -/
def afterWork (n : Node) (times : List UInt64) : Node := n.run (Act.works times)

/-- The turns of the worker are enough for all requests, and no event is lost. -/
structure Finishes (n : Node) (times : List UInt64) : Prop where
  done : (n.afterWork times).shard.queue = []
  kept : ∀ p ∈ Journal.offered (n.journal (Act.works times)), p.2 = .accepted

/-- What the keeper knows once it has heard all the events that wait. -/
def caughtUp (n : Node) : Keeper := n.keeper.hear n.shard.events.waiting

/-! ## The sweep -/

/-- A sweep of expired keys has deletions to try or buckets to look at. -/
structure Trying (n : Node) (clock : Clock) (accepted : List String) (m : Node) (j : Journal) :
    Prop where
  expiring : ∃ time, Keeper.Expiring (n.keeper.sweep clock) clock.seconds time accepted m.keeper
  tries : j.Tries .expiry accepted none
  shard : m.shard = n.shard.asked accepted

/-- A sweep of expired keys waits for its deletions. -/
structure Tried (n : Node) (clock : Clock) (accepted : List String) (refused : Option String)
    (m : Node) (j : Journal) : Prop where
  stage : ∃ deadline issued, m.keeper.stage = .settling false deadline issued
  expired : Keeper.Expired (n.keeper.sweep clock) clock.seconds accepted refused m.keeper
  tries : j.Tries .expiry accepted refused
  shard : m.shard = n.shard.asked accepted

variable {n m m' : Node} {clock : Clock} {j rs : Journal} {steps : List (Listing × Clock)}
  {accepted : List String} {refused : Option String} {listing : Listing} {now : Clock}

theorem trying_start (hpolicy : n.keeper.policy.Sound) (hexpiry : n.keeper.expiry.Sound)
    (clock : Clock) : n.Trying clock [] { n with keeper := n.keeper.sweep clock } [] where
  expiring := ⟨0, expiring_sweep hpolicy hexpiry clock⟩
  tries := rfl
  shard := (Shard.asked_nil n.shard).symm

/-- A step of a sweep brings it closer to its end or is the last one to try anything. -/
theorem Trying.step (h : n.Trying clock accepted m j) (hstep : m.Step (.keep listing now) rs m') :
    (∃ accepted', n.Trying clock accepted' m' (j ++ rs) ∧
        m'.keeper.remaining < m.keeper.remaining) ∨
      ∃ refused, n.Tried clock accepted refused m' (j ++ rs) := by
  obtain ⟨⟨time, h⟩, htries, hshard⟩ := h
  obtain ⟨keys, issued, hstage⟩ := h.stage
  cases hstep with
  | stuck _ _ hstuck =>
      refine absurd hstuck (step_ne_none ?_ ?_) <;> simp [hstage, Keeper.deadline?]
  | move _ _ _ shard keeper hmove =>
      have hless := hmove.remaining_lt h.forgot.sound (by simp [hstage, Stage.budget?])
        (by simp [hstage])
      rcases h.move hmove with ⟨rfl, rfl, ⟨time', h'⟩ | ⟨h', hsettling⟩⟩ | ⟨key, rfl, rfl, h'⟩ |
        ⟨key, failure, rfl, rfl, h', hsettling⟩
      · rw [List.append_nil]
        exact Or.inl ⟨accepted, ⟨⟨time', h'⟩, htries, hshard⟩, hless⟩
      · rw [List.append_nil]
        exact Or.inr ⟨none, hsettling, h', htries, hshard⟩
      · refine Or.inl ⟨_, ⟨⟨time, h'⟩, htries.accept _ key, ?_⟩, hless⟩
        rw [Shard.asked_concat, ← hshard]
      · exact Or.inr ⟨some key, hsettling, h', htries.refuse key failure, hshard⟩

theorem Tried.step (h : n.Tried clock accepted refused m j)
    (hstep : m.Step (.keep listing now) rs m') :
    n.Tried clock accepted refused m' (j ++ rs) ∨ m'.keeper.stage.isEviction = true := by
  cases hstep with
  | stuck _ _ hstuck =>
      rw [List.append_nil]
      exact Or.inl h
  | move _ _ _ shard keeper hmove =>
      obtain ⟨⟨deadline, issued, hstage⟩, h, htries, hshard⟩ := h
      obtain ⟨rfl, rfl, h', hsettling | hover⟩ := h.move hmove hstage
      · rw [List.append_nil]
        exact Or.inl ⟨hsettling, h', htries, hshard⟩
      · exact Or.inr (by simp [hover, Stage.isEviction])

/-- How far a pass has come since its sweep of expired keys began. -/
inductive SweepPhase (n : Node) (clock : Clock) (m : Node) (j : Journal) : Prop where
  | trying (accepted : List String) (h : n.Trying clock accepted m j)
  | tried (accepted : List String) (refused : Option String)
      (h : n.Tried clock accepted refused m j)
  | past (h : m.keeper.stage.isEviction = true ∨ m.keeper.stage = .resting)

theorem SweepPhase.step (h : n.SweepPhase clock m j) (hstep : m.Step (.keep listing now) rs m') :
    n.SweepPhase clock m' (j ++ rs) := by
  cases h with
  | trying accepted h =>
      rcases h.step hstep with ⟨accepted', h', _⟩ | ⟨refused, h'⟩
      · exact .trying accepted' h'
      · exact .tried accepted refused h'
  | tried accepted refused h =>
      rcases h.step hstep with h' | hover
      · exact .tried accepted refused h'
      · exact .past (Or.inl hover)
  | past h =>
      refine .past ?_
      cases hstep with
      | stuck _ _ hstuck => exact h
      | move _ _ _ shard keeper hmove =>
          rcases h with hstage | hresting
          · exact hmove.isEviction hstage
          · exact absurd hresting hmove.stage_ne_resting

theorem afterSweep_concat (n : Node) (clock : Clock) (steps : List (Listing × Clock))
    (step : Listing × Clock) :
    n.afterSweep clock (steps ++ [step]) =
      (n.afterSweep clock steps).act (.keep step.1 step.2) := by
  rw [afterSweep, Act.keeps, List.map_append]
  exact run_concat _ _ _

theorem sweepLog_concat (n : Node) (clock : Clock) (steps : List (Listing × Clock))
    (step : Listing × Clock) :
    n.sweepLog clock (steps ++ [step]) =
      n.sweepLog clock steps ++ (n.afterSweep clock steps).records (.keep step.1 step.2) := by
  rw [sweepLog, Act.keeps, List.map_append]
  exact journal_concat _ _ _

theorem sweepPhase_run (hpolicy : n.keeper.policy.Sound) (hexpiry : n.keeper.expiry.Sound)
    (clock : Clock) (steps : List (Listing × Clock)) :
    n.SweepPhase clock (n.afterSweep clock steps) (n.sweepLog clock steps) := by
  induction steps using List.reverseRecOn with
  | nil => exact .trying [] (trying_start hpolicy hexpiry clock)
  | append_singleton steps step ih =>
      rw [afterSweep_concat, sweepLog_concat]
      exact ih.step (step_act _ _)

theorem Sweeps.spec (h : n.Sweeps clock steps accepted refused) (hpolicy : n.keeper.policy.Sound)
    (hexpiry : n.keeper.expiry.Sound) :
    n.Tried clock accepted refused (n.afterSweep clock steps) (n.sweepLog clock steps) := by
  obtain ⟨deadline, issued, hstage⟩ := h.ended
  cases sweepPhase_run hpolicy hexpiry clock steps with
  | trying accepted' h' =>
      obtain ⟨time, hexpiring⟩ := h'.expiring
      obtain ⟨keys, issued', hstage'⟩ := hexpiring.stage
      cases hstage.symm.trans hstage'
  | tried accepted' refused' h' =>
      obtain ⟨rfl, rfl⟩ := h'.tries.unique h.tries
      exact h'
  | past hpast =>
      rw [hstage] at hpast
      simp [Stage.isEviction] at hpast

/-- However buckets are listed, so many deletions leave so many keys in the index, and they have
been counted. -/
theorem Sweeps.same_counts {steps' : List (Listing × Clock)} {accepted' : List String}
    {refused' : Option String} (h : n.Sweeps clock steps accepted refused)
    (h' : n.Sweeps clock steps' accepted' refused') (hpolicy : n.keeper.policy.Sound)
    (hexpiry : n.keeper.expiry.Sound) (hlength : accepted.length = accepted'.length) :
    (n.afterSweep clock steps).keeper.expiry.keyCount =
        (n.afterSweep clock steps').keeper.expiry.keyCount ∧
      (n.afterSweep clock steps).shard.counters.expirations =
        (n.afterSweep clock steps').shard.counters.expirations := by
  have htried := h.spec hpolicy hexpiry
  have htried' := h'.spec hpolicy hexpiry
  constructor
  · have hcount := htried.expired.keyCount
    have hcount' := htried'.expired.keyCount
    omega
  · rw [htried.shard, htried'.shard, Shard.expirations_asked, Shard.expirations_asked, hlength]

/-- A sweep comes to its end, however buckets are listed. -/
theorem exists_sweeps (hpolicy : n.keeper.policy.Sound) (hexpiry : n.keeper.expiry.Sound)
    (clock : Clock) (steps : Nat → Listing × Clock) :
    ∃ count accepted refused, n.Sweeps clock ((List.range count).map steps) accepted refused := by
  have hfrom : ∀ count accepted,
      n.Trying clock accepted (n.afterSweep clock ((List.range count).map steps))
        (n.sweepLog clock ((List.range count).map steps)) →
      ∃ count accepted refused,
        n.Sweeps clock ((List.range count).map steps) accepted refused := by
    intro count
    generalize hleft : (n.afterSweep clock ((List.range count).map steps)).keeper.remaining = left
    induction left using Nat.strong_induction_on generalizing count with
    | _ left ih =>
        intro accepted h
        have hnext := h.step (step_act _ (.keep (steps count).1 (steps count).2))
        rw [← afterSweep_concat, ← sweepLog_concat, ← List.map_singleton, ← List.map_append,
          ← List.range_succ, hleft] at hnext
        rcases hnext with ⟨accepted', h', hless⟩ | ⟨refused, h'⟩
        · exact ih _ hless (count + 1) rfl accepted' h'
        · exact ⟨count + 1, accepted, refused, h'.stage, h'.tries⟩
  exact hfrom 0 [] (trying_start hpolicy hexpiry clock)

/-! ## After the worker -/

theorem run_works (n : Node) (times : List UInt64) :
    (n.run (Act.works times)).shard = n.shard.workAll times ∧
      (n.run (Act.works times)).keeper = n.keeper ∧
      n.journal (Act.works times) = n.shard.workLog times := by
  induction times generalizing n with
  | nil => exact ⟨rfl, rfl, rfl⟩
  | cons now times ih =>
      obtain ⟨hshard, hkeeper, hjournal⟩ := ih (n.act (.work now false))
      rw [shard_act_work] at hshard hjournal
      rw [keeper_act_work] at hkeeper
      refine ⟨hshard, hkeeper, ?_⟩
      exact congrArg (Record.ofWork n.shard now ++ ·) hjournal

/-- What a node has come to, `n` being the node before the sweep. -/
structure Ended (n : Node) (clock : Clock) (times : List UInt64) (accepted : List String)
    (refused : Option String) (m : Node) : Prop where
  expired : Keeper.Expired (n.keeper.sweep clock) clock.seconds accepted refused m.keeper
  cleared : ∃ last,
    Clearing (n.shard.beforeDeletions accepted.length times) m.shard last accepted []

variable {times : List UInt64} {accepted' : List String} {refused' : Option String}

theorem Sweeps.ended_afterWork (h : n.Sweeps clock steps accepted refused)
    (hfinishes : (n.afterSweep clock steps).Finishes times) (hpolicy : n.keeper.policy.Sound)
    (hexpiry : n.keeper.expiry.Sound) :
    n.Ended clock times accepted refused ((n.afterSweep clock steps).afterWork times) := by
  obtain ⟨_, hexpired, _, hasked⟩ := h.spec hpolicy hexpiry
  obtain ⟨hshard, hkeeper, hjournal⟩ := run_works (n.afterSweep clock steps) times
  have hdone := hfinishes.done
  have hkept := hfinishes.kept
  rw [afterWork, hshard, hasked, Shard.asked] at hdone
  rw [hjournal, hasked, Shard.asked] at hkept
  obtain ⟨hall, hlog⟩ := Shard.workAll_trailed hdone
  rw [hall] at hdone
  rw [hlog, Journal.offered_append] at hkept
  refine ⟨by rwa [afterWork, hkeeper], ?_⟩
  rw [afterWork, hshard, hasked, Shard.asked, hall]
  exact (clearing_start _ n.shard.tickets accepted).workAll hexpired.forgot.nodup hdone
    fun p hp => hkept p (List.mem_append_right _ hp)

theorem Ended.agree (h : n.Ended clock times accepted refused m)
    (h' : n.Ended clock times accepted' refused' m') (hpolicy : n.keeper.policy.Sound)
    (hlength : accepted.length = accepted'.length) {p : String → Bool}
    (hsame : ∀ key, p key = true → (key ∈ accepted ↔ key ∈ accepted')) :
    Keeper.Agree p m.caughtUp m'.caughtUp ∧
      ∀ key, p key = true → m.shard.store[key]? = m'.shard.store[key]? := by
  obtain ⟨last, hcleared⟩ := h.cleared
  obtain ⟨last', hcleared'⟩ := h'.cleared
  rw [← hlength] at hcleared'
  have hfirst : Keeper.Agree p m.keeper m'.keeper :=
    h.expired.forgot.agree h'.expired.forgot hpolicy h.expired.pending h'.expired.pending hsame
  constructor
  · rw [caughtUp, caughtUp, hcleared.events, hcleared'.events, hear_append, hear_append]
    refine (hfirst.hear _).hear_deletions fun key hkey => ?_
    simp only [List.mem_filter, hsame key hkey]
  · intro key hkey
    simp only [hcleared.store, hcleared'.store, hsame key hkey]

/-- Nodes that cannot be told apart by what they store and count, and by what their keepers know
once they have heard the events that wait. -/
structure SameOutcome (m m' : Node) : Prop where
  store : m.shard.store = m'.shard.store
  size : m.shard.size = m'.shard.size
  counters : m.shard.counters = m'.shard.counters
  expiry : m.caughtUp.expiry = m'.caughtUp.expiry
  order : m.caughtUp.policy.order = m'.caughtUp.policy.order
  frequency? : ∀ key, m.caughtUp.policy.frequency? key = m'.caughtUp.policy.frequency? key

theorem Ended.same (h : n.Ended clock times accepted refused m)
    (h' : n.Ended clock times accepted' refused' m') (hpolicy : n.keeper.policy.Sound)
    (hperm : accepted.Perm accepted') : SameOutcome m m' := by
  obtain ⟨hkeeper, hstore⟩ := h.agree h' hpolicy hperm.length_eq (p := fun _ => true)
    fun key _ => hperm.mem_iff
  obtain ⟨last, hcleared⟩ := h.cleared
  obtain ⟨last', hcleared'⟩ := h'.cleared
  rw [← hperm.length_eq] at hcleared'
  have hsame : m.shard.store = m'.shard.store :=
    ExtTreeMap.ext_getElem? fun key => hstore key rfl
  exact
    { store := hsame
      size := by simp only [hcleared.size, hcleared'.size, hsame, hperm.mem_iff]
      counters := by rw [hcleared.counters, hcleared'.counters, hperm.countP_eq]
      expiry := hkeeper.expiry_eq
      order := hkeeper.order_eq
      frequency? := fun key => hkeeper.policy.frequency? rfl }

/-! ## How many keys are left -/

/-- The events that the keeper hears before those of so many deletions of a sweep. -/
def ahead (n : Node) (count : Nat) (times : List UInt64) : List Event :=
  (n.shard.beforeDeletions count times).events.waiting

/-- The events before those of the deletions leave a key in the index if it has not been deleted,
and do not bring it back if it has.  If the key is one of the node's own, the event of its deletion
comes last. -/
structure LeavesAlone (n : Node) (count : Nat) (times : List UInt64) (key : String) : Prop where
  kept : timeHeard key (n.keeper.expiry.time? key) (n.ahead count times) ≠ none
  gone : n.shard.ring.isLocal key = false → timeHeard key none (n.ahead count times) = none

theorem Ended.time?_caughtUp (h : n.Ended clock times accepted refused m) (key : String) :
    m.caughtUp.expiry.time? key =
      if key ∈ accepted ∧ n.shard.ring.isLocal key = true then none
      else timeHeard key (if key ∈ accepted then none else n.keeper.expiry.time? key)
        (n.ahead accepted.length times) := by
  obtain ⟨last, hcleared⟩ := h.cleared
  have hsound := h.expired.forgot.sound
  have hheard := (hear_sound hsound.policy hsound.expiry (n.ahead accepted.length times)).2
  have hring : (n.shard.beforeDeletions accepted.length times).ring = n.shard.ring :=
    Shard.ring_workAll _ _
  rw [caughtUp, hcleared.events, hring, ← ahead, hear_append, (hear_deletions_of_keys hheard _).2.2,
    time?_hear hsound.policy hsound.expiry, h.expired.forgot.time? h.expired.pending]
  simp only [List.mem_filter, Keeper.sweep]

/-- A key of the bucket is left in the index in the end just if the sweep has left it there. -/
theorem Ended.gone_iff (h : n.Ended clock times accepted refused m) {key : String}
    (halone : n.LeavesAlone accepted.length times key) :
    m.caughtUp.expiry.time? key = none ↔ key ∈ accepted := by
  rw [h.time?_caughtUp]
  by_cases hkey : key ∈ accepted
  · cases hlocal : n.shard.ring.isLocal key with
    | true => simp [hkey]
    | false => simp [hkey, halone.gone hlocal]
  · simp [hkey, halone.kept]

/-- Nodes that differ at most in which keys of the bucket of a time were deleted.  As many keys are
left in either index, unless what was told before the deletions takes away what was left of the
bucket or brings back what was not. -/
structure SameElsewhere (n : Node) (count : Nat) (times : List UInt64) (time : UInt64)
    (m m' : Node) : Prop where
  expirations : m.shard.counters.expirations = m'.shard.counters.expirations
  store : ∀ key, n.keeper.expiry.time? key ≠ some time →
    m.shard.store[key]? = m'.shard.store[key]?
  time? : ∀ key, n.keeper.expiry.time? key ≠ some time →
    m.caughtUp.expiry.time? key = m'.caughtUp.expiry.time? key
  tracks : ∀ key, n.keeper.expiry.time? key ≠ some time →
    m.caughtUp.policy.tracks key = m'.caughtUp.policy.tracks key
  frequency? : ∀ key, n.keeper.expiry.time? key ≠ some time →
    m.caughtUp.policy.frequency? key = m'.caughtUp.policy.frequency? key
  order : (m.caughtUp.policy.order.filter fun key => n.keeper.expiry.time? key ≠ some time) =
    m'.caughtUp.policy.order.filter fun key => n.keeper.expiry.time? key ≠ some time
  keyCount : (∀ key, n.keeper.expiry.time? key = some time → n.LeavesAlone count times key) →
    m.caughtUp.expiry.keyCount = m'.caughtUp.expiry.keyCount

theorem Ended.sameElsewhere (h : n.Ended clock times accepted refused m)
    (h' : n.Ended clock times accepted' refused' m') (hpolicy : n.keeper.policy.Sound)
    (hlength : accepted.length = accepted'.length) {time : UInt64}
    (hsame : ∀ key, n.keeper.expiry.time? key ≠ some time →
      (key ∈ accepted ↔ key ∈ accepted')) :
    n.SameElsewhere accepted.length times time m m' := by
  obtain ⟨hkeeper, hstore⟩ := h.agree h' hpolicy hlength
    (p := fun key => n.keeper.expiry.time? key ≠ some time)
    fun key hkey => hsame key (of_decide_eq_true hkey)
  obtain ⟨last, hcleared⟩ := h.cleared
  obtain ⟨last', hcleared'⟩ := h'.cleared
  refine
    { expirations := by rw [hcleared.counters, hcleared'.counters, hlength]
      store := fun key hkey => hstore key (decide_eq_true hkey)
      time? := fun key hkey => hkeeper.time? key (decide_eq_true hkey)
      tracks := fun key hkey => hkeeper.policy.tracks (decide_eq_true hkey)
      frequency? := fun key hkey => hkeeper.policy.frequency? (decide_eq_true hkey)
      order := hkeeper.policy.order
      keyCount := fun halone => ?_ }
  refine size_eq_of_erased h.expired.forgot.nodup h'.expired.forgot.nodup hlength
    (p := fun key => n.keeper.expiry.time? key = some time) (fun key hkey => ?_)
    (fun key hkey => ?_) fun key hkey => ⟨?_, ?_⟩
  · exact h.gone_iff (halone key (of_decide_eq_true hkey))
  · exact h'.gone_iff (hlength ▸ halone key (of_decide_eq_true hkey))
  · exact hsame key (of_decide_eq_false hkey)
  · exact iff_of_eq (congrArg (· = none) (hkeeper.time? key (by simpa using hkey)))

/-- The outcome of a sweep does not depend on the order in which the keys of a bucket are listed
unless a deletion is refused.  After a refusal as many keys are left in the index and as many have
been counted, and only the keys of the bucket at hand can be told apart in the end. -/
theorem outcome_of_any_listing (kind : PolicyKind) (history : List Policy.Notice)
    (ops : List ExpiryIndex.Operation) (limit pollMs : Nat) (s : Shard) (away gone : List Nat)
    (clock : Clock) (times : List UInt64) :
    let n : Node := ⟨s, Keeper.ofHistories kind history ops limit pollMs, away, gone⟩
    (∀ steps : Nat → Listing × Clock, ∃ count accepted refused,
        n.Sweeps clock ((List.range count).map steps) accepted refused) ∧
      ∀ (steps steps' : List (Listing × Clock)) (accepted accepted' : List String)
        (refused refused' : Option String),
        n.Sweeps clock steps accepted refused → n.Sweeps clock steps' accepted' refused' →
        (accepted.length = accepted'.length →
          (n.afterSweep clock steps).keeper.expiry.keyCount =
              (n.afterSweep clock steps').keeper.expiry.keyCount ∧
            (n.afterSweep clock steps).shard.counters.expirations =
              (n.afterSweep clock steps').shard.counters.expirations) ∧
        ((n.afterSweep clock steps).Finishes times → (n.afterSweep clock steps').Finishes times →
          (refused = none → refused' = none →
            SameOutcome ((n.afterSweep clock steps).afterWork times)
              ((n.afterSweep clock steps').afterWork times)) ∧
          ∀ key, refused = some key → accepted.length = accepted'.length →
            ∃ time key', refused' = some key' ∧ n.keeper.expiry.time? key = some time ∧
              n.keeper.expiry.time? key' = some time ∧
              n.SameElsewhere accepted.length times time
                ((n.afterSweep clock steps).afterWork times)
                ((n.afterSweep clock steps').afterWork times)) := by
  intro n
  have hpolicy : n.keeper.policy.Sound := Policy.sound_after kind history
  have hexpiry : n.keeper.expiry.Sound := (ExpiryIndex.follows_performed ops).1
  refine ⟨exists_sweeps hpolicy hexpiry clock, fun steps steps' accepted accepted' refused refused'
    h h' => ⟨h.same_counts h' hpolicy hexpiry, fun hfinishes hfinishes' => ?_⟩⟩
  have hended := h.ended_afterWork hfinishes hpolicy hexpiry
  have hended' := h'.ended_afterWork hfinishes' hpolicy hexpiry
  constructor
  · rintro rfl rfl
    apply hended.same hended' hpolicy
    rw [List.perm_ext_iff_of_nodup hended.expired.forgot.nodup hended'.expired.forgot.nodup]
    exact fun key => hended.expired.mem_iff.trans hended'.expired.mem_iff.symm
  · rintro key rfl hlength
    obtain ⟨time, key', hrefused, htime, htime', hchosen, hchosen'⟩ :=
      hended.expired.exists_refused hended'.expired hlength
    refine ⟨time, key', hrefused, htime, htime', ?_⟩
    exact hended.sameElsewhere hended' hpolicy hlength fun other hother =>
      (hchosen.mem_iff_lt hother).trans (hchosen'.mem_iff_lt hother).symm

/-- The keys of a bucket from the last to the first. -/
def descending : Listing := ⟨fun keys => keys.toList.reverse, fun _ => List.reverse_perm _⟩

/-- Two keys that expire in the same second, with room for some requests. -/
def twins (capacity : Nat) : Node where
  shard := { Shard.make (Ring.empty "n" 1) capacity (EventQueue.make 8 1) with
    store := (ExtTreeMap.insert ∅ "a" ⟨"x", 0, 5⟩).insert "b" ⟨"y", 0, 5⟩ }
  keeper := Keeper.ofHistories .lfu [.put "a", .put "b"] [.add 5 "a", .add 5 "b"] 0 0

/-- With room for both deletions either listing leaves nothing behind; with room for one, each
listing leaves another key, and nothing else is different. -/
theorem outcome_of_two_listings :
    let both : List (Listing × Clock) := List.replicate 4 (.ascending, ⟨5, 0⟩)
    let both' : List (Listing × Clock) := List.replicate 4 (descending, ⟨5, 0⟩)
    let one : List (Listing × Clock) := List.replicate 3 (.ascending, ⟨5, 0⟩)
    let one' : List (Listing × Clock) := List.replicate 3 (descending, ⟨5, 0⟩)
    (twins 2).Sweeps ⟨5, 0⟩ both ["a", "b"] none ∧ (twins 2).Sweeps ⟨5, 0⟩ both' ["b", "a"] none ∧
      SameOutcome (((twins 2).afterSweep ⟨5, 0⟩ both).afterWork [5, 5])
        (((twins 2).afterSweep ⟨5, 0⟩ both').afterWork [5, 5]) ∧
      (twins 1).Sweeps ⟨5, 0⟩ one ["a"] (some "b") ∧
      (twins 1).Sweeps ⟨5, 0⟩ one' ["b"] (some "a") ∧
      ((twins 1).afterSweep ⟨5, 0⟩ one).keeper.expiry.keyCount =
        ((twins 1).afterSweep ⟨5, 0⟩ one').keeper.expiry.keyCount ∧
      (twins 1).SameElsewhere 1 [5, 5] 5 (((twins 1).afterSweep ⟨5, 0⟩ one).afterWork [5, 5])
        (((twins 1).afterSweep ⟨5, 0⟩ one').afterWork [5, 5]) ∧
      (((twins 1).afterSweep ⟨5, 0⟩ one).afterWork [5, 5]).caughtUp.expiry.keyCount =
        (((twins 1).afterSweep ⟨5, 0⟩ one').afterWork [5, 5]).caughtUp.expiry.keyCount := by
  intro both both' one one'
  have hboth : (twins 2).Sweeps ⟨5, 0⟩ both ["a", "b"] none := ⟨⟨1000, [0, 1], by rfl⟩, by rfl⟩
  have hboth' : (twins 2).Sweeps ⟨5, 0⟩ both' ["b", "a"] none := ⟨⟨1000, [0, 1], by rfl⟩, by rfl⟩
  have hone : (twins 1).Sweeps ⟨5, 0⟩ one ["a"] (some "b") := ⟨⟨1000, [0], by rfl⟩, by rfl⟩
  have hone' : (twins 1).Sweeps ⟨5, 0⟩ one' ["b"] (some "a") := ⟨⟨1000, [0], by rfl⟩, by rfl⟩
  have hlaw := outcome_of_any_listing .lfu [.put "a", .put "b"] [.add 5 "a", .add 5 "b"] 0 0
  obtain ⟨_, hfull⟩ := (hlaw (twins 2).shard [] [] ⟨5, 0⟩ [5, 5]).2 both both' _ _ _ _ hboth hboth'
  obtain ⟨hcounts, hpart⟩ :=
    (hlaw (twins 1).shard [] [] ⟨5, 0⟩ [5, 5]).2 one one' _ _ _ _ hone hone'
  obtain ⟨hsame, _⟩ := hfull ⟨by rfl, by decide +kernel⟩ ⟨by rfl, by decide +kernel⟩
  obtain ⟨_, hrefused⟩ := hpart ⟨by rfl, by decide +kernel⟩ ⟨by rfl, by decide +kernel⟩
  obtain ⟨time, key', _, htime, _, helsewhere⟩ := hrefused "b" rfl rfl
  obtain rfl : 5 = time := Option.some.inj (Eq.trans (by rfl) htime)
  have halone : ∀ key, (twins 1).keeper.expiry.time? key = some 5 →
      (twins 1).LeavesAlone 1 [5, 5] key :=
    fun key hkey => ⟨ne_of_eq_of_ne hkey (Option.some_ne_none 5), fun _ => rfl⟩
  exact ⟨hboth, hboth', hsame rfl rfl, hone, hone', (hcounts rfl).1, helsewhere,
    helsewhere.keyCount halone⟩

/-- Twins of which one has been deleted, but its event still waits. -/
def survivor : Node :=
  let s := (twins 1).shard
  { twins 1 with
    shard := { s with store := s.store.erase "a", events := (s.events.offer ⟨"a", .delete⟩).1 } }

/-- The waiting event takes its key from the index in the end.  If the one deletion that finds room
was of that key, the other key is left there; if it was of the other key, none is. -/
theorem keyCount_depends_on_listing :
    let one : List (Listing × Clock) := List.replicate 3 (.ascending, ⟨5, 0⟩)
    let one' : List (Listing × Clock) := List.replicate 3 (descending, ⟨5, 0⟩)
    let m := survivor.afterSweep ⟨5, 0⟩ one
    let m' := survivor.afterSweep ⟨5, 0⟩ one'
    survivor.Sweeps ⟨5, 0⟩ one ["a"] (some "b") ∧ survivor.Sweeps ⟨5, 0⟩ one' ["b"] (some "a") ∧
      m.Finishes [5] ∧ m'.Finishes [5] ∧
      m.keeper.expiry.keyCount = 1 ∧ m'.keeper.expiry.keyCount = 1 ∧
      (m.afterWork [5]).caughtUp.expiry.keyCount = 1 ∧
      (m'.afterWork [5]).caughtUp.expiry.keyCount = 0 := by
  intro one one' m m'
  have hone : survivor.Sweeps ⟨5, 0⟩ one ["a"] (some "b") := ⟨⟨1000, [0], by rfl⟩, by rfl⟩
  have hone' : survivor.Sweeps ⟨5, 0⟩ one' ["b"] (some "a") := ⟨⟨1000, [0], by rfl⟩, by rfl⟩
  have hdone : m.Finishes [5] := ⟨by rfl, by decide +kernel⟩
  have hdone' : m'.Finishes [5] := ⟨by rfl, by decide +kernel⟩
  exact ⟨hone, hone', hdone, hdone', by rfl, by rfl, by rfl, by rfl⟩

end Node

end ClusterCache
