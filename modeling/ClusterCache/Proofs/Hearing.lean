import ClusterCache.Proofs.Bookkeeping

/-!
# Before a pass

What the keeper will know of the store once it has heard the events that wait, and what else
holds of a node that nobody has asked anything of.
-/

namespace ClusterCache

open Std

namespace Keeper

/-- The keeper after it has heard events. -/
def hear (k : Keeper) (events : List Event) : Keeper := events.foldl observe k

@[simp] theorem hear_nil (k : Keeper) : k.hear [] = k := rfl

@[simp] theorem hear_cons (k : Keeper) (e : Event) (events : List Event) :
    k.hear (e :: events) = (k.observe e).hear events := rfl

theorem observe_with (k : Keeper) (stage : Stage) (gauges : Gauges) (e : Event) :
    { k with stage, gauges }.observe e = { k.observe e with stage, gauges } := by
  unfold observe
  cases e.change <;> rfl

theorem hear_with (k : Keeper) (stage : Stage) (gauges : Gauges) (events : List Event) :
    { k with stage, gauges }.hear events = { k.hear events with stage, gauges } := by
  induction events generalizing k with
  | nil => rfl
  | cons e events ih =>
      rw [hear_cons, observe_with, hear_cons]
      exact ih (k.observe e)

@[simp] theorem observe_limit (k : Keeper) (e : Event) : (k.observe e).limit = k.limit := by
  unfold observe
  cases e.change <;> rfl

theorem hear_sound {k : Keeper} (hpolicy : k.policy.Sound) (hexpiry : k.expiry.Sound)
    (events : List Event) : (k.hear events).policy.Sound ∧ (k.hear events).expiry.Sound := by
  induction events generalizing k with
  | nil => exact ⟨hpolicy, hexpiry⟩
  | cons e events ih =>
      obtain ⟨hpolicy', hexpiry'⟩ := observe_sound hpolicy hexpiry e
      exact ih hpolicy' hexpiry'

theorem Move.limit {listing : Listing} {clock : Clock} {s s' : Shard} {k k' : Keeper}
    {rs : Journal} (h : Move listing clock s k rs s' k') : k'.limit = k.limit := by
  cases h with
  | note e rest left hwaiting hstage => exact observe_limit k e
  | _ => rfl

end Keeper

/-- Tickets are given out one after the other, no reply comes before its ticket is given out, and
no request is without a key. -/
structure Shard.Tidy (s : Shard) : Prop where
  size : s.size = s.store.size
  named : ∀ key, s.store[key]? ≠ none → key ≠ ""
  asked : ∀ p ∈ s.queue, p.1 < s.tickets ∧ p.2.key ≠ ""
  replies : ∀ t, s.tickets ≤ t → s.replies.contains t = false

namespace Shard

variable {s s' : Shard}

theorem Tidy.frame (h : s.Tidy) (hstore : s'.store = s.store) (hsize : s'.size = s.size)
    (hreplies : s'.replies = s.replies) (hqueue : s'.queue = s.queue)
    (htickets : s'.tickets = s.tickets) : s'.Tidy := by
  constructor
  · rw [hsize, hstore]
    exact h.size
  · rw [hstore]
    exact h.named
  · rw [hqueue, htickets]
    exact h.asked
  · rw [hreplies, htickets]
    exact h.replies

theorem Tidy.answer (h : s.Tidy) {ticket : Nat} (hgiven : ticket < s.tickets) (reply : Reply) :
    (s.answer ticket reply).Tidy := by
  refine ⟨h.size, h.named, h.asked, fun t ht => ?_⟩
  have hlater : s.tickets ≤ t := ht
  have hne : ticket ≠ t := by omega
  simp [Shard.answer, ExtTreeMap.contains_insert, hne, h.replies t hlater]

theorem Tidy.rest (h : s.Tidy) {p : Nat × Request} {rest : List (Nat × Request)}
    (hqueue : s.queue = p :: rest) : Tidy { s with queue := rest } :=
  ⟨h.size, h.named, fun q hq => h.asked q (hqueue ▸ List.mem_cons_of_mem p hq), h.replies⟩

theorem Tidy.execute (h : s.Tidy) (now : UInt64) {ticket : Nat} {r : Request}
    (hgiven : ticket < s.tickets) (hkey : r.key ≠ "") : (s.execute now ticket r).Tidy := by
  refine ⟨?_, fun key hstored => ?_, fun p hp => ?_, fun t ht => ?_⟩
  · simp [execute_eq]
  · rw [lookup_execute] at hstored
    by_cases heq : key = r.key
    · rwa [heq]
    · rw [if_neg heq] at hstored
      exact h.named key hstored
  · rw [execute_queue] at hp
    rw [execute_tickets]
    exact h.asked p hp
  · rw [execute_tickets] at ht
    have hne : ticket ≠ t := by omega
    simp [execute_eq, ExtTreeMap.contains_insert, hne, h.replies t ht]

theorem Tidy.enqueue (h : s.Tidy) {r : Request} (hkey : r.key ≠ "") : (s.enqueue r).Tidy := by
  refine ⟨h.size, h.named, fun p hp => ?_, fun t ht => h.replies t (Nat.le_of_succ_le ht)⟩
  rcases List.mem_append.mp hp with hp | hp
  · obtain ⟨hgiven, hname⟩ := h.asked p hp
    exact ⟨Nat.lt_succ_of_lt hgiven, hname⟩
  · rw [List.mem_singleton.mp hp]
    exact ⟨Nat.lt_succ_self _, hkey⟩

theorem Turn.tidy {now : UInt64} {rs : Journal} {handed : Option (Nat × Call)}
    (h : s.Turn now rs (s', handed)) (hs : s.Tidy) :
    s'.Tidy ∧ ∀ p, handed = some p → p.1 < s'.tickets := by
  cases h with
  | idle hqueue => exact ⟨hs, by simp⟩
  | execute ticket r rest hqueue hlocal =>
      obtain ⟨hgiven, hkey⟩ := hs.asked (ticket, r) (by simp [hqueue])
      exact ⟨(hs.rest hqueue).execute now hgiven hkey, by simp⟩
  | giveUp ticket r rest hqueue hforeign haddress =>
      obtain ⟨hgiven, _⟩ := hs.asked (ticket, r) (by simp [hqueue])
      exact ⟨(hs.rest hqueue).answer hgiven _, by simp⟩
  | handOn ticket r rest address hqueue hforeign haddress =>
      obtain ⟨hgiven, _⟩ := hs.asked (ticket, r) (by simp [hqueue])
      refine ⟨hs.rest hqueue, fun p hp => ?_⟩
      rw [← Option.some.inj hp]
      exact hgiven

end Shard

namespace Node

open Journal

variable {n n' : Node} {a : Act} {rs j : Journal}

/-- A shard and what is away from it. -/
structure Tidy (n : Node) : Prop where
  shard : n.shard.Tidy
  away : ∀ t ∈ n.away, t < n.shard.tickets

theorem Tidy.step (hn : n.Tidy) (h : n.Step a rs n') (halive : n'.shard.alive = true) :
    n'.Tidy := by
  cases h with
  | accept r hnone =>
      exact ⟨hn.shard.enqueue (Shard.refusal?_eq_none hnone).1,
        fun t ht => Nat.lt_succ_of_lt (hn.away t ht)⟩
  | turn now fatal records shard hturn =>
      refine ⟨(hturn.tidy hn.shard).1, fun t ht => ?_⟩
      simp only [hturn.frame.2.2.2]
      exact hn.away t ht
  | handOn now ticket call shard records hturn =>
      obtain ⟨hshard, hgiven⟩ := hturn.tidy hn.shard
      refine ⟨hshard, fun t ht => ?_⟩
      rcases List.mem_append.mp ht with ht | ht
      · simp only [hturn.frame.2.2.2]
        exact hn.away t ht
      · rw [List.mem_singleton.mp ht]
        exact hgiven _ rfl
  | perish now ticket call shard records hturn => cases halive
  | answer ticket reply haway =>
      exact ⟨hn.shard.answer (hn.away ticket haway) reply,
        fun t ht => hn.away t (List.mem_of_mem_filter ht)⟩
  | move listing clock records shard keeper hmove =>
      obtain ⟨_, _, _, hstore, hsize, hreplies⟩ := hmove.frame
      rcases hmove.queue with ⟨_, hqueue, htickets⟩ | ⟨key, hnone, _, hqueue, htickets⟩
      · refine ⟨hn.shard.frame hstore hsize hreplies hqueue htickets, ?_⟩
        simp only [htickets]
        exact hn.away
      · have hmore := hn.shard.enqueue (Shard.refusal?_eq_none hnone).1
        refine ⟨hmore.frame hstore hsize hreplies hqueue htickets, fun t ht => ?_⟩
        simp only [htickets]
        exact Nat.lt_succ_of_lt (hn.away t ht)
  | join id address => exact ⟨hn.shard.frame rfl rfl rfl rfl rfl, hn.away⟩
  | part id => exact ⟨hn.shard.frame rfl rfl rfl rfl rfl, hn.away⟩
  | close => exact ⟨hn.shard.frame rfl rfl rfl rfl rfl, hn.away⟩
  | _ => exact ⟨hn.shard, hn.away⟩

theorem tidy_make (settings : Settings) (ring : Ring) (senders pollMs : Nat) :
    (make settings ring senders pollMs).Tidy := by
  refine ⟨⟨?_, fun key hstored => ?_, fun p hp => ?_, fun t _ => ?_⟩, fun t ht => ?_⟩
  · simp [make, Shard.make]
  · simp [make, Shard.make] at hstored
  · cases hp
  · simp [make, Shard.make]
  · cases ht

theorem tidy_run {acts : List Act} (hn : n.Tidy) (halive : (n.run acts).shard.alive = true) :
    (n.run acts).Tidy := by
  induction acts generalizing n with
  | nil => exact hn
  | cons a acts ih => exact ih (hn.step (n.step_act a) (alive_of_run halive)) halive

theorem Step.limit (h : n.Step a rs n') : n'.keeper.limit = n.keeper.limit := by
  cases h with
  | move listing clock records shard keeper hmove => exact hmove.limit
  | _ => rfl

theorem limit_run (acts : List Act) : (n.run acts).keeper.limit = n.keeper.limit := by
  induction acts generalizing n with
  | nil => rfl
  | cons a acts ih => exact ih.trans (n.step_act a).limit

/-- Once the keeper has heard everything, it knows of a key what the store holds, unless an event
was lost. -/
theorem Agrees.heard {key : String} (hj : n.Agrees j key) (hk : n.keeper.Sound)
    (hpending : n.keeper.stage.pending = []) (hqueue : n.shard.queue = [])
    (hkept : ∀ p ∈ offered j, p.2 = .accepted) :
    ((n.keeper.hear n.shard.events.waiting).policy.tracks key = true ↔
        n.shard.store[key]? ≠ none) ∧
      (n.keeper.hear n.shard.events.waiting).expiry.time? key =
        n.shard.store[key]?.map (·.expires) := by
  generalize hwaiting : n.shard.events.waiting = events
  induction events generalizing n j with
  | nil =>
      refine hj.lossless ?_ hqueue hpending hkept
      rw [waitingOf, hwaiting]
      rfl
  | cons e events ih =>
      -- The next event is heard in a step of a pass.
      let k : Keeper := { n.keeper with stage := .draining 1 }
      have hk' : k.Sound := Keeper.sound_of_quiet hk.policy hk.expiry rfl (by simp [k])
      have hj' : Agrees { n with keeper := k } (j ++ []) key := by
        refine hj.frame rfl rfl rfl rfl (fun _ ht _ => ht) Iff.rfl ?_
        rw [Keeper.indexed_of_pending rfl, Keeper.indexed_of_pending hpending]
      have hmove : Keeper.Move .ascending ⟨0, 0⟩ n.shard k [.observed e]
          { n.shard with events := { n.shard.events with waiting := events } }
          { k.observe e with stage := .draining 0 } :=
        .note e events 0 hwaiting (Or.inr rfl)
      have hnext := hj'.move hk' hmove
      have hkeeper : ({ k.observe e with stage := .draining 0 } : Keeper) =
          { n.keeper.observe e with stage := .draining 0, gauges := k.gauges } := by
        rw [Keeper.observe_with]
      have hoffered : offered (j ++ [] ++ [.observed e]) = offered j := by
        simp [offered, Record.offered?]
      have hheard := ih hnext (hmove.sound hk') rfl hqueue (by rwa [hoffered]) rfl
      simp only [hkeeper] at hheard
      rw [Keeper.hear_with] at hheard
      exact hheard

/-- What the keeper will know once it has heard the events of a pass. -/
def informed (n : Node) : Keeper :=
  n.keeper.hear (n.shard.events.waiting.take (Keeper.drainLimit + 1))

/-- A node that nobody has asked anything of, whose keeper rests and will know the store once it
has heard the events of a pass. -/
structure Ready (n : Node) : Prop where
  alive : n.shard.alive = true
  queue : n.shard.queue = []
  stage : n.keeper.stage = .resting
  sound : n.keeper.Sound
  tidy : n.Tidy
  own : ∀ key, n.shard.store[key]? ≠ none → n.shard.ring.isLocal key = true
  tracks : ∀ key, n.informed.policy.tracks key = true ↔ n.shard.store[key]? ≠ none
  indexed : ∀ key, n.informed.expiry.time? key = n.shard.store[key]?.map (·.expires)

/-- A node that has lost no event is ready for a pass that will hear all that wait. -/
theorem ready_run (settings : Settings) (ring : Ring) (senders pollMs : Nat) {acts : List Act}
    (hsteady : Steady acts)
    (halive : ((make settings ring senders pollMs).run acts).shard.alive = true)
    (hkept : ∀ p ∈ offered ((make settings ring senders pollMs).journal acts), p.2 ≠ .full)
    (hqueue : ((make settings ring senders pollMs).run acts).shard.queue = [])
    (hstage : ((make settings ring senders pollMs).run acts).keeper.stage = .resting)
    (hwaiting : ((make settings ring senders pollMs).run acts).shard.events.waiting.length ≤
      Keeper.drainLimit + 1) :
    ((make settings ring senders pollMs).run acts).Ready := by
  have hkeys := fun key => agrees_run settings ring senders pollMs hsteady key halive
  obtain ⟨_, hopen, _⟩ := told_run settings ring senders pollMs hsteady
  have htidy := tidy_run (tidy_make settings ring senders pollMs) halive
  generalize (make settings ring senders pollMs).journal acts = j at *
  generalize (make settings ring senders pollMs).run acts = n at *
  have haccepted : ∀ p ∈ offered j, p.2 = .accepted := by
    intro p hp
    cases ho : p.2 with
    | accepted => rfl
    | full => exact absurd ho (hkept p hp)
    | closed => exact absurd ho (hopen p hp)
  have hinformed : n.informed = n.keeper.hear n.shard.events.waiting := by
    rw [informed, List.take_of_length_le hwaiting]
  have hpending : n.keeper.stage.pending = [] := by rw [hstage]; rfl
  refine ⟨halive, hqueue, hstage, (hkeys "").1, htidy, fun key hstored => ?_, fun key => ?_,
    fun key => ?_⟩
  · apply (hkeys key).2.own
    intro hnone
    exact hstored ((hkeys key).2.silent hnone).1
  · rw [hinformed]
    exact ((hkeys key).2.heard (hkeys key).1 hpending hqueue haccepted).1
  · rw [hinformed]
    exact ((hkeys key).2.heard (hkeys key).1 hpending hqueue haccepted).2

end Node

end ClusterCache
