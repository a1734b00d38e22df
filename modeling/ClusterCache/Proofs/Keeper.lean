import ClusterCache.Keeper
import ClusterCache.Proofs.Eviction.Policy
import ClusterCache.Proofs.ExpiryIndex
import ClusterCache.Proofs.Shard

/-!
# The steps of a pass

Every step a keeper can take, with what must hold before it and what it leaves behind.  Whatever
is kept by each of these moves is kept by a step.
-/

namespace ClusterCache

/-- How many more events a pass hears at most, while it hears events. -/
def Stage.budget? : Stage → Option Nat
  | .polling _ => some (Keeper.drainLimit + 1)
  | .pausing _ => some 0
  | .draining left => some left
  | _ => none

namespace Keeper

/-- One step of a pass, by what it does and what is to be said of it. -/
inductive Move (listing : Listing) (clock : Clock) (s : Shard) (k : Keeper) :
    List Record → Shard → Keeper → Prop where
  | note (e : Event) (rest : List Event) (left : Nat) (hwaiting : s.events.waiting = e :: rest)
      (hstage : (∃ deadline, k.stage = .polling deadline ∧ left = drainLimit) ∨
        k.stage = .draining (left + 1)) :
      Move listing clock s k [.observed e] { s with events := { s.events with waiting := rest } }
        { k.observe e with stage := .draining left }
  | pause (deadline : Nat) (hstage : k.stage = .polling deadline)
      (hspent : s.events.isExhausted = true) :
      Move listing clock s k [] s { k with stage := .pausing (clock.millis + k.pollMs) }
  | sweep (hstage : (∃ deadline, k.stage = .polling deadline ∧ s.events.waiting = [] ∧
          deadline ≤ clock.millis) ∨
        (∃ deadline, k.stage = .pausing deadline ∧ deadline ≤ clock.millis) ∨
        ∃ left, k.stage = .draining left ∧ (left = 0 ∨ s.events.waiting = [])) :
      Move listing clock s k [] s (k.sweep clock)
  | bucket (now time now' : UInt64) (issued : List Nat) (keys : Std.ExtTreeSet String)
      (x : ExpiryIndex) (hstage : k.stage = .expiring now time [] issued)
      (hearliest : k.expiry.earliest? = some (now', keys)) (hpoll : k.expiry.poll? = some (keys, x))
      (hdue : now' ≤ now) :
      Move listing clock s k [] s
        { k with expiry := x, stage := .expiring now now' (listing.list keys) issued }
  | swept (now time : UInt64) (issued : List Nat) (hstage : k.stage = .expiring now time [] issued)
      (hnone : ∀ time' keys, k.expiry.earliest? = some (time', keys) → now < time') :
      Move listing clock s k [] s (k.settle false clock issued)
  | expire (now time : UInt64) (key : String) (rest : List String) (issued : List Nat)
      (hstage : k.stage = .expiring now time (key :: rest) issued)
      (hnone : s.refusal? ⟨key, .delete⟩ = none) :
      Move listing clock s k [.accepted .expiry s.tickets ⟨key, .delete⟩]
        { s.enqueue ⟨key, .delete⟩ with counters := s.counters.expire }
        { k with
          policy := k.policy.delete key
          stage := .expiring now time rest (issued ++ [s.tickets]) }
  | giveBack (now time : UInt64) (key : String) (rest : List String) (issued : List Nat)
      (failure : Failure) (hstage : k.stage = .expiring now time (key :: rest) issued)
      (hrefusal : s.refusal? ⟨key, .delete⟩ = some failure) :
      Move listing clock s k [.refused .expiry ⟨key, .delete⟩ failure] s
        ((k.restore time (key :: rest)).settle false clock issued)
  | choose (issued : List Nat) (victim : String) (hstage : k.stage = .measuring issued)
      (hover : k.limit < s.size - issued.length) (hvictim : k.policy.victim? = some victim) :
      Move listing clock s k [] s { k with stage := .evicting victim issued }
  | measured (issued : List Nat) (hstage : k.stage = .measuring issued)
      (henough : k.limit < s.size - issued.length → k.policy.victim? = none) :
      Move listing clock s k [] s (k.settle true clock issued)
  | evict (victim : String) (issued : List Nat) (hstage : k.stage = .evicting victim issued)
      (hnone : s.refusal? ⟨victim, .delete⟩ = none) :
      Move listing clock s k [.accepted .eviction s.tickets ⟨victim, .delete⟩]
        { s.enqueue ⟨victim, .delete⟩ with counters := s.counters.evict }
        { k with
          policy := k.policy.delete victim
          expiry := k.expiry.remove victim
          stage := .measuring (issued ++ [s.tickets]) }
  | halt (victim : String) (issued : List Nat) (failure : Failure)
      (hstage : k.stage = .evicting victim issued)
      (hrefusal : s.refusal? ⟨victim, .delete⟩ = some failure) :
      Move listing clock s k [.refused .eviction ⟨victim, .delete⟩ failure] s
        (k.settle true clock issued)
  | settled (last : Bool) (deadline ticket : Nat) (issued : List Nat)
      (hstage : k.stage = .settling last deadline (ticket :: issued))
      (hdone : s.replies.contains ticket = true ∨ deadline ≤ clock.millis) :
      Move listing clock s k [] s (k.settle last clock issued)
  | turn (deadline : Nat) (hstage : k.stage = .settling false deadline []) :
      Move listing clock s k [] s { k with stage := .measuring [] }
  | finish (deadline : Nat) (hstage : k.stage = .settling true deadline []) :
      Move listing clock s k [] s (k.finish s)

variable {listing : Listing} {clock : Clock} {s s' : Shard} {k k' : Keeper} {rs : Journal}

/-- A keeper touches the queue and the events of its shard and nothing a request depends on. -/
theorem Move.frame (h : Move listing clock s k rs s' k') :
    s'.ring = s.ring ∧ s'.capacity = s.capacity ∧ s'.alive = s.alive ∧ s'.store = s.store ∧
      s'.size = s.size ∧ s'.replies = s.replies := by
  cases h <;> exact ⟨rfl, rfl, rfl, rfl, rfl, rfl⟩

/-- A keeper gets at the queue by deletions of its own, at its end. -/
theorem Move.queue (h : Move listing clock s k rs s' k') :
    (Journal.accepted rs = [] ∧ s'.queue = s.queue ∧ s'.tickets = s.tickets) ∨
      ∃ key, s.refusal? ⟨key, .delete⟩ = none ∧
        Journal.accepted rs = [(s.tickets, ⟨key, .delete⟩)] ∧
        s'.queue = s.queue ++ [(s.tickets, ⟨key, .delete⟩)] ∧ s'.tickets = s.tickets + 1 := by
  cases h with
  | expire now time key rest issued hstage hnone =>
      exact Or.inr ⟨key, hnone, rfl, rfl, rfl⟩
  | evict victim issued hstage hnone => exact Or.inr ⟨victim, hnone, rfl, rfl, rfl⟩
  | _ => exact Or.inl ⟨rfl, rfl, rfl⟩

theorem Move.quiet (h : Move listing clock s k rs s' k') :
    Journal.taken rs = [] ∧ Journal.executed rs = [] ∧ Journal.offered rs = [] := by
  cases h <;> exact ⟨rfl, rfl, rfl⟩

theorem Move.events (h : Move listing clock s k rs s' k') :
    s'.events.hasReader = s.events.hasReader ∧
      Journal.observed rs ++ s'.events.waiting = s.events.waiting := by
  cases h with
  | note e rest left hwaiting hstage => exact ⟨rfl, hwaiting.symm⟩
  | _ => exact ⟨rfl, rfl⟩

/-- At most one event is heard at a time, and then nothing is submitted. -/
theorem Move.observed (h : Move listing clock s k rs s' k') :
    Journal.observed rs = [] ∨ ∃ e, Journal.observed rs = [e] ∧ s'.queue = s.queue := by
  cases h with
  | note e rest left hwaiting hstage => exact Or.inr ⟨e, rfl, rfl⟩
  | _ => exact Or.inl rfl

theorem Move.stage_ne_resting (h : Move listing clock s k rs s' k') : k.stage ≠ .resting := by
  intro hresting
  cases h with
  | note e rest left hwaiting hstage =>
      rcases hstage with ⟨deadline, hstage, _⟩ | hstage <;> simp_all
  | sweep hstage =>
      rcases hstage with ⟨deadline, hstage, _⟩ | ⟨deadline, hstage, _⟩ | ⟨left, hstage, _⟩ <;>
        simp_all
  | _ => simp_all

/-! ## What can be done at a stage -/

theorem Move.of_hearing {budget : Nat} (h : Move listing clock s k rs s' k')
    (hstage : k.stage.budget? = some budget) :
    (∃ e rest left, budget = left + 1 ∧ s.events.waiting = e :: rest ∧
        s' = { s with events := { s.events with waiting := rest } } ∧
        k' = { k.observe e with stage := .draining left }) ∨
      (s.events.waiting = [] ∧ s' = s ∧
        k' = { k with stage := .pausing (clock.millis + k.pollMs) }) ∨
      (s.events.waiting.take budget = [] ∧ s' = s ∧ k' = k.sweep clock) := by
  cases h with
  | note e rest left hwaiting hleft =>
      refine Or.inl ⟨e, rest, left, ?_, hwaiting, rfl, rfl⟩
      rcases hleft with ⟨deadline, hpolling, rfl⟩ | hdraining
      · rw [hpolling] at hstage
        exact (Option.some.inj hstage).symm
      · rw [hdraining] at hstage
        exact (Option.some.inj hstage).symm
  | pause deadline hpolling hspent =>
      simp only [EventQueue.isExhausted, Bool.and_eq_true, List.isEmpty_iff] at hspent
      exact Or.inr (Or.inl ⟨hspent.1, rfl, rfl⟩)
  | sweep hfrom =>
      refine Or.inr (Or.inr ⟨?_, rfl, rfl⟩)
      rcases hfrom with ⟨deadline, _, hnil, _⟩ | ⟨deadline, hpausing, _⟩ | ⟨left, hdraining, hlast⟩
      · rw [hnil, List.take_nil]
      · rw [hpausing] at hstage
        obtain rfl : 0 = budget := Option.some.inj hstage
        rfl
      · rw [hdraining] at hstage
        obtain rfl : left = budget := Option.some.inj hstage
        rcases hlast with rfl | hnil
        · rfl
        · rw [hnil, List.take_nil]
  | _ => simp_all [Stage.budget?]

theorem Move.of_expiring {now time : UInt64} {keys : List String} {issued : List Nat}
    (h : Move listing clock s k rs s' k') (hstage : k.stage = .expiring now time keys issued) :
    (∃ time' bucket x, keys = [] ∧ k.expiry.earliest? = some (time', bucket) ∧
        k.expiry.poll? = some (bucket, x) ∧ time' ≤ now ∧ s' = s ∧
        k' = { k with expiry := x, stage := .expiring now time' (listing.list bucket) issued }) ∨
      (keys = [] ∧ (∀ time' bucket, k.expiry.earliest? = some (time', bucket) → now < time') ∧
        s' = s ∧ k' = k.settle false clock issued) ∨
      (∃ key rest, keys = key :: rest ∧ s.refusal? ⟨key, .delete⟩ = none ∧
        s' = { s.enqueue ⟨key, .delete⟩ with counters := s.counters.expire } ∧
        k' = { k with
          policy := k.policy.delete key
          stage := .expiring now time rest (issued ++ [s.tickets]) }) ∨
      ∃ key rest failure, keys = key :: rest ∧ s.refusal? ⟨key, .delete⟩ = some failure ∧
        s' = s ∧ k' = (k.restore time (key :: rest)).settle false clock issued := by
  cases h with
  | bucket now' t time' is bucket x hstage' hearliest hpoll hdue =>
      obtain ⟨rfl, rfl, rfl, rfl⟩ := Stage.expiring.inj (hstage.symm.trans hstage')
      exact Or.inl ⟨time', bucket, x, rfl, hearliest, hpoll, hdue, rfl, rfl⟩
  | swept now' t is hstage' hnone =>
      obtain ⟨rfl, rfl, rfl, rfl⟩ := Stage.expiring.inj (hstage.symm.trans hstage')
      exact Or.inr (Or.inl ⟨rfl, hnone, rfl, rfl⟩)
  | expire now' t key rest is hstage' hnone =>
      obtain ⟨rfl, rfl, rfl, rfl⟩ := Stage.expiring.inj (hstage.symm.trans hstage')
      exact Or.inr (Or.inr (Or.inl ⟨key, rest, rfl, hnone, rfl, rfl⟩))
  | giveBack now' t key rest is failure hstage' hrefusal =>
      obtain ⟨rfl, rfl, rfl, rfl⟩ := Stage.expiring.inj (hstage.symm.trans hstage')
      exact Or.inr (Or.inr (Or.inr ⟨key, rest, failure, rfl, hrefusal, rfl, rfl⟩))
  | _ => simp_all

theorem Move.of_measuring {issued : List Nat} (h : Move listing clock s k rs s' k')
    (hstage : k.stage = .measuring issued) :
    s' = s ∧ ((∃ victim, k.limit < s.size - issued.length ∧ k.policy.victim? = some victim ∧
        k' = { k with stage := .evicting victim issued }) ∨
      (k.limit < s.size - issued.length → k.policy.victim? = none) ∧
        k' = k.settle true clock issued) := by
  cases h with
  | choose is victim hstage' hover hvictim =>
      obtain rfl := Stage.measuring.inj (hstage.symm.trans hstage')
      exact ⟨rfl, Or.inl ⟨victim, hover, hvictim, rfl⟩⟩
  | measured is hstage' henough =>
      obtain rfl := Stage.measuring.inj (hstage.symm.trans hstage')
      exact ⟨rfl, Or.inr ⟨henough, rfl⟩⟩
  | _ => simp_all

theorem Move.of_evicting {victim : String} {issued : List Nat}
    (h : Move listing clock s k rs s' k') (hstage : k.stage = .evicting victim issued) :
    (s.refusal? ⟨victim, .delete⟩ = none ∧
        s' = { s.enqueue ⟨victim, .delete⟩ with counters := s.counters.evict } ∧
        k' = { k with
          policy := k.policy.delete victim
          expiry := k.expiry.remove victim
          stage := .measuring (issued ++ [s.tickets]) }) ∨
      ∃ failure, s.refusal? ⟨victim, .delete⟩ = some failure ∧ s' = s ∧
        k' = k.settle true clock issued := by
  cases h with
  | evict v is hstage' hnone =>
      obtain ⟨rfl, rfl⟩ := Stage.evicting.inj (hstage.symm.trans hstage')
      exact Or.inl ⟨hnone, rfl, rfl⟩
  | halt v is failure hstage' hrefusal =>
      obtain ⟨rfl, rfl⟩ := Stage.evicting.inj (hstage.symm.trans hstage')
      exact Or.inr ⟨failure, hrefusal, rfl, rfl⟩
  | _ => simp_all

theorem Move.of_settling {last : Bool} {deadline : Nat} {issued : List Nat}
    (h : Move listing clock s k rs s' k') (hstage : k.stage = .settling last deadline issued) :
    s' = s ∧ ((∃ ticket rest, issued = ticket :: rest ∧
        (s.replies.contains ticket = true ∨ deadline ≤ clock.millis) ∧
        k' = k.settle last clock rest) ∨
      issued = [] ∧ k' = if last then k.finish s else { k with stage := .measuring [] }) := by
  cases h with
  | settled l d ticket rest hstage' hdone =>
      obtain ⟨rfl, rfl, rfl⟩ := Stage.settling.inj (hstage.symm.trans hstage')
      exact ⟨rfl, Or.inl ⟨ticket, rest, rfl, hdone, rfl⟩⟩
  | turn d hstage' =>
      obtain ⟨rfl, rfl, rfl⟩ := Stage.settling.inj (hstage.symm.trans hstage')
      exact ⟨rfl, Or.inr ⟨rfl, rfl⟩⟩
  | finish d hstage' =>
      obtain ⟨rfl, rfl, rfl⟩ := Stage.settling.inj (hstage.symm.trans hstage')
      exact ⟨rfl, Or.inr ⟨rfl, rfl⟩⟩
  | _ => simp_all

theorem move_of_expireStep {now time : UInt64} {keys : List String} {issued : List Nat}
    (hstage : k.stage = .expiring now time keys issued)
    (h : k.expireStep listing clock s now time keys issued = (s', k')) :
    Move listing clock s k (Record.ofStep s k) s' k' := by
  rw [Record.ofStep, hstage]
  cases keys with
  | nil =>
      simp only [expireStep, nextBucket, ExpiryIndex.peek?, ExpiryIndex.poll?] at h
      cases hearliest : k.expiry.earliest? with
      | none =>
          simp only [hearliest, Option.map_none, Prod.mk.injEq] at h
          obtain ⟨rfl, rfl⟩ := h
          exact .swept now time issued hstage (by simp [hearliest])
      | some found =>
          obtain ⟨time', bucket⟩ := found
          simp only [hearliest, Option.map_some] at h
          by_cases hdue : time' ≤ now
          · rw [if_pos hdue, Prod.mk.injEq] at h
            obtain ⟨rfl, rfl⟩ := h
            exact .bucket now time time' issued bucket _ hstage hearliest
              (by simp [ExpiryIndex.poll?, hearliest]) hdue
          · rw [if_neg hdue, Prod.mk.injEq] at h
            obtain ⟨rfl, rfl⟩ := h
            refine .swept now time issued hstage fun t keys ht => ?_
            rw [hearliest] at ht
            obtain ⟨rfl, _⟩ := Prod.mk.inj (Option.some.inj ht)
            exact UInt64.not_le.mp hdue
  | cons key rest =>
      simp only [expireStep, Record.ofSubmit, Shard.submit_eq] at h ⊢
      cases hrefusal : s.refusal? ⟨key, .delete⟩ with
      | none =>
          simp only [hrefusal, Option.elim_none, Prod.mk.injEq] at h ⊢
          obtain ⟨rfl, rfl⟩ := h
          exact .expire now time key rest issued hstage hrefusal
      | some f =>
          simp only [hrefusal, Option.elim_some, Prod.mk.injEq] at h ⊢
          obtain ⟨rfl, rfl⟩ := h
          exact .giveBack now time key rest issued f hstage hrefusal

theorem move_of_evictStep {victim : String} {issued : List Nat}
    (hstage : k.stage = .evicting victim issued)
    (h : k.evictStep clock s victim issued = (s', k')) :
    Move listing clock s k (Record.ofStep s k) s' k' := by
  rw [Record.ofStep, hstage]
  simp only [evictStep, Record.ofSubmit, Shard.submit_eq] at h ⊢
  cases hrefusal : s.refusal? ⟨victim, .delete⟩ with
  | none =>
      simp only [hrefusal, Option.elim_none, Prod.mk.injEq] at h ⊢
      obtain ⟨rfl, rfl⟩ := h
      exact .evict victim issued hstage hrefusal
  | some f =>
      simp only [hrefusal, Option.elim_some, Prod.mk.injEq] at h ⊢
      obtain ⟨rfl, rfl⟩ := h
      exact .halt victim issued f hstage hrefusal

theorem move_of_measure {issued : List Nat} (hstage : k.stage = .measuring issued) :
    Move listing clock s k [] s (k.measure clock s.size issued) := by
  rw [measure]
  by_cases hover : k.limit < s.size - issued.length
  · rw [if_pos hover]
    cases hvictim : k.policy.victim? with
    | none => exact .measured issued hstage fun _ => hvictim
    | some victim => exact .choose issued victim hstage hover hvictim
  · rw [if_neg hover]
    exact .measured issued hstage fun h => absurd h hover

theorem take?_eq_some {q q' : EventQueue} {e : Event} (h : q.take? = some (e, q')) :
    ∃ rest, q.waiting = e :: rest ∧ q' = { q with waiting := rest } := by
  rw [EventQueue.take?] at h
  split at h
  · cases h
  · rename_i e' rest hwaiting
    obtain ⟨rfl, rfl⟩ := Prod.mk.inj (Option.some.inj h)
    exact ⟨rest, hwaiting, rfl⟩

theorem take?_eq_none {q : EventQueue} (h : q.take? = none) : q.waiting = [] := by
  rw [EventQueue.take?] at h
  split at h
  · assumption
  · cases h

theorem move_of_step (h : k.step listing clock s = some (s', k')) :
    Move listing clock s k (Record.ofStep s k) s' k' := by
  rw [step] at h
  cases hstage : k.stage with
  | resting => simp [hstage] at h
  | polling deadline =>
      simp only [Record.ofStep, hstage] at h ⊢
      cases htake : s.events.take? with
      | some found =>
          obtain ⟨e, events⟩ := found
          obtain ⟨rest, hwaiting, rfl⟩ := take?_eq_some htake
          simp only [htake, Option.some.injEq, Prod.mk.injEq] at h
          obtain ⟨rfl, rfl⟩ := h
          exact .note e rest drainLimit hwaiting (Or.inl ⟨deadline, hstage, rfl⟩)
      | none =>
          simp only [htake] at h
          by_cases hspent : s.events.isExhausted = true
          · simp only [hspent, if_true, Option.some.injEq, Prod.mk.injEq] at h
            obtain ⟨rfl, rfl⟩ := h
            exact .pause deadline hstage hspent
          · simp only [hspent, Bool.false_eq_true, if_false, Option.ite_none_right_eq_some,
              Option.some.injEq, Prod.mk.injEq] at h
            obtain ⟨hlate, rfl, rfl⟩ := h
            exact .sweep (Or.inl ⟨deadline, hstage, take?_eq_none htake, hlate⟩)
  | pausing deadline =>
      simp only [Record.ofStep, hstage, Option.ite_none_right_eq_some, Option.some.injEq,
        Prod.mk.injEq] at h ⊢
      obtain ⟨hlate, rfl, rfl⟩ := h
      exact .sweep (Or.inr (Or.inl ⟨deadline, hstage, hlate⟩))
  | draining left =>
      cases left with
      | zero =>
          simp only [Record.ofStep, hstage, Option.some.injEq, Prod.mk.injEq] at h ⊢
          obtain ⟨rfl, rfl⟩ := h
          exact .sweep (Or.inr (Or.inr ⟨0, hstage, Or.inl rfl⟩))
      | succ left =>
          simp only [Record.ofStep, hstage] at h ⊢
          cases htake : s.events.take? with
          | some found =>
              obtain ⟨e, events⟩ := found
              obtain ⟨rest, hwaiting, rfl⟩ := take?_eq_some htake
              simp only [htake, Option.some.injEq, Prod.mk.injEq] at h
              obtain ⟨rfl, rfl⟩ := h
              exact .note e rest left hwaiting (Or.inr hstage)
          | none =>
              simp only [htake, Option.some.injEq, Prod.mk.injEq] at h
              obtain ⟨rfl, rfl⟩ := h
              exact .sweep (Or.inr (Or.inr ⟨left + 1, hstage, Or.inr (take?_eq_none htake)⟩))
  | expiring now time keys issued =>
      simp only [hstage, Option.some.injEq] at h
      exact move_of_expireStep hstage h
  | measuring issued =>
      simp only [Record.ofStep, hstage, Option.some.injEq, Prod.mk.injEq] at h ⊢
      obtain ⟨rfl, rfl⟩ := h
      exact move_of_measure hstage
  | evicting victim issued =>
      simp only [hstage, Option.some.injEq] at h
      exact move_of_evictStep hstage h
  | settling last deadline issued =>
      cases issued with
      | nil =>
          simp only [Record.ofStep, hstage, Option.some.injEq, Prod.mk.injEq] at h ⊢
          obtain ⟨rfl, rfl⟩ := h
          cases last with
          | false => exact .turn deadline hstage
          | true => exact .finish deadline hstage
      | cons ticket issued =>
          simp only [Record.ofStep, hstage, Option.ite_none_right_eq_some, Option.some.injEq,
            Prod.mk.injEq] at h ⊢
          obtain ⟨hdone, rfl, rfl⟩ := h
          exact .settled last deadline ticket issued hstage (by simpa using hdone)

theorem ofStep_of_stuck (h : k.step listing clock s = none) : Record.ofStep s k = [] := by
  rw [step] at h
  rw [Record.ofStep]
  cases hstage : k.stage with
  | polling deadline =>
      cases htake : s.events.take? with
      | none => rfl
      | some found => simp [hstage, htake] at h
  | draining left =>
      cases left with
      | zero => simp [hstage] at h
      | succ left => cases htake : s.events.take? <;> simp [hstage, htake] at h
  | expiring now time keys issued => simp [hstage] at h
  | evicting victim issued => simp [hstage] at h
  | resting | pausing | measuring | settling => rfl

/-- A keeper that does not rest goes on once it has waited long enough. -/
theorem step_ne_none (hstage : k.stage ≠ .resting)
    (hlate : ∀ deadline, k.deadline? = some deadline → deadline ≤ clock.millis) :
    k.step listing clock s ≠ none := by
  cases hs : k.stage with
  | resting => exact absurd hs hstage
  | polling deadline =>
      have hle : deadline ≤ clock.millis := hlate deadline (by simp [deadline?, hs])
      simp only [step, hs]
      cases s.events.take? with
      | some found => simp
      | none => split_ifs <;> simp
  | pausing deadline =>
      have hle : deadline ≤ clock.millis := hlate deadline (by simp [deadline?, hs])
      simp [step, hs, hle]
  | draining left =>
      cases left with
      | zero => simp [step, hs]
      | succ left => cases htake : s.events.take? <;> simp [step, hs, htake]
  | expiring now time keys issued => simp [step, hs]
  | measuring issued => simp [step, hs]
  | evicting victim issued => simp [step, hs]
  | settling last deadline issued =>
      cases issued with
      | nil => simp [step, hs]
      | cons ticket issued =>
          have hle : deadline ≤ clock.millis := hlate deadline (by simp [deadline?, hs])
          simp [step, hs, hle]

end Keeper

end ClusterCache
