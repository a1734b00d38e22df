import ClusterCache.Proofs.Sequential
import ClusterCache.Proofs.Undisturbed

/-!
# What a pass does

Of the entries that have expired, a pass deletes those that expired first, as many as the request
queue has room for.  Of what is left it gives up the keys that come first in the order of the
policy, as many as there are too many or as the queue has room for.  Afterwards the keeper knows
exactly what is left.
-/

namespace ClusterCache

open Std

/-- The keys of the entries that have expired. -/
def Store.due (s : Store) (now : UInt64) : List String :=
  s.keys.filter fun key => s[key]?.any fun e => e.isExpired now

theorem Store.mem_due {s : Store} {now : UInt64} {key : String} :
    key ∈ s.due now ↔ ∃ e, s[key]? = some e ∧ e.expires ≤ now := by
  rw [due, List.mem_filter, mem_keys_iff]
  cases hs : s[key]? <;> simp [Entry.isExpired]

theorem Store.nodup_due (s : Store) (now : UInt64) : (s.due now).Nodup :=
  ExtTreeMap.nodup_keys.filter _

namespace Keeper

/-- Hearing of deletions of keys that it does not know changes nothing for a keeper. -/
theorem hear_deletions {k : Keeper} (hpolicy : k.policy.Sound) (hexpiry : k.expiry.Sound)
    {events : List Event}
    (hevents : ∀ e ∈ events, e.change = .delete ∧ e.key ∉ k.policy.keys ∧
      k.expiry.time? e.key = none) :
    (k.hear events).policy.keys = k.policy.keys ∧
      ∀ key, (k.hear events).expiry.time? key = k.expiry.time? key := by
  induction events generalizing k with
  | nil => exact ⟨rfl, fun _ => rfl⟩
  | cons e events ih =>
      obtain ⟨hchange, huntracked, huntimed⟩ := hevents e List.mem_cons_self
      obtain ⟨hpolicy', hexpiry'⟩ := observe_sound hpolicy hexpiry e
      have hkeys : (k.observe e).policy.keys = k.policy.keys := by
        simp only [observe, hchange]
        rw [(hpolicy.delete e.key).2, List.filter_eq_self]
        intro key hkey
        simpa using fun heq : key = e.key => huntracked (heq ▸ hkey)
      have htimes : ∀ key, (k.observe e).expiry.time? key = k.expiry.time? key := by
        intro key
        simp only [observe, hchange]
        rw [(hexpiry.remove e.key).2]
        by_cases hkey : key = e.key
        · rw [if_pos hkey, hkey, huntimed]
        · rw [if_neg hkey]
      obtain ⟨hkeys', htimes'⟩ := ih hpolicy' hexpiry' fun e' he' => by
        rw [hkeys, htimes]
        exact hevents e' (List.mem_cons_of_mem e he')
      exact ⟨hkeys'.trans hkeys, fun key => (htimes' key).trans (htimes key)⟩

end Keeper

namespace Node

variable {n m : Node} {now : UInt64} {expired evicted : List String}

theorem Expired.length_eq (h : n.Expired now expired) :
    expired.length = min n.shard.capacity (n.shard.store.due now).length := by
  obtain ⟨time, hchosen⟩ := h.chosen
  have hsub : expired ⊆ n.shard.store.due now := by
    intro key hkey
    obtain ⟨e, he, hexpires⟩ := hchosen.earlier key hkey
    exact Store.mem_due.mpr ⟨e, he, UInt64.le_trans hexpires hchosen.due⟩
  have hle := (List.subperm_of_subset hchosen.nodup hsub).length_le
  have hroom := hchosen.room
  rcases h.enough with hfull | hall
  · omega
  · have hsub' : n.shard.store.due now ⊆ expired := by
      intro key hkey
      obtain ⟨e, he, hexpires⟩ := Store.mem_due.mp hkey
      by_contra hnew
      exact absurd (UInt64.lt_of_lt_of_le (hall key hnew e he) hexpires) (UInt64.lt_irrefl _)
    have hge := (List.subperm_of_subset (n.shard.store.nodup_due now) hsub').length_le
    omega

theorem Evicted.length_eq (h : n.Evicted expired evicted) :
    evicted.length = min n.shard.capacity (n.excess expired) := by
  have hroom := h.givenUp.room
  have hneeded := h.givenUp.needed
  rcases h.enough with hfull | hall <;> omega

/-- What a pass at a second of the clock has made of a node, with the keys that it has deleted
because they had expired and those that it has given up for want of room. -/
structure PassResult (n m : Node) (now : UInt64) (expired evicted : List String) : Prop where
  due : expired.Nodup ∧ ∀ key ∈ expired, key ∈ n.shard.store.due now
  count : expired.length = min n.shard.capacity (n.shard.store.due now).length
  first : ∀ key ∈ expired, ∀ other ∈ n.shard.store.due now, other ∉ expired →
    ∀ e e', n.shard.store[key]? = some e → n.shard.store[other]? = some e' →
    e.expires ≤ e'.expires
  givenUp : evicted = (n.informed.policy.order.filter (· ∉ expired)).take
    (min n.shard.capacity (n.shard.store.size - expired.length - n.keeper.limit))
  givenUp_count : evicted.length =
    min n.shard.capacity (n.shard.store.size - expired.length - n.keeper.limit)
  store : ∀ key, m.shard.store[key]? =
    if key ∈ expired ++ evicted then none else n.shard.store[key]?
  size : m.shard.size = m.shard.store.size ∧
    m.shard.store.size + expired.length + evicted.length = n.shard.store.size
  expirations : m.shard.counters.expirations =
    n.shard.counters.expirations + expired.length
  evictions : m.shard.counters.evictions = n.shard.counters.evictions + evicted.length
  removes : m.shard.counters.removes =
    n.shard.counters.removes + expired.length + evicted.length
  others : m.shard.counters.hits = n.shard.counters.hits ∧
    m.shard.counters.misses = n.shard.counters.misses ∧
    m.shard.counters.puts = n.shard.counters.puts
  dropped : n.shard.counters.droppedEvents ≤ m.shard.counters.droppedEvents ∧
    m.shard.counters.droppedEvents ≤
      n.shard.counters.droppedEvents + expired.length + evicted.length
  order : m.keeper.policy.order = n.informed.policy.order.filter (· ∉ expired ++ evicted)
  tracks : ∀ key, m.keeper.policy.tracks key = true ↔ m.shard.store[key]? ≠ none
  indexed : ∀ key, m.keeper.expiry.time? key = m.shard.store[key]?.map (·.expires)
  queue : m.shard.queue = []
  frame : m.shard.capacity = n.shard.capacity ∧ m.shard.alive = true ∧
    m.keeper.limit = n.keeper.limit

theorem passResult_of_stages (hr : n.Ready) (hexpired : n.Expired now expired)
    (hevicted : n.Evicted expired evicted)
    (hshard : Deleting n.heard m.shard (expired ++ evicted) [])
    (hstands : n.Stands m.shard m.keeper expired evicted)
    (hstage : m.keeper.stage = .resting) : n.PassResult m now expired evicted := by
  have horder : n.informed.policy.order = n.informed.policy.keys := hr.informed_policy.order_eq
  have hpending : m.keeper.stage.pending = [] := by rw [hstage]; rfl
  have hlength : (expired ++ evicted).length = expired.length + evicted.length :=
    List.length_append
  have hdistinct : (expired ++ evicted).Nodup := by
    rw [List.nodup_append]
    refine ⟨hexpired.nodup, hevicted.givenUp.nodup hr, fun a ha b hb heq => ?_⟩
    exact (hr.mem_candidates (hevicted.givenUp.mem hb)).1 (heq ▸ ha)
  have hstored : ∀ key ∈ expired ++ evicted, n.heard.store[key]? ≠ none := by
    intro key hkey
    rcases List.mem_append.mp hkey with hkey | hkey
    · exact hexpired.stored hkey
    · exact (hr.mem_candidates (hevicted.givenUp.mem hkey)).2
  obtain ⟨time, hchosen⟩ := hexpired.chosen
  refine ⟨⟨hchosen.nodup, fun key hkey => ?_⟩, hexpired.length_eq, ?_, ?_,
    hevicted.length_eq, hshard.store,
    ⟨hshard.size, ?_⟩, hstands.expirations, hstands.evictions, ?_, hshard.others, ?_, ?_,
    fun key => ?_, fun key => ?_, hshard.queue, hshard.capacity, hshard.alive, hstands.limit⟩
  · obtain ⟨e, he, hexpires⟩ := hchosen.earlier key hkey
    exact Store.mem_due.mpr ⟨e, he, UInt64.le_trans hexpires hchosen.due⟩
  · intro key hkey other _ hother e e' he he'
    obtain ⟨e₁, he₁, hexpires⟩ := hchosen.earlier key hkey
    obtain rfl : e₁ = e := Option.some.inj (he₁.symm.trans he)
    exact UInt64.le_trans hexpires (hchosen.later other hother e' he')
  · rw [horder, ← excess, ← hevicted.length_eq, ← candidates]
    exact hevicted.givenUp.first
  · have hsize := hshard.size_add hdistinct hstored
    rw [hshard.size, hlength] at hsize
    rw [Nat.add_assoc]
    exact hsize
  · have hremoves := hshard.removes
    rw [hlength] at hremoves
    rw [Nat.add_assoc]
    exact hremoves
  · have hdropped := hshard.dropped
    rw [hlength] at hdropped
    rw [Nat.add_assoc]
    exact hdropped
  · rw [hstands.sound.policy.order_eq, horder, hstands.keys]
  · rw [hstands.sound.policy.tracks_iff, hstands.keys, List.mem_filter, hr.mem_keys]
    have hstore : m.shard.store[key]? =
        if key ∈ expired ++ evicted then none else n.shard.store[key]? := hshard.store key
    rw [hstore]
    by_cases hgone : key ∈ expired ++ evicted <;> simp [hgone]
  · have hstore : m.shard.store[key]? =
        if key ∈ expired ++ evicted then none else n.shard.store[key]? := hshard.store key
    rw [hstands.time? hpending, hstore]
    by_cases hgone : key ∈ expired ++ evicted <;> simp [hgone]

/-- If the queue had room for all of them, nothing that has expired is left, and nothing that
there is no room for. -/
theorem PassResult.complete (h : n.PassResult m now expired evicted)
    (hdue : (n.shard.store.due now).length ≤ n.shard.capacity)
    (hexcess : n.shard.store.size - (n.shard.store.due now).length - n.keeper.limit ≤
      n.shard.capacity) :
    m.shard.store.due now = [] ∧ m.shard.store.size =
      min (n.shard.store.size - (n.shard.store.due now).length) n.keeper.limit := by
  have hcount := h.count
  rw [Nat.min_eq_right hdue] at hcount
  have hgiven := h.givenUp_count
  rw [hcount, Nat.min_eq_right hexcess] at hgiven
  have hall : n.shard.store.due now ⊆ expired :=
    ((List.subperm_of_subset h.due.1 h.due.2).perm_of_length_le hcount.ge).symm.subset
  constructor
  · rw [List.eq_nil_iff_forall_not_mem]
    intro key hkey
    obtain ⟨e, he, hexpires⟩ := Store.mem_due.mp hkey
    rw [h.store] at he
    split_ifs at he with hgone
    exact hgone (List.mem_append_left _ (hall (Store.mem_due.mpr ⟨e, he, hexpires⟩)))
  · have hsize := h.size.2
    omega

/-- A pass that finds nothing to delete changes nothing. -/
theorem PassResult.idle (h : n.PassResult m now expired evicted)
    (hdue : n.shard.store.due now = []) (hroom : n.shard.store.size ≤ n.keeper.limit) :
    m.shard.store = n.shard.store ∧ m.shard.counters = n.shard.counters ∧
      m.keeper.policy.order = n.informed.policy.order := by
  have hexpired : expired = [] := by
    rw [← List.length_eq_zero_iff, h.count, hdue, List.length_nil, Nat.min_zero]
  have hevicted : evicted = [] := by
    rw [← List.length_eq_zero_iff, h.givenUp_count]
    omega
  subst hexpired hevicted
  refine ⟨ExtTreeMap.ext_getElem? fun key => ?_, ?_, ?_⟩
  · rw [h.store]
    rfl
  · obtain ⟨hhits, hmisses, hputs⟩ := h.others
    have hremoves : m.shard.counters.removes = n.shard.counters.removes := h.removes
    have hdropped : m.shard.counters.droppedEvents = n.shard.counters.droppedEvents :=
      Nat.le_antisymm h.dropped.2 h.dropped.1
    exact Counters.ext hhits hmisses hputs hremoves h.evictions h.expirations hdropped
  · rw [h.order]
    simp

theorem Passing.ready_again (hr : n.Ready) (h : n.Passing now m)
    (hstage : m.keeper.stage = .resting)
    (hwaiting : n.shard.events.waiting.length ≤ Keeper.drainLimit + 1) :
    m.Ready ∧ m.informed.policy.order = m.keeper.policy.order := by
  obtain ⟨expired, evicted, hexpired, hevicted, hshard, hstands⟩ := h.ended hstage
  have hresult := passResult_of_stages hr hexpired hevicted hshard hstands hstage
  have hpending : m.keeper.stage.pending = [] := by rw [hstage]; rfl
  have hgone : ∀ key : String, m.shard.store[key]? ≠ none → n.shard.store[key]? ≠ none := by
    intro key hstored
    rw [hresult.store] at hstored
    split_ifs at hstored with hkey
    · exact absurd rfl hstored
    · exact hstored
  -- All that waits now tells of deletions that the keeper has asked for.
  have hdeletions : ∀ e ∈ m.shard.events.waiting.take (Keeper.drainLimit + 1),
      e.change = .delete ∧ e.key ∉ m.keeper.policy.keys ∧
        m.keeper.expiry.time? e.key = none := by
    intro e he
    rcases hshard.events e (List.mem_of_mem_take he) with hold | ⟨key, hkey, rfl⟩
    · have hnil : n.heard.events.waiting = [] := List.drop_eq_nil_of_le hwaiting
      rw [hnil] at hold
      cases hold
    · refine ⟨rfl, fun hmem => ?_, ?_⟩
      · rw [hstands.keys, List.mem_filter] at hmem
        exact absurd hkey (by simpa using hmem.2)
      · rw [hstands.time? hpending, if_pos hkey]
  obtain ⟨hkeys, htimes⟩ :=
    Keeper.hear_deletions hstands.sound.policy hstands.sound.expiry hdeletions
  have hsound : m.informed.policy.Sound :=
    (Keeper.hear_sound hstands.sound.policy hstands.sound.expiry _).1
  have htickets : m.shard.tickets = n.shard.tickets + (expired ++ evicted).length :=
    hshard.tickets
  refine ⟨⟨hshard.alive, hshard.queue, hstage, hstands.sound, ⟨⟨hshard.size, ?_, ?_, ?_⟩, ?_⟩, ?_,
    fun key => ?_, fun key => ?_⟩, ?_⟩
  · exact fun key hstored => hr.named (hgone key hstored)
  · rw [hresult.queue]
    exact fun p hp => absurd hp List.not_mem_nil
  · intro t ht
    have hlater : n.heard.tickets + (expired ++ evicted).length ≤ t := htickets ▸ ht
    rw [← Bool.not_eq_true, hshard.replies t (by omega)]
    omega
  · intro t ht
    have hearlier := h.away t ht
    omega
  · intro key hstored
    have hring : m.shard.ring = n.shard.ring := hshard.ring
    rw [hring]
    exact hr.own key (hgone key hstored)
  · rw [hsound.tracks_iff, informed, hkeys, ← hstands.sound.policy.tracks_iff, hresult.tracks]
  · rw [informed, htimes, hresult.indexed]
  · rw [hsound.order_eq, informed, hkeys, hstands.sound.policy.order_eq]

/-- What an undisturbed pass does to a node that is at peace and has lost no event. -/
theorem undisturbed_pass (settings : Settings) (ring : Ring) (senders pollMs : Nat)
    (acts : List Act) (hsteady : Steady acts)
    (halive : ((make settings ring senders pollMs).run acts).shard.alive = true)
    (hkept : ∀ p ∈ Journal.offered ((make settings ring senders pollMs).journal acts),
      p.2 ≠ .full)
    (hqueue : ((make settings ring senders pollMs).run acts).shard.queue = [])
    (hstage : ((make settings ring senders pollMs).run acts).keeper.stage = .resting)
    (hwaiting : ((make settings ring senders pollMs).run acts).shard.events.waiting.length ≤
      Keeper.drainLimit + 1) (clock : Clock) :
    let n := (make settings ring senders pollMs).run acts
    let due := n.shard.store.due clock.seconds
    n.shard.capacity = max 1 settings.requestCapacity ∧
    n.keeper.limit = settings.maximumSize ∧
    n.informed.policy.order.Perm n.shard.store.keys ∧
    (∃ pass, n.Passes clock pass) ∧
    ∀ pass, n.Passes clock pass →
      (∃ expired evicted, n.PassResult (n.run pass) clock.seconds expired evicted) ∧
      (∃ again, (n.run pass).Passes clock again) ∧
      (due.length ≤ n.shard.capacity →
        n.shard.store.size - due.length - n.keeper.limit ≤ n.shard.capacity →
        (n.run pass).shard.store.due clock.seconds = [] ∧
        (n.run pass).shard.store.size = min (n.shard.store.size - due.length) n.keeper.limit ∧
        ∀ clock' again, clock'.seconds = clock.seconds → (n.run pass).Passes clock' again →
          ((n.run pass).run again).shard.store = (n.run pass).shard.store ∧
          ((n.run pass).run again).shard.counters = (n.run pass).shard.counters ∧
          ((n.run pass).run again).keeper.policy.order = (n.run pass).keeper.policy.order ∧
          ∀ key, ((n.run pass).run again).keeper.expiry.time? key =
            (n.run pass).keeper.expiry.time? key) := by
  intro n due
  have hr : n.Ready := ready_run settings ring senders pollMs hsteady halive hkept hqueue hstage
    hwaiting
  have hresult : ∀ {n' : Node} {clock' : Clock} {pass : List Act}, n'.Ready →
      n'.Passes clock' pass →
      ∃ expired evicted, n'.PassResult (n'.run pass) clock'.seconds expired evicted := by
    intro n' clock' pass hr' hpass
    have hover := hpass
    obtain ⟨_, _, _, hresting⟩ := hover
    obtain ⟨expired, evicted, hexpired, hevicted, hshard, hstands⟩ :=
      (Passing.of_passes hr' hpass).ended hresting
    exact ⟨expired, evicted, passResult_of_stages hr' hexpired hevicted hshard hstands hresting⟩
  refine ⟨(length_queue_run settings ring senders pollMs acts).1, ?_, ?_, hr.exists_pass clock,
    fun pass hpass => ?_⟩
  · exact limit_run acts
  · rw [hr.informed_policy.order_eq]
    exact hr.keys_perm
  · have hover := hpass
    obtain ⟨_, _, _, hresting⟩ := hover
    obtain ⟨hr', horder⟩ := (Passing.of_passes hr hpass).ready_again hr hresting hwaiting
    obtain ⟨expired, evicted, hpassed⟩ := hresult hr hpass
    refine ⟨⟨expired, evicted, hpassed⟩, hr'.exists_pass clock, fun hdue hexcess => ?_⟩
    obtain ⟨hnone, hsize⟩ := hpassed.complete hdue hexcess
    refine ⟨hnone, hsize, fun clock' again hclock hagain => ?_⟩
    obtain ⟨expired', evicted', hpassed'⟩ := hresult hr' hagain
    rw [hclock] at hpassed'
    have hroom : (n.run pass).shard.store.size ≤ (n.run pass).keeper.limit := by
      rw [hpassed.frame.2.2, hsize]
      exact Nat.min_le_right _ _
    obtain ⟨hstore, hcounters, horder'⟩ := hpassed'.idle hnone hroom
    refine ⟨hstore, hcounters, horder'.trans horder, fun key => ?_⟩
    rw [hpassed'.indexed, hpassed.indexed, hstore]

/-- Three entries, one of which has expired, when there is room for one. -/
theorem undisturbed_pass_of_three :
    let n := (make { maxSize := 1, headroom := 0 } (Ring.empty "n" 1) 1 0).run
      [.submit ⟨"a", .put "1" 5⟩, .submit ⟨"b", .put "2" 9⟩, .submit ⟨"c", .put "3" 9⟩,
        .work 0 false, .work 0 false, .work 0 false]
    ∃ pass, n.Passes ⟨5, 0⟩ pass ∧ (n.run pass).shard.store.due 5 = [] ∧
      (n.run pass).shard.store.size = 1 := by
  obtain ⟨_, _, _, ⟨pass, hpass⟩, hall⟩ := undisturbed_pass { maxSize := 1, headroom := 0 }
    (Ring.empty "n" 1) 1 0 [.submit ⟨"a", .put "1" 5⟩, .submit ⟨"b", .put "2" 9⟩, .submit ⟨"c", .put "3" 9⟩,
      .work 0 false, .work 0 false, .work 0 false]
    (by decide) (by decide +kernel) (by decide +kernel) (by decide +kernel) rfl
    (by decide +kernel) ⟨5, 0⟩
  obtain ⟨hnone, hsize, _⟩ := (hall pass hpass).2.2 (by decide +kernel) (by decide +kernel)
  exact ⟨pass, hpass, hnone, hsize.trans (by decide +kernel)⟩

end Node

end ClusterCache
