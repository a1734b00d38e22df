import ClusterCache.Proofs.Deletions
import ClusterCache.Proofs.Hearing

/-!
# One pass

A pass that nobody disturbs goes through five stages: the keeper hears the events that wait, has
the expired keys deleted, waits, has the keys deleted that there is no room for, and waits again.
What holds at each stage is said in terms of the node before the pass, so that at the end it is
known to the last key what the pass has done.
-/

namespace ClusterCache.Node

open Std

/-! ## What is chosen -/

/-- Stored keys chosen because they expire by a time, none of the others earlier. -/
structure Chosen (n : Node) (now time : UInt64) (keys : List String) : Prop where
  due : time ≤ now
  nodup : keys.Nodup
  earlier : ∀ key ∈ keys, ∃ e, n.shard.store[key]? = some e ∧ e.expires ≤ time
  later : ∀ key, key ∉ keys → ∀ e, n.shard.store[key]? = some e → time ≤ e.expires
  room : keys.length ≤ n.shard.capacity

/-- Nothing more can be deleted because it has expired: the queue is full or nothing is left. -/
structure Expired (n : Node) (now : UInt64) (keys : List String) : Prop where
  chosen : ∃ time, n.Chosen now time keys
  enough : keys.length = n.shard.capacity ∨
    ∀ key, key ∉ keys → ∀ e, n.shard.store[key]? = some e → now < e.expires

/-- The keys that the policy would give up, once those that have expired are gone. -/
def candidates (n : Node) (expired : List String) : List String :=
  n.informed.policy.keys.filter (· ∉ expired)

/-- How many entries there are too many. -/
def excess (n : Node) (expired : List String) : Nat :=
  n.shard.store.size - expired.length - n.keeper.limit

/-- Keys chosen because there is no room for them. -/
structure GivenUp (n : Node) (expired evicted : List String) : Prop where
  first : evicted = (n.candidates expired).take evicted.length
  room : evicted.length ≤ n.shard.capacity
  needed : evicted.length ≤ n.excess expired

/-- Nothing more can be given up: the queue is full or there is room for the rest. -/
structure Evicted (n : Node) (expired evicted : List String) : Prop where
  givenUp : n.GivenUp expired evicted
  enough : evicted.length = n.shard.capacity ∨ n.excess expired ≤ evicted.length

section Chosen

variable {n : Node} {now time : UInt64} {expired evicted : List String}

theorem Chosen.stored (h : n.Chosen now time expired) {key : String} (hkey : key ∈ expired) :
    n.shard.store[key]? ≠ none := by
  obtain ⟨e, he, _⟩ := h.earlier key hkey
  simp [he]

theorem Expired.nodup (h : n.Expired now expired) : expired.Nodup := by
  obtain ⟨time, hchosen⟩ := h.chosen
  exact hchosen.nodup

theorem Expired.stored (h : n.Expired now expired) {key : String} (hkey : key ∈ expired) :
    n.shard.store[key]? ≠ none := by
  obtain ⟨time, hchosen⟩ := h.chosen
  exact hchosen.stored hkey

theorem Ready.informed_policy (hr : n.Ready) : n.informed.policy.Sound :=
  (Keeper.hear_sound hr.sound.policy hr.sound.expiry _).1

theorem Ready.mem_keys (hr : n.Ready) {key : String} :
    key ∈ n.informed.policy.keys ↔ n.shard.store[key]? ≠ none := by
  rw [← hr.informed_policy.tracks_iff, hr.tracks]

theorem Ready.keys_perm (hr : n.Ready) : n.informed.policy.keys.Perm n.shard.store.keys := by
  rw [List.perm_ext_iff_of_nodup hr.informed_policy.nodup_keys ExtTreeMap.nodup_keys]
  intro key
  rw [hr.mem_keys, mem_keys_iff]

theorem Ready.nodup_candidates (hr : n.Ready) (expired : List String) :
    (n.candidates expired).Nodup :=
  hr.informed_policy.nodup_keys.filter _

theorem Ready.length_candidates (hr : n.Ready) (h : n.Expired now expired) :
    (n.candidates expired).length + expired.length = n.shard.store.size := by
  rw [← ExtTreeMap.length_keys, ← hr.keys_perm.length_eq]
  exact length_filter_not_mem hr.informed_policy.nodup_keys h.nodup
    fun key hkey => hr.mem_keys.mpr (h.stored hkey)

theorem Ready.mem_candidates (hr : n.Ready) {key : String}
    (hkey : key ∈ n.candidates expired) : key ∉ expired ∧ n.shard.store[key]? ≠ none := by
  obtain ⟨hmem, hnew⟩ := List.mem_filter.mp hkey
  exact ⟨by simpa using hnew, hr.mem_keys.mp hmem⟩

theorem GivenUp.mem (h : n.GivenUp expired evicted) {key : String} (hkey : key ∈ evicted) :
    key ∈ n.candidates expired := by
  rw [h.first] at hkey
  exact List.mem_of_mem_take hkey

theorem GivenUp.nodup (h : n.GivenUp expired evicted) (hr : n.Ready) : evicted.Nodup := by
  rw [h.first]
  exact (hr.nodup_candidates expired).sublist (List.take_sublist _ _)

theorem GivenUp.left (h : n.GivenUp expired evicted) (hr : n.Ready) :
    n.informed.policy.keys.filter (· ∉ expired ++ evicted) =
      (n.candidates expired).drop evicted.length := by
  rw [filter_not_mem_append]
  conv_lhs => rw [h.first]
  exact filter_not_mem_take (hr.nodup_candidates expired) _

theorem Chosen.add (h : n.Chosen now time expired) {key : String} {e : Entry}
    (hnew : key ∉ expired) (hstored : n.shard.store[key]? = some e) (htime : e.expires = time)
    (hroom : expired.length < n.shard.capacity) : n.Chosen now time (expired ++ [key]) := by
  refine ⟨h.due, ?_, fun k hk => ?_, fun k hk => ?_, ?_⟩
  · rw [List.nodup_append]
    refine ⟨h.nodup, List.nodup_singleton key, fun a ha b hb heq => hnew ?_⟩
    rwa [← List.mem_singleton.mp hb, ← heq]
  · rcases List.mem_append.mp hk with hk | hk
    · exact h.earlier k hk
    · rw [List.mem_singleton.mp hk]
      exact ⟨e, hstored, htime ▸ UInt64.le_refl _⟩
  · exact h.later k fun hmem => hk (List.mem_append_left _ hmem)
  · rw [List.length_append, List.length_singleton]
    exact hroom

theorem GivenUp.add (h : n.GivenUp expired evicted) {key : String}
    (hkey : ((n.candidates expired).drop evicted.length).head? = some key)
    (hroom : evicted.length < n.shard.capacity) (hneeded : evicted.length < n.excess expired) :
    n.GivenUp expired (evicted ++ [key]) := by
  rw [List.head?_drop] at hkey
  refine ⟨?_, ?_, ?_⟩
  · rw [List.length_append, List.length_singleton, List.take_add_one, hkey, ← h.first]
    rfl
  · rw [List.length_append, List.length_singleton]
    exact hroom
  · rw [List.length_append, List.length_singleton]
    exact hneeded

end Chosen

/-! ## How far a pass has come -/

/-- What the keeper knows when keys have been given up, and how they have been counted. -/
structure Stands (n : Node) (s : Shard) (k : Keeper) (expired evicted : List String) : Prop where
  sound : k.Sound
  limit : k.limit = n.keeper.limit
  keys : k.policy.keys = n.informed.policy.keys.filter (· ∉ expired ++ evicted)
  indexed : ∀ key, k.indexed key =
    if key ∈ expired ++ evicted then none else n.shard.store[key]?.map (·.expires)
  expirations : s.counters.expirations = n.shard.counters.expirations + expired.length
  evictions : s.counters.evictions = n.shard.counters.evictions + evicted.length

/-- The keeper is to hear at most `budget` more events, and knows then what it was to know. -/
structure Hearing (n : Node) (s : Shard) (k : Keeper) (budget : Nat) : Prop where
  stage : k.stage.budget? = some budget
  shard : Deleting n.shard s [] []
  sound : k.Sound
  limit : k.limit = n.keeper.limit
  expirations : s.counters.expirations = n.shard.counters.expirations
  evictions : s.counters.evictions = n.shard.counters.evictions
  unheard : s.events.waiting.drop budget = n.shard.events.waiting.drop (Keeper.drainLimit + 1)
  policy : (k.hear (s.events.waiting.take budget)).policy = n.informed.policy
  expiry : (k.hear (s.events.waiting.take budget)).expiry = n.informed.expiry

/-- The shard without the events that a pass hears. -/
def heard (n : Node) : Shard :=
  { n.shard with events := { n.shard.events with
      waiting := n.shard.events.waiting.drop (Keeper.drainLimit + 1) } }

/-- How far a pass at a second of the clock has come. -/
inductive Phase (n : Node) (now : UInt64) (s : Shard) (k : Keeper) : Prop where
  | hearing (budget : Nat) (hhearing : n.Hearing s k budget)
  | expiring (time : UInt64) (keys expired : List String)
      (hstage : k.stage =
        .expiring now time keys (List.range' n.shard.tickets expired.length))
      (hchosen : n.Chosen now time expired) (hshard : Deleting n.heard s [] expired)
      (hstands : n.Stands s k expired [])
  | settling (deadline : Nat) (waited : List Nat) (expired : List String)
      (hstage : k.stage = .settling false deadline waited) (hexpired : n.Expired now expired)
      (hshard : Settling n.heard s expired waited) (hstands : n.Stands s k expired [])
  | evicting (b : Shard) (expired evicted : List String)
      (hstage : k.stage = .measuring (List.range' b.tickets evicted.length) ∨
        ∃ victim, k.stage = .evicting victim (List.range' b.tickets evicted.length) ∧
          k.policy.keys.head? = some victim ∧ evicted.length < n.excess expired)
      (hexpired : n.Expired now expired) (hdone : Deleting n.heard b expired [])
      (hgiven : n.GivenUp expired evicted) (hshard : Deleting b s [] evicted)
      (hstands : n.Stands s k expired evicted)
  | finishing (b : Shard) (deadline : Nat) (waited : List Nat) (expired evicted : List String)
      (hstage : k.stage = .settling true deadline waited) (hexpired : n.Expired now expired)
      (hdone : Deleting n.heard b expired []) (hevicted : n.Evicted expired evicted)
      (hshard : Settling b s evicted waited) (hstands : n.Stands s k expired evicted)
  | ended (expired evicted : List String) (hstage : k.stage = .resting)
      (hexpired : n.Expired now expired) (hevicted : n.Evicted expired evicted)
      (hshard : Deleting n.heard s (expired ++ evicted) [])
      (hstands : n.Stands s k expired evicted)

section Phase

variable {n : Node} {now : UInt64} {listing : Listing} {clock : Clock} {s s' : Shard}
  {k k' : Keeper} {rs : Journal} {expired evicted : List String}

theorem Stands.frame (h : n.Stands s k expired evicted) (hsound : k'.Sound)
    (hlimit : k'.limit = k.limit) (hpolicy : k'.policy = k.policy)
    (hindexed : ∀ key, k'.indexed key = k.indexed key)
    (hcounters : s'.counters.expirations = s.counters.expirations ∧
      s'.counters.evictions = s.counters.evictions) : n.Stands s' k' expired evicted := by
  refine ⟨hsound, hlimit.trans h.limit, ?_, fun key => ?_, ?_, ?_⟩
  · rw [hpolicy]
    exact h.keys
  · rw [hindexed]
    exact h.indexed key
  · rw [hcounters.1]
    exact h.expirations
  · rw [hcounters.2]
    exact h.evictions

/-- Going on to another stage without a bucket in hand. -/
theorem Stands.stage (h : n.Stands s k expired evicted) (hpending : k.stage.pending = [])
    {stage : Stage} {gauges : Gauges} (hsound : Keeper.Sound { k with stage, gauges })
    (hpending' : stage.pending = []) : n.Stands s { k with stage, gauges } expired evicted := by
  refine h.frame hsound rfl rfl (fun key => ?_) ⟨rfl, rfl⟩
  rw [Keeper.indexed_of_pending hpending, Keeper.indexed_of_pending hpending']

/-- A key of the bucket at hand has not been given up yet. -/
theorem Stands.pending (h : n.Stands s k expired evicted) {time : UInt64} {key : String}
    {rest : List String} {issued : List Nat}
    (hstage : k.stage = .expiring now time (key :: rest) issued) :
    key ∉ expired ++ evicted ∧ ∃ e, n.shard.store[key]? = some e ∧ e.expires = time := by
  have htime := h.indexed key
  have hheld : k.indexed key = some time := by simp [Keeper.indexed, hstage, Stage.held?]
  rw [hheld] at htime
  by_cases hgone : key ∈ expired ++ evicted
  · rw [if_pos hgone] at htime
    cases htime
  · rw [if_neg hgone] at htime
    obtain ⟨e, he, hexpires⟩ := Option.map_eq_some_iff.mp htime.symm
    exact ⟨hgone, e, he, hexpires⟩

/-- A stored key that has not been given up is in the index, and no other key is. -/
theorem Stands.time? (h : n.Stands s k expired evicted) (hpending : k.stage.pending = [])
    (key : String) : k.expiry.time? key =
      if key ∈ expired ++ evicted then none else n.shard.store[key]?.map (·.expires) := by
  rw [← h.indexed, Keeper.indexed_of_pending hpending]

/-- The earliest bucket is not empty, and none of its keys has been given up. -/
theorem Chosen.le_earliest {time time' : UInt64} {bucket : ExtTreeSet String}
    (hchosen : n.Chosen now time expired) (h : n.Stands s k expired [])
    (hpending : k.stage.pending = []) (hearliest : k.expiry.earliest? = some (time', bucket)) :
    time ≤ time' := by
  obtain ⟨key, hkey⟩ := h.sound.expiry.exists_mem_earliest? hearliest
  have htime := h.time? hpending key
  rw [(h.sound.expiry.earliest?_mem hearliest key).mp hkey, List.append_nil] at htime
  by_cases hgone : key ∈ expired
  · rw [if_pos hgone] at htime
    cases htime
  · rw [if_neg hgone] at htime
    obtain ⟨e, he, hexpires⟩ := Option.map_eq_some_iff.mp htime.symm
    exact hexpires ▸ hchosen.later key hgone e he

/-- If the earliest bucket has not expired, no entry has whose key has not been given up. -/
theorem Stands.lt_of_earliest (h : n.Stands s k expired []) (hpending : k.stage.pending = [])
    (hnone : ∀ (time : UInt64) (bucket : ExtTreeSet String),
      k.expiry.earliest? = some (time, bucket) → now < time) {key : String}
    (hkey : key ∉ expired) (e : Entry) (hstored : n.shard.store[key]? = some e) :
    now < e.expires := by
  have htime := h.time? hpending key
  rw [List.append_nil, if_neg hkey, hstored, Option.map_some] at htime
  cases hearliest : k.expiry.earliest? with
  | none =>
      rw [h.sound.expiry.earliest?_eq_none hearliest] at htime
      cases htime
  | some found =>
      exact UInt64.lt_of_lt_of_le (hnone found.1 found.2 hearliest)
        (h.sound.expiry.earliest?_le hearliest htime)

theorem Stands.forget (h : n.Stands s k expired evicted) {key : String} (hsound : k'.Sound)
    (hlimit : k'.limit = k.limit) (hpolicy : k'.policy = k.policy.delete key)
    (hindexed : ∀ other, k'.indexed other = if other = key then none else k.indexed other)
    {expired' evicted' : List String} (hgone : expired' ++ evicted' = expired ++ evicted ++ [key])
    (hexpirations : s'.counters.expirations = n.shard.counters.expirations + expired'.length)
    (hevictions : s'.counters.evictions = n.shard.counters.evictions + evicted'.length) :
    n.Stands s' k' expired' evicted' := by
  refine ⟨hsound, hlimit.trans h.limit, ?_, fun other => ?_, hexpirations, hevictions⟩
  · rw [hpolicy, (h.sound.policy.delete key).2, h.keys, hgone,
      filter_not_mem_append _ (expired ++ evicted) [key]]
    exact List.filter_congr fun x _ => by simp
  · rw [hindexed, h.indexed]
    simp only [hgone, List.mem_append (s := expired ++ evicted), List.mem_singleton]
    by_cases hkey : other = key <;> simp [hkey]

/-- Hearing goes on until no event is left that the pass is to hear. -/
theorem Hearing.keep {budget : Nat} (hr : n.Ready) (h : n.Hearing s k budget)
    (hmove : Keeper.Move listing clock s k rs s' k') (hclock : clock.seconds = now) :
    n.Phase now s' k' := by
  have hsound := hmove.sound h.sound
  have hd := h.shard
  rcases hmove.of_hearing h.stage with ⟨e, rest, left, rfl, hwaiting, rfl, rfl⟩ |
    ⟨hnil, rfl, rfl⟩ | ⟨hnone, rfl, rfl⟩
  · have hunheard := h.unheard
    have hpolicy := h.policy
    have hexpiry := h.expiry
    rw [hwaiting, List.take_succ_cons, Keeper.hear_cons] at hpolicy hexpiry
    rw [hwaiting, List.drop_succ_cons] at hunheard
    refine .hearing left ⟨rfl, ?_, hsound, ?_, h.expirations, h.evictions, hunheard, ?_, ?_⟩
    · exact hd.take_events _ _ fun e' he' =>
        hd.events e' (hwaiting ▸ List.mem_cons_of_mem e he')
    · exact (Keeper.observe_limit k e).trans h.limit
    · rw [Keeper.hear_with]
      exact hpolicy
    · rw [Keeper.hear_with]
      exact hexpiry
  · have hunheard := h.unheard
    have hpolicy := h.policy
    have hexpiry := h.expiry
    rw [hnil, List.take_nil] at hpolicy hexpiry
    rw [hnil, List.drop_nil] at hunheard
    refine .hearing 0 ⟨rfl, hd, hsound, h.limit, h.expirations, h.evictions, ?_, ?_, ?_⟩
    · rw [hnil]
      exact hunheard
    · exact hpolicy
    · exact hexpiry
  -- The sweep starts with what has been heard, and no key has been given up.
  · have hunheard := h.unheard
    have hpolicy := h.policy
    have hexpiry := h.expiry
    rw [hnone, Keeper.hear_nil] at hpolicy hexpiry
    have hleft : s'.events.waiting.drop budget = s'.events.waiting := by
      conv_rhs => rw [← List.take_append_drop budget s'.events.waiting, hnone, List.nil_append]
    rw [hleft] at hunheard
    subst hclock
    refine .expiring 0 [] [] rfl ⟨UInt64.zero_le, List.nodup_nil, ?_, ?_, Nat.zero_le _⟩ ?_ ?_
    · exact fun key hkey => absurd hkey List.not_mem_nil
    · exact fun key _ e _ => UInt64.zero_le
    · exact hd.take_events _ _ fun e he => Or.inl (hunheard ▸ he)
    · refine ⟨hsound, h.limit, ?_, fun key => ?_, h.expirations, h.evictions⟩
      · rw [← hpolicy]
        simp [Keeper.sweep]
      · rw [Keeper.indexed_of_pending rfl, ← hr.indexed, ← hexpiry]
        simp [Keeper.sweep]

theorem Ready.named (hr : n.Ready) {key : String} (hstored : n.shard.store[key]? ≠ none) :
    key ≠ "" :=
  hr.tidy.shard.named key hstored

theorem Phase.expire {time : UInt64} {keys : List String} (hr : n.Ready)
    (hmove : Keeper.Move listing clock s k rs s' k')
    (hstage : k.stage = .expiring now time keys (List.range' n.shard.tickets expired.length))
    (hchosen : n.Chosen now time expired) (hshard : Deleting n.heard s [] expired)
    (hstands : n.Stands s k expired []) : n.Phase now s' k' := by
  have hsound := hmove.sound hstands.sound
  have hcapacity : s.capacity = n.shard.capacity := hshard.capacity
  rcases hmove.of_expiring hstage with ⟨time', bucket, x, rfl, hearliest, hpoll, hdue, rfl, rfl⟩ |
    ⟨rfl, hnone, rfl, rfl⟩ | ⟨key, rest, rfl, hnone, rfl, rfl⟩ |
    ⟨key, rest, failure, rfl, hrefusal, rfl, rfl⟩
  · have hpending : k.stage.pending = [] := by rw [hstage]; rfl
    have hlater := hchosen.le_earliest hstands hpending hearliest
    refine .expiring time' _ expired rfl ⟨hdue, hchosen.nodup, fun key hkey => ?_,
      fun key hkey e he => ?_, hchosen.room⟩ hshard ?_
    · obtain ⟨e, he, hexpires⟩ := hchosen.earlier key hkey
      exact ⟨e, he, UInt64.le_trans hexpires hlater⟩
    · apply hstands.sound.expiry.earliest?_le hearliest
      rw [hstands.time? hpending, List.append_nil, if_neg hkey, he]
      rfl
    · exact hstands.frame hsound rfl rfl
        (Keeper.indexed_bucket hstands.sound hpending hearliest hpoll listing now _) ⟨rfl, rfl⟩
  · have hpending : k.stage.pending = [] := by rw [hstage]; rfl
    exact .settling _ _ expired rfl
      ⟨⟨time, hchosen⟩, Or.inr fun key => hstands.lt_of_earliest hpending hnone⟩
      hshard.settling (hstands.stage hpending hsound rfl)
  · obtain ⟨hnew, e, hstored, htime⟩ := hstands.pending hstage
    rw [List.append_nil] at hnew
    have hroom := (Shard.refusal?_eq_none hnone).2.2
    rw [hshard.length_queue, hcapacity] at hroom
    have htickets : s.tickets = n.shard.tickets + expired.length := hshard.tickets
    refine .expiring time rest (expired ++ [key]) ?_ (hchosen.add hnew hstored htime hroom)
      (hshard.enqueue _ rfl ⟨rfl, rfl, rfl⟩ rfl) (hstands.forget hsound rfl rfl
        (Keeper.indexed_expire hstands.sound hstage _ _) ?_ ?_ hstands.evictions)
    · simp only [List.length_append, List.length_singleton, List.range'_concat, htickets,
        Nat.one_mul]
    · rw [List.append_nil, List.append_nil]
    · rw [List.length_append, List.length_singleton, ← Nat.add_assoc, ← hstands.expirations]
      rfl
  · obtain ⟨hnew, e, hstored, htime⟩ := hstands.pending hstage
    have hfull := Shard.full_of_refusal? (hr.named (by simp [hstored])) hshard.alive hrefusal
    rw [hshard.length_queue, hcapacity] at hfull
    refine .settling _ _ expired rfl ⟨⟨time, hchosen⟩, Or.inl ?_⟩ hshard.settling ?_
    · exact Nat.le_antisymm hchosen.room hfull
    · exact hstands.frame hsound rfl rfl (Keeper.indexed_restore hstands.sound hstage _ _)
        ⟨rfl, rfl⟩

theorem Phase.settle {deadline : Nat} {waited : List Nat} (h : Settling n.heard s expired waited)
    (hmove : Keeper.Move listing clock s k rs s' k')
    (hstage : k.stage = .settling false deadline waited)
    (hpatient : ∀ ticket rest, waited = ticket :: rest → deadline ≤ clock.millis →
      s.replies.contains ticket = true)
    (hexpired : n.Expired now expired) (hstands : n.Stands s k expired []) : n.Phase now s' k' := by
  have hsound := hmove.sound hstands.sound
  have hpending : k.stage.pending = [] := by rw [hstage]; rfl
  obtain ⟨rfl, hsettled | hturn⟩ := hmove.of_settling hstage
  · obtain ⟨ticket, rest, rfl, hdone, rfl⟩ := hsettled
    have hreply := hdone.elim id (hpatient ticket rest rfl)
    exact .settling _ rest expired rfl hexpired (h.pass hreply) (hstands.stage hpending hsound rfl)
  · obtain ⟨rfl, rfl⟩ := hturn
    have hover := h.ended
    exact .evicting s' expired [] (Or.inl rfl) hexpired hover
      ⟨rfl, Nat.zero_le _, Nat.zero_le _⟩ hover.again (hstands.stage hpending hsound rfl)

theorem size_of_batches {b : Shard} (hexpired : n.Expired now expired)
    (hdone : Deleting n.heard b expired []) (hshard : Deleting b s [] evicted) :
    s.size + expired.length = n.shard.store.size := by
  have hsize := hshard.size_add List.nodup_nil fun key hkey => absurd hkey List.not_mem_nil
  have hsize' : b.size + expired.length = n.shard.store.size :=
    hdone.size_add hexpired.nodup fun key hkey => hexpired.stored hkey
  rw [hdone.size, ← hsize] at hsize'
  exact hsize'

theorem Phase.measure {b : Shard} (hr : n.Ready) (hmove : Keeper.Move listing clock s k rs s' k')
    (hstage : k.stage = .measuring (List.range' b.tickets evicted.length))
    (hexpired : n.Expired now expired) (hdone : Deleting n.heard b expired [])
    (hgiven : n.GivenUp expired evicted) (hshard : Deleting b s [] evicted)
    (hstands : n.Stands s k expired evicted) : n.Phase now s' k' := by
  have hsound := hmove.sound hstands.sound
  have hpending : k.stage.pending = [] := by rw [hstage]; rfl
  have hsize := size_of_batches hexpired hdone hshard
  have hover : k.limit < s.size - (List.range' b.tickets evicted.length).length ↔
      evicted.length < n.excess expired := by
    rw [excess, hstands.limit, List.length_range']
    omega
  have hvictim : k.policy.victim? = ((n.candidates expired).drop evicted.length).head? := by
    rw [hstands.sound.policy.victim?_eq, hstands.keys, hgiven.left hr]
  obtain ⟨rfl, hchoose | hmeasured⟩ := hmove.of_measuring hstage
  · obtain ⟨victim, hlarge, hchosen, rfl⟩ := hchoose
    rw [hstands.sound.policy.victim?_eq] at hchosen
    exact .evicting b expired evicted (Or.inr ⟨victim, rfl, hchosen, hover.mp hlarge⟩) hexpired
      hdone hgiven hshard (hstands.stage hpending hsound rfl)
  · obtain ⟨henough, rfl⟩ := hmeasured
    refine .finishing b _ _ expired evicted rfl hexpired hdone ⟨hgiven, Or.inr ?_⟩
      hshard.settling (hstands.stage hpending hsound rfl)
    -- There is a candidate left as long as there is an entry too many.
    by_contra hlarge
    have hlength := hr.length_candidates hexpired
    have hnone := henough (hover.mpr (by omega))
    rw [hvictim, List.head?_eq_none_iff, List.drop_eq_nil_iff] at hnone
    rw [excess] at hlarge
    omega

theorem Phase.evict {b : Shard} {victim : String} (hr : n.Ready)
    (hmove : Keeper.Move listing clock s k rs s' k')
    (hstage : k.stage = .evicting victim (List.range' b.tickets evicted.length))
    (hvictim : k.policy.keys.head? = some victim) (hlarge : evicted.length < n.excess expired)
    (hexpired : n.Expired now expired) (hdone : Deleting n.heard b expired [])
    (hgiven : n.GivenUp expired evicted) (hshard : Deleting b s [] evicted)
    (hstands : n.Stands s k expired evicted) : n.Phase now s' k' := by
  have hsound := hmove.sound hstands.sound
  have hpending : k.stage.pending = [] := by rw [hstage]; rfl
  have hcapacity : s.capacity = n.shard.capacity := hshard.capacity.trans hdone.capacity
  rw [hstands.keys, hgiven.left hr] at hvictim
  rcases hmove.of_evicting hstage with ⟨hnone, rfl, rfl⟩ | ⟨failure, hrefusal, rfl, rfl⟩
  · have hroom := (Shard.refusal?_eq_none hnone).2.2
    rw [hshard.length_queue, hcapacity] at hroom
    have htickets : s.tickets = b.tickets + evicted.length := hshard.tickets
    refine .evicting b expired (evicted ++ [victim]) (Or.inl ?_) hexpired hdone
      (hgiven.add hvictim hroom hlarge) (hshard.enqueue _ rfl ⟨rfl, rfl, rfl⟩ rfl)
      (hstands.forget hsound rfl rfl (Keeper.indexed_evict hstands.sound hpending _ _ _) ?_
        hstands.expirations ?_)
    · simp only [List.length_append, List.length_singleton, List.range'_concat, htickets,
        Nat.one_mul]
    · rw [List.append_assoc]
    · rw [List.length_append, List.length_singleton, ← Nat.add_assoc, ← hstands.evictions]
      rfl
  · have hcandidate := hr.mem_candidates
      (List.mem_of_mem_drop (List.mem_of_head? hvictim))
    have hfull := Shard.full_of_refusal? (hr.named hcandidate.2) hshard.alive hrefusal
    rw [hshard.length_queue, hcapacity] at hfull
    exact .finishing b _ _ expired evicted rfl hexpired hdone
      ⟨hgiven, Or.inl (Nat.le_antisymm hgiven.room hfull)⟩ hshard.settling
      (hstands.stage hpending hsound rfl)

theorem Phase.finish {b : Shard} {deadline : Nat} {waited : List Nat}
    (h : Settling b s evicted waited) (hmove : Keeper.Move listing clock s k rs s' k')
    (hstage : k.stage = .settling true deadline waited)
    (hpatient : ∀ ticket rest, waited = ticket :: rest → deadline ≤ clock.millis →
      s.replies.contains ticket = true)
    (hexpired : n.Expired now expired) (hdone : Deleting n.heard b expired [])
    (hevicted : n.Evicted expired evicted) (hstands : n.Stands s k expired evicted) :
    n.Phase now s' k' := by
  have hsound := hmove.sound hstands.sound
  have hpending : k.stage.pending = [] := by rw [hstage]; rfl
  obtain ⟨rfl, hsettled | hover⟩ := hmove.of_settling hstage
  · obtain ⟨ticket, rest, rfl, hready, rfl⟩ := hsettled
    have hreply := hready.elim id (hpatient ticket rest rfl)
    exact .finishing b _ rest expired evicted rfl hexpired hdone hevicted (h.pass hreply)
      (hstands.stage hpending hsound rfl)
  · obtain ⟨rfl, rfl⟩ := hover
    exact .ended expired evicted rfl hexpired hevicted (hdone.trans h.ended)
      (hstands.stage hpending hsound rfl)

theorem Phase.keep (h : n.Phase now s k) (hr : n.Ready)
    (hmove : Keeper.Move listing clock s k rs s' k') (hclock : clock.seconds = now)
    (hpatient : ∀ last deadline ticket rest, k.stage = .settling last deadline (ticket :: rest) →
      deadline ≤ clock.millis → s.replies.contains ticket = true) : n.Phase now s' k' := by
  cases h with
  | hearing budget hhearing => exact hhearing.keep hr hmove hclock
  | expiring time keys expired hstage hchosen hshard hstands =>
      exact Phase.expire hr hmove hstage hchosen hshard hstands
  | settling deadline waited expired hstage hexpired hshard hstands =>
      refine Phase.settle hshard hmove hstage (fun ticket rest heq => ?_) hexpired hstands
      exact hpatient false deadline ticket rest (heq ▸ hstage)
  | evicting b expired evicted hstage hexpired hdone hgiven hshard hstands =>
      rcases hstage with hstage | ⟨victim, hstage, hvictim, hlarge⟩
      · exact Phase.measure hr hmove hstage hexpired hdone hgiven hshard hstands
      · exact Phase.evict hr hmove hstage hvictim hlarge hexpired hdone hgiven hshard hstands
  | finishing b deadline waited expired evicted hstage hexpired hdone hevicted hshard hstands =>
      refine Phase.finish hshard hmove hstage (fun ticket rest heq => ?_) hexpired hdone hevicted
        hstands
      exact hpatient true deadline ticket rest (heq ▸ hstage)
  | ended expired evicted hstage hexpired hevicted hshard hstands =>
      exact absurd hstage hmove.stage_ne_resting

theorem Phase.answer (h : n.Phase now s k) {ticket : Nat} (hearlier : ticket < n.shard.tickets)
    (reply : Reply) : n.Phase now (s.answer ticket reply) k := by
  have hstands : ∀ {expired evicted}, n.Stands s k expired evicted →
      n.Stands (s.answer ticket reply) k expired evicted := fun hstands =>
    hstands.frame hstands.sound rfl rfl (fun _ => rfl) ⟨rfl, rfl⟩
  have hlater : ∀ {b : Shard} {expired : List String}, Deleting n.heard b expired [] →
      ticket < b.tickets := by
    intro b expired hdone
    have htickets : b.tickets = n.shard.tickets + expired.length := hdone.tickets
    omega
  cases h with
  | hearing budget h =>
      exact .hearing budget ⟨h.stage, h.shard.answer hearlier reply, h.sound, h.limit,
        h.expirations, h.evictions, h.unheard, h.policy, h.expiry⟩
  | expiring time keys expired hstage hchosen hshard hstands' =>
      exact .expiring time keys expired hstage hchosen (hshard.answer hearlier reply)
        (hstands hstands')
  | settling deadline waited expired hstage hexpired hshard hstands' =>
      exact .settling deadline waited expired hstage hexpired (hshard.answer hearlier reply)
        (hstands hstands')
  | evicting b expired evicted hstage hexpired hdone hgiven hshard hstands' =>
      exact .evicting b expired evicted hstage hexpired hdone hgiven
        (hshard.answer (hlater hdone) reply) (hstands hstands')
  | finishing b deadline waited expired evicted hstage hexpired hdone hevicted hshard hstands' =>
      exact .finishing b deadline waited expired evicted hstage hexpired hdone hevicted
        (hshard.answer (hlater hdone) reply) (hstands hstands')
  | ended expired evicted hstage hexpired hevicted hshard hstands' =>
      exact .ended expired evicted hstage hexpired hevicted (hshard.answer hearlier reply)
        (hstands hstands')

theorem Phase.sound (h : n.Phase now s k) : k.Sound := by
  cases h with
  | hearing budget h => exact h.sound
  | expiring time keys expired hstage hchosen hshard hstands => exact hstands.sound
  | settling deadline waited expired hstage hexpired hshard hstands => exact hstands.sound
  | evicting b expired evicted hstage hexpired hdone hgiven hshard hstands => exact hstands.sound
  | finishing b deadline waited expired evicted hstage hexpired hdone hevicted hshard hstands =>
      exact hstands.sound
  | ended expired evicted hstage hexpired hevicted hshard hstands => exact hstands.sound

/-- A keeper that waits for a deletion waits for one that the worker has still to execute. -/
theorem Phase.queue_ne_nil (h : n.Phase now s k) {last : Bool} {deadline ticket : Nat}
    {waited : List Nat} (hstage : k.stage = .settling last deadline (ticket :: waited))
    (hreply : s.replies.contains ticket = false) : s.queue ≠ [] := by
  cases h with
  | settling deadline' waited' expired hstage' hexpired hshard hstands =>
      obtain ⟨rfl, rfl, rfl⟩ := Stage.settling.inj (hstage.symm.trans hstage')
      exact hshard.queue_ne_nil hreply
  | finishing b deadline' waited' expired evicted hstage' hexpired hdone hevicted hshard hstands =>
      obtain ⟨rfl, rfl, rfl⟩ := Stage.settling.inj (hstage.symm.trans hstage')
      exact hshard.queue_ne_nil hreply
  | hearing budget h =>
      have hbudget := h.stage
      rw [hstage] at hbudget
      cases hbudget
  | evicting b expired evicted hstage' => rcases hstage' with hstage' | ⟨_, hstage', _⟩ <;> simp_all
  | _ => simp_all

/-- While the keeper waits, the worker does what it waits for. -/
theorem Phase.work (h : n.Phase now s k) (hr : n.Ready) {last : Bool} {deadline : Nat}
    {waited : List Nat} (hstage : k.stage = .settling last deadline waited) (time : UInt64) :
    ∃ s', s.work time = (s', none) ∧ n.Phase now s' k ∧
      (s.queue ≠ [] → s'.queue.length < s.queue.length) := by
  cases h with
  | settling deadline waited expired hstage hexpired hshard hstands =>
      obtain ⟨s', hwork, hshard', hexpirations, hevictions, hshorter⟩ :=
        hshard.work time hexpired.nodup fun key hkey =>
          ⟨hr.own key (hexpired.stored hkey), hexpired.stored hkey⟩
      exact ⟨s', hwork, .settling deadline waited expired hstage hexpired hshard'
        (hstands.frame hstands.sound rfl rfl (fun _ => rfl) ⟨hexpirations, hevictions⟩), hshorter⟩
  | finishing b deadline waited expired evicted hstage hexpired hdone hevicted hshard hstands =>
      obtain ⟨s', hwork, hshard', hexpirations, hevictions, hshorter⟩ :=
        hshard.work time (hevicted.givenUp.nodup hr) fun key hkey => by
          obtain ⟨hnew, hstored⟩ := hr.mem_candidates (hevicted.givenUp.mem hkey)
          rw [hdone.ring, hdone.store, if_neg hnew]
          exact ⟨hr.own key hstored, hstored⟩
      exact ⟨s', hwork, .finishing b deadline waited expired evicted hstage hexpired hdone hevicted
        hshard' (hstands.frame hstands.sound rfl rfl (fun _ => rfl) ⟨hexpirations, hevictions⟩),
        hshorter⟩
  | hearing budget h =>
      have hbudget := h.stage
      rw [hstage] at hbudget
      cases hbudget
  | evicting b expired evicted hstage' => rcases hstage' with hstage' | ⟨_, hstage', _⟩ <;> simp_all
  | _ => simp_all

end Phase

end ClusterCache.Node
