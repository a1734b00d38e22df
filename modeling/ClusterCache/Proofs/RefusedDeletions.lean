import ClusterCache.Proofs.Course
import ClusterCache.Proofs.Eviction.Notices
import ClusterCache.Proofs.Sweeps

/-!
# Sweeps whose deletions may be refused

Whatever the others do to the shard meanwhile, and whichever deletions are refused for it, a sweep
comes to its end.  What the keeper knows then is what it knew before, less the keys whose deletions
were accepted.
-/

namespace ClusterCache

namespace Stage

/-- The sweep of expired keys is under way. -/
def isExpiry : Stage → Bool
  | .expiring _ _ _ _ | .settling false _ _ => true
  | _ => false

/-- The sweep for room is under way. -/
def isEviction : Stage → Bool
  | .measuring _ | .evicting _ _ | .settling true _ _ => true
  | _ => false

end Stage

namespace Keeper

/-- A keeper whose policy and whose index have any histories. -/
def ofHistories (kind : PolicyKind) (history : List Policy.Notice)
    (ops : List ExpiryIndex.Operation) (limit pollMs : Nat) : Keeper :=
  { policy := Policy.after kind history
    expiry := (ExpiryIndex.performed ops).2
    limit
    pollMs }

namespace Course

variable {c : Course} {i : Nat} {origin : Origin} {accepted : List String}
  {refused : Option String} {now : UInt64}

/-- The sizes that the keeper has read in the first steps. -/
def readings (c : Course) (count : Nat) : List Nat :=
  (List.range count).filterMap fun i => (c.keeperAt i).reading? (c.met i)

theorem readings_succ (i : Nat) :
    c.readings (i + 1) = c.readings i ++ ((c.keeperAt i).reading? (c.met i)).toList := by
  rw [readings, List.range_succ, List.filterMap_append, ← readings]
  cases h : (c.keeperAt i).reading? (c.met i) <;> simp [h]

theorem readings_of_waits (h : c.Waits i) : c.readings (i + 1) = c.readings i := by
  rw [readings_succ]
  cases hstage : (c.keeperAt i).stage with
  | measuring issued => simp [Waits, step, hstage] at h
  | _ => simp [reading?, hstage]

/-! ## What the steps of a sweep add up to -/

/-- The first steps have tried these deletions, and every one that was accepted has been counted. -/
structure Tally (c : Course) (i : Nat) (origin : Origin) (accepted : List String)
    (refused : Option String) : Prop where
  tries : (c.journal i).Tries origin accepted refused
  expirations : c.raised (·.expirations) i = if origin = .expiry then accepted.length else 0
  evictions : c.raised (·.evictions) i = if origin = .eviction then accepted.length else 0

theorem tally_zero (c : Course) (origin : Origin) : c.Tally 0 origin [] none where
  tries := rfl
  expirations := by simp [raised]
  evictions := by simp [raised]

theorem Tally.wait (h : c.Tally i origin accepted refused) (hwaits : c.Waits i) :
    c.Tally (i + 1) origin accepted refused := by
  constructor
  · rw [journal_of_waits hwaits]
    exact h.tries
  · rw [raised_of_waits hwaits]
    exact h.expirations
  · rw [raised_of_waits hwaits]
    exact h.evictions

theorem Tally.quiet (h : c.Tally i origin accepted refused)
    (hrecords : Record.ofStep (c.met i) (c.keeperAt i) = [])
    (hshard : (c.state (i + 1)).1 = c.met i) : c.Tally (i + 1) origin accepted refused := by
  constructor
  · rw [journal_succ, hrecords, List.append_nil]
    exact h.tries
  · rw [raised_succ, hshard, h.expirations]
    omega
  · rw [raised_succ, hshard, h.evictions]
    omega

theorem Tally.refuse (h : c.Tally i origin accepted none) {key : String} {failure : Failure}
    (hrecords : Record.ofStep (c.met i) (c.keeperAt i) = [.refused origin ⟨key, .delete⟩ failure])
    (hshard : (c.state (i + 1)).1 = c.met i) : c.Tally (i + 1) origin accepted (some key) := by
  constructor
  · rw [journal_succ, hrecords]
    exact h.tries.refuse key failure
  · rw [raised_succ, hshard, h.expirations]
    omega
  · rw [raised_succ, hshard, h.evictions]
    omega

theorem Tally.accept (h : c.Tally i origin accepted none) {ticket : Nat} {key : String}
    (hrecords : Record.ofStep (c.met i) (c.keeperAt i) = [.accepted origin ticket ⟨key, .delete⟩])
    (hexpirations : (c.state (i + 1)).1.counters.expirations =
      (c.met i).counters.expirations + if origin = .expiry then 1 else 0)
    (hevictions : (c.state (i + 1)).1.counters.evictions =
      (c.met i).counters.evictions + if origin = .eviction then 1 else 0) :
    c.Tally (i + 1) origin (accepted ++ [key]) none := by
  constructor
  · rw [journal_succ, hrecords]
    exact h.tries.accept ticket key
  · rw [raised_succ, hexpirations, h.expirations, List.length_append, List.length_singleton]
    split_ifs <;> omega
  · rw [raised_succ, hevictions, h.evictions, List.length_append, List.length_singleton]
    split_ifs <;> omega

/-! ## The sweep of expired keys -/

/-- How far the sweep of expired keys has come. -/
inductive ExpiryPhase (c : Course) (now : UInt64) (i : Nat) : Prop where
  | trying (time : UInt64) (accepted : List String)
      (h : Expiring c.keeper now time accepted (c.keeperAt i))
      (htally : c.Tally i .expiry accepted none)
  | settling (accepted : List String) (refused : Option String) (deadline : Nat)
      (issued : List Nat) (hstage : (c.keeperAt i).stage = .settling false deadline issued)
      (h : Expired c.keeper now accepted refused (c.keeperAt i))
      (htally : c.Tally i .expiry accepted refused)

theorem ExpiryPhase.isExpiry (h : c.ExpiryPhase now i) : (c.keeperAt i).stage.isExpiry = true := by
  cases h with
  | trying time accepted h htally =>
      obtain ⟨keys, issued, hstage⟩ := h.stage
      rw [hstage]
      rfl
  | settling accepted refused deadline issued hstage h htally =>
      rw [hstage]
      rfl

theorem ExpiryPhase.sound (h : c.ExpiryPhase now i) : (c.keeperAt i).Sound := by
  cases h with
  | trying time accepted h htally => exact h.forgot.sound
  | settling accepted refused deadline issued hstage h htally => exact h.forgot.sound

theorem ExpiryPhase.wait (h : c.ExpiryPhase now i) (hwaits : c.Waits i) :
    c.ExpiryPhase now (i + 1) := by
  have hsame := keeperAt_of_waits hwaits
  cases h with
  | trying time accepted h htally =>
      exact .trying time accepted (hsame ▸ h) (htally.wait hwaits)
  | settling accepted refused deadline issued hstage h htally =>
      exact .settling accepted refused deadline issued (hsame ▸ hstage) (hsame ▸ h)
        (htally.wait hwaits)

theorem ExpiryPhase.move (h : c.ExpiryPhase now i) (hmoves : ¬ c.Waits i) :
    c.ExpiryPhase now (i + 1) ∨
      (c.keeperAt (i + 1)).stage = .measuring [] ∧ ∃ accepted refused,
        Expired c.keeper now accepted refused (c.keeperAt (i + 1)) ∧
          c.Tally (i + 1) .expiry accepted refused := by
  have hmove := Course.move hmoves
  cases h with
  | trying time accepted h htally =>
      rcases h.move hmove with ⟨hrecords, hshard, ⟨time', h'⟩ | ⟨h', deadline, issued, hstage⟩⟩ |
        ⟨key, hrecords, hshard, h'⟩ |
        ⟨key, failure, hrecords, hshard, h', deadline, issued, hstage⟩
      · exact Or.inl (.trying time' accepted h' (htally.quiet hrecords hshard))
      · exact Or.inl (.settling accepted none deadline issued hstage h'
          (htally.quiet hrecords hshard))
      · refine Or.inl (.trying time _ h' (htally.accept hrecords ?_ ?_)) <;> rw [hshard] <;> rfl
      · exact Or.inl (.settling accepted (some key) deadline issued hstage h'
          (htally.refuse hrecords hshard))
  | settling accepted refused deadline issued hstage h htally =>
      obtain ⟨hrecords, hshard, h', ⟨deadline', issued', hstage'⟩ | hover⟩ := h.move hmove hstage
      · exact Or.inl (.settling accepted refused deadline' issued' hstage' h'
          (htally.quiet hrecords hshard))
      · exact Or.inr ⟨hover, accepted, refused, h', htally.quiet hrecords hshard⟩

theorem ExpiryPhase.next (h : c.ExpiryPhase now i) (hmoves : ¬ c.Waits i) :
    ((c.keeperAt (i + 1)).stage = .measuring [] ∧ ∃ accepted refused,
        Expired c.keeper now accepted refused (c.keeperAt (i + 1)) ∧
          c.Tally (i + 1) .expiry accepted refused) ∨
      c.ExpiryPhase now (i + 1) ∧ (c.keeperAt (i + 1)).remaining < (c.keeperAt i).remaining := by
  rcases h.move hmoves with hnext | hdone
  · refine Or.inr ⟨hnext, (Course.move hmoves).remaining_lt h.sound ?_ ?_⟩
    · have hstage := h.isExpiry
      revert hstage
      cases (c.keeperAt i).stage <;> simp [Stage.isExpiry, Stage.budget?]
    · intro deadline _ hover
      simpa [hover, Stage.isExpiry] using hnext.isExpiry
  · exact Or.inl hdone

/-- What the sweep of the keys that have expired by `now` has done when it ends: deletions were
accepted, and one may have been refused. -/
structure SweepsExpired (c : Course) (now : UInt64) (count : Nat) (accepted : List String)
    (refused : Option String) : Prop where
  inside : ∀ i, i < count → (c.keeperAt i).stage.isExpiry = true
  ended : (c.keeperAt count).stage = .measuring []
  tries : (c.journal count).Tries .expiry accepted refused
  nodup : accepted.Nodup
  shows : (c.keeperAt count).expiry.Shows fun key =>
    if key ∈ accepted then none else c.keeper.expiry.time? key
  due : ∀ key ∈ accepted, ∃ t, c.keeper.expiry.time? key = some t ∧ t ≤ now
  first : ∀ key ∈ accepted, ∀ other, other ∉ accepted → ∀ t t',
    c.keeper.expiry.time? key = some t → c.keeper.expiry.time? other = some t' → t ≤ t'
  complete : refused = none → ∀ key t, (c.keeperAt count).expiry.time? key = some t → now < t
  again : ∀ key, refused = some key →
    ∃ t, (c.keeperAt count).expiry.time? key = some t ∧ t ≤ now
  policy : (c.keeperAt count).policy = accepted.foldl Policy.delete c.keeper.policy
  tracks : ∀ key, (c.keeperAt count).policy.tracks key = true ↔
    key ∉ accepted ∧ c.keeper.policy.tracks key = true
  order : (c.keeperAt count).policy.order = c.keeper.policy.order.filter (· ∉ accepted)
  expirations : c.raised (·.expirations) count = accepted.length
  evictions : c.raised (·.evictions) count = 0

/-- The sweep of expired keys ends, whatever happens to its deletions. -/
theorem ExpiryPhase.ends (hstart : c.ExpiryPhase now 0) (htime : Timely c.world)
    (hb : c.keeper.policy.Sound) :
    ∃ count accepted refused, c.SweepsExpired now count accepted refused := by
  obtain ⟨count, ⟨hover, accepted, refused, h, htally⟩, hinside⟩ := Course.ends htime remaining
    (I := c.ExpiryPhase now)
    (P := fun n => (c.keeperAt n).stage = .measuring [] ∧ ∃ accepted refused,
      Expired c.keeper now accepted refused (c.keeperAt n) ∧ c.Tally n .expiry accepted refused)
    (fun i h hrest => by simpa [hrest, Stage.isExpiry] using h.isExpiry)
    (fun i h hwaits => h.wait hwaits) (fun i h hmoves => h.next hmoves) hstart
  obtain ⟨time, hchosen, hlast⟩ := h.chosen
  refine ⟨count, accepted, refused,
    { inside := fun i hi => (hinside i hi).isExpiry
      ended := hover
      tries := htally.tries
      nodup := h.forgot.nodup
      shows := h.forgot.shows h.pending
      due := fun key hkey => ?_
      first := fun key hkey other hother t t' ht ht' => ?_
      complete := h.complete
      again := fun key hkey => ?_
      policy := h.forgot.policy
      tracks := h.forgot.tracks hb
      order := h.forgot.order hb
      expirations := htally.expirations
      evictions := htally.evictions }⟩
  · obtain ⟨t, ht, hle⟩ := hchosen.earlier key hkey
    exact ⟨t, ht, UInt64.le_trans hle hchosen.due⟩
  · obtain ⟨t₀, ht₀, hle⟩ := hchosen.earlier key hkey
    obtain rfl : t₀ = t := Option.some.inj (ht₀.symm.trans ht)
    exact UInt64.le_trans hle (hchosen.later other hother t' ht')
  · obtain ⟨hkey, hkept⟩ := hlast key hkey
    refine ⟨time, ?_, hchosen.due⟩
    rw [h.forgot.time? h.pending, if_neg hkept, hkey]

/-! ## The sweep for room -/

/-- How far the sweep for room has come. -/
inductive EvictionPhase (c : Course) (i : Nat) : Prop where
  | trying (accepted : List String)
      (h : Evicting c.keeper (c.readings i) accepted (c.keeperAt i))
      (htally : c.Tally i .eviction accepted none)
  | settling (accepted : List String) (refused : Option String) (deadline : Nat)
      (issued : List Nat) (hstage : (c.keeperAt i).stage = .settling true deadline issued)
      (h : Evicted c.keeper (c.readings i) accepted refused (c.keeperAt i))
      (htally : c.Tally i .eviction accepted refused)

theorem EvictionPhase.isEviction (h : c.EvictionPhase i) :
    (c.keeperAt i).stage.isEviction = true := by
  cases h with
  | trying accepted h htally =>
      rcases h.stage with ⟨issued, hstage, _⟩ | ⟨victim, issued, hstage, _⟩ <;> rw [hstage] <;> rfl
  | settling accepted refused deadline issued hstage h htally =>
      rw [hstage]
      rfl

theorem EvictionPhase.sound (h : c.EvictionPhase i) : (c.keeperAt i).Sound := by
  cases h with
  | trying accepted h htally => exact h.forgot.sound
  | settling accepted refused deadline issued hstage h htally => exact h.forgot.sound

theorem EvictionPhase.wait (h : c.EvictionPhase i) (hwaits : c.Waits i) :
    c.EvictionPhase (i + 1) := by
  have hsame := keeperAt_of_waits hwaits
  have hread := readings_of_waits hwaits
  cases h with
  | trying accepted h htally =>
      refine .trying accepted ?_ (htally.wait hwaits)
      rwa [hsame, hread]
  | settling accepted refused deadline issued hstage h htally =>
      refine .settling accepted refused deadline issued (hsame ▸ hstage) ?_ (htally.wait hwaits)
      rwa [hsame, hread]

theorem EvictionPhase.move (h : c.EvictionPhase i) (hb : c.keeper.policy.Sound)
    (hmoves : ¬ c.Waits i) :
    c.EvictionPhase (i + 1) ∨
      (c.keeperAt (i + 1)).stage = .resting ∧ ∃ accepted refused,
        Evicted c.keeper (c.readings (i + 1)) accepted refused (c.keeperAt (i + 1)) ∧
          c.Tally (i + 1) .eviction accepted refused := by
  have hmove := Course.move hmoves
  cases h with
  | trying accepted h htally =>
      have hstep := h.move hb hmove
      rw [← readings_succ] at hstep
      rcases hstep with ⟨hrecords, hshard, h' | ⟨h', deadline, issued, hstage⟩⟩ |
        ⟨key, hrecords, hshard, h'⟩ |
        ⟨key, failure, hrecords, hshard, h', deadline, issued, hstage⟩
      · exact Or.inl (.trying accepted h' (htally.quiet hrecords hshard))
      · exact Or.inl (.settling accepted none deadline issued hstage h'
          (htally.quiet hrecords hshard))
      · refine Or.inl (.trying _ h' (htally.accept hrecords ?_ ?_)) <;> rw [hshard] <;> rfl
      · exact Or.inl (.settling accepted (some key) deadline issued hstage h'
          (htally.refuse hrecords hshard))
  | settling accepted refused deadline issued hstage h htally =>
      have hread : c.readings (i + 1) = c.readings i := by
        rw [readings_succ, reading?, hstage]
        exact List.append_nil _
      rw [hread]
      obtain ⟨hrecords, hshard, h', ⟨deadline', issued', hstage'⟩ | hover⟩ := h.move hmove hstage
      · refine Or.inl (.settling accepted refused deadline' issued' hstage' ?_
          (htally.quiet hrecords hshard))
        rwa [hread]
      · exact Or.inr ⟨hover, accepted, refused, h', htally.quiet hrecords hshard⟩

/-- What the sweep for room has done when it ends: before every deletion it read a size that was too
large for the limit, less the deletions accepted before. -/
structure MakesRoom (c : Course) (count : Nat) (accepted : List String)
    (refused : Option String) : Prop where
  inside : ∀ i, i < count → (c.keeperAt i).stage.isEviction = true
  ended : (c.keeperAt count).stage = .resting
  tries : (c.journal count).Tries .eviction accepted refused
  first : accepted <+: c.keeper.policy.order
  next : ∀ key, refused = some key → (c.keeperAt count).policy.order.head? = some key
  length_readings : (c.readings count).length = accepted.length + 1
  needed : ∀ i size, (c.readings count)[i]? = some size → i < accepted.length ∨ refused ≠ none →
    c.keeper.limit < size - i
  enough : refused = none → ∀ size, (c.readings count)[accepted.length]? = some size →
    size - accepted.length ≤ c.keeper.limit ∨ (c.keeperAt count).policy.victim? = none
  policy : (c.keeperAt count).policy = accepted.foldl Policy.delete c.keeper.policy
  tracks : ∀ key, (c.keeperAt count).policy.tracks key = true ↔
    key ∉ accepted ∧ c.keeper.policy.tracks key = true
  order : (c.keeperAt count).policy.order = c.keeper.policy.order.drop accepted.length
  shows : (c.keeperAt count).expiry.Shows fun key =>
    if key ∈ accepted then none else c.keeper.expiry.time? key
  evictions : c.raised (·.evictions) count = accepted.length
  expirations : c.raised (·.expirations) count = 0

theorem EvictionPhase.next (h : c.EvictionPhase i) (hb : c.keeper.policy.Sound)
    (hmoves : ¬ c.Waits i) :
    ((c.keeperAt (i + 1)).stage = .resting ∧ ∃ accepted refused,
        Evicted c.keeper (c.readings (i + 1)) accepted refused (c.keeperAt (i + 1)) ∧
          c.Tally (i + 1) .eviction accepted refused) ∨
      c.EvictionPhase (i + 1) ∧ (c.keeperAt (i + 1)).remaining < (c.keeperAt i).remaining := by
  rcases h.move hb hmoves with hnext | hdone
  · refine Or.inr ⟨hnext, (Course.move hmoves).remaining_lt h.sound ?_ ?_⟩
    · have hstage := h.isEviction
      revert hstage
      cases (c.keeperAt i).stage <;> simp [Stage.isEviction, Stage.budget?]
    · intro deadline hstage
      simpa [hstage, Stage.isEviction] using h.isEviction
  · exact Or.inl hdone

/-- The sweep for room ends, whatever happens to its deletions. -/
theorem EvictionPhase.ends (hstart : c.EvictionPhase 0) (htime : Timely c.world)
    (hb : c.keeper.policy.Sound) :
    ∃ count accepted refused, c.MakesRoom count accepted refused := by
  obtain ⟨count, ⟨hover, accepted, refused, h, htally⟩, hinside⟩ := Course.ends htime remaining
    (I := c.EvictionPhase)
    (P := fun n => (c.keeperAt n).stage = .resting ∧ ∃ accepted refused,
      Evicted c.keeper (c.readings n) accepted refused (c.keeperAt n) ∧
        c.Tally n .eviction accepted refused)
    (fun i h hrest => by simpa [hrest, Stage.isEviction] using h.isEviction)
    (fun i h hwaits => h.wait hwaits) (fun i h hmoves => h.next hb hmoves) hstart
  have hpolicy := h.forgot.sound.policy
  have hkeys := h.forgot.keys_of_first hb h.first
  refine ⟨count, accepted, refused,
    { inside := fun i hi => (hinside i hi).isEviction
      ended := hover
      tries := htally.tries
      first := ?_
      next := fun key hkey => ?_
      length_readings := h.length_readings
      needed := h.exceeds
      enough := fun hnone size hsize => (h.enough hnone size hsize).imp_right fun hnil => ?_
      policy := h.forgot.policy
      tracks := h.forgot.tracks hb
      order := ?_
      shows := h.forgot.shows h.pending
      evictions := htally.evictions
      expirations := htally.expirations }⟩
  · rw [hb.order_eq, h.first]
    exact List.take_prefix _ _
  · rw [hpolicy.order_eq]
    exact h.next key hkey
  · rw [hpolicy.victim?_eq, hnil]
    rfl
  · rw [hpolicy.order_eq, hb.order_eq, hkeys]

end Course

/-- No deletion of a sweep is lost for being refused. -/
theorem refused_deletions_lose_nothing (kind : PolicyKind) (history : List Policy.Notice)
    (ops : List ExpiryIndex.Operation) (limit pollMs : Nat) (s : Shard)
    (world : Nat → Surroundings) (htime : Timely world) :
    (∀ clock, ∃ count accepted refused,
      Course.SweepsExpired ⟨world, s, (ofHistories kind history ops limit pollMs).sweep clock⟩
        clock.seconds count accepted refused) ∧
      ∃ count accepted refused,
        Course.MakesRoom
          ⟨world, s, { ofHistories kind history ops limit pollMs with stage := .measuring [] }⟩
          count accepted refused := by
  have hpolicy := Policy.sound_after kind history
  have hexpiry := (ExpiryIndex.follows_performed ops).1
  refine ⟨fun clock => ?_, ?_⟩
  · refine Course.ExpiryPhase.ends (.trying 0 [] ?_ (Course.tally_zero _ _)) htime hpolicy
    exact expiring_sweep hpolicy hexpiry clock
  · refine Course.EvictionPhase.ends (.trying [] ?_ (Course.tally_zero _ _)) htime hpolicy
    exact evicting_start hpolicy hexpiry

/-- Nobody else does anything, and it is one millisecond later before every step. -/
def undisturbed (seconds : UInt64) (i : Nat) : Surroundings := ⟨id, .ascending, ⟨seconds, i⟩⟩

theorem timely_undisturbed (seconds : UInt64) : Timely (undisturbed seconds) :=
  fun millis => ⟨millis, fun _ hle => hle⟩

/-- Two keys have expired, and there is room for one deletion in the queue. -/
theorem refused_deletions_lose_nothing_of_two :
    Timely (undisturbed 5) ∧
      (∀ clock, ∃ count accepted refused,
        Course.SweepsExpired
          ⟨undisturbed 5, Shard.make (Ring.empty "n" 1) 1 (EventQueue.make 8 1),
            (ofHistories .lru [.put "a", .put "b"] [.add 5 "a", .add 5 "b"] 0 0).sweep clock⟩
          clock.seconds count accepted refused) ∧
      ∃ count accepted refused,
        Course.MakesRoom
          ⟨undisturbed 5, Shard.make (Ring.empty "n" 1) 1 (EventQueue.make 8 1),
            { ofHistories .lru [.put "a", .put "b"] [.add 5 "a", .add 5 "b"] 0 0 with
              stage := .measuring [] }⟩
          count accepted refused :=
  ⟨timely_undisturbed 5, refused_deletions_lose_nothing .lru [.put "a", .put "b"]
    [.add 5 "a", .add 5 "b"] 0 0 _ (undisturbed 5) (timely_undisturbed 5)⟩

end Keeper

end ClusterCache
