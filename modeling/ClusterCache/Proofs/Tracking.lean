import ClusterCache.Proofs.Keeper

/-!
# What a keeper knows of a key

Its policy tracks the key or not, and its index has the key at some time or at none.  While a
bucket is swept, the keys that are still to be deleted count as indexed at the time of the bucket:
they go back there if the sweep ends before their turn.
-/

namespace ClusterCache

namespace Stage

/-- The keys of the bucket at hand that are still to be deleted. -/
def pending : Stage → List String
  | .expiring _ _ keys _ => keys
  | _ => []

/-- The time of the bucket at hand, for a key that is still to be deleted. -/
def held? (key : String) : Stage → Option UInt64
  | .expiring _ time keys _ => if key ∈ keys then some time else none
  | _ => none

theorem held?_of_pending {stage : Stage} (h : stage.pending = []) (key : String) :
    stage.held? key = none := by
  cases stage with
  | expiring now time keys issued =>
      obtain rfl : keys = [] := h
      rfl
  | _ => rfl

end Stage

namespace Keeper

/-- The time at which a key will be found to have expired. -/
def indexed (k : Keeper) (key : String) : Option UInt64 :=
  (k.stage.held? key).or (k.expiry.time? key)

/-- The data of a keeper agree with each other. -/
structure Sound (k : Keeper) : Prop where
  policy : k.policy.Sound
  expiry : k.expiry.Sound
  nodup : k.stage.pending.Nodup
  apart : ∀ key ∈ k.stage.pending, k.expiry.time? key = none
  victim : ∀ victim issued, k.stage = .evicting victim issued → k.policy.tracks victim = true

theorem indexed_of_pending {k : Keeper} (h : k.stage.pending = []) (key : String) :
    k.indexed key = k.expiry.time? key := by
  rw [indexed, Stage.held?_of_pending h, Option.none_or]

theorem sound_of_quiet {k : Keeper} (hpolicy : k.policy.Sound) (hexpiry : k.expiry.Sound)
    (hpending : k.stage.pending = [])
    (hvictim : ∀ victim issued, k.stage = .evicting victim issued →
      k.policy.tracks victim = true) : k.Sound := by
  refine ⟨hpolicy, hexpiry, ?_, ?_, hvictim⟩
  · rw [hpending]
    exact List.nodup_nil
  · rw [hpending]
    exact fun key hkey => absurd hkey List.not_mem_nil

theorem sound_make (kind : PolicyKind) (limit pollMs : Nat) : (make kind limit pollMs).Sound :=
  sound_of_quiet (Policy.sound_empty kind) ExpiryIndex.sound_empty rfl (by simp [make])

theorem observe_sound {k : Keeper} (hpolicy : k.policy.Sound) (hexpiry : k.expiry.Sound)
    (e : Event) : (k.observe e).policy.Sound ∧ (k.observe e).expiry.Sound := by
  cases hchange : e.change with
  | get =>
      simp only [Keeper.observe, hchange]
      exact ⟨(hpolicy.get e.key).1, hexpiry⟩
  | delete =>
      simp only [Keeper.observe, hchange]
      exact ⟨(hpolicy.delete e.key).1, (hexpiry.remove e.key).1⟩
  | put entry =>
      simp only [Keeper.observe, hchange]
      refine ⟨(hpolicy.put e.key).1, ?_⟩
      cases entry with
      | none => exact hexpiry
      | some entry => exact (hexpiry.add entry.expires e.key).1

theorem pending_of_hearing {k : Keeper} {left : Nat}
    (h : (∃ deadline, k.stage = .polling deadline ∧ left = drainLimit) ∨
      k.stage = .draining (left + 1)) : k.stage.pending = [] := by
  rcases h with ⟨deadline, hstage, _⟩ | hstage <;> rw [hstage] <;> rfl

variable {listing : Listing} {clock : Clock} {s s' : Shard} {k k' : Keeper} {rs : Journal}

theorem Move.sound (h : Move listing clock s k rs s' k') (hk : k.Sound) : k'.Sound := by
  cases h with
  | note e rest left hwaiting hstage =>
      obtain ⟨hpolicy, hexpiry⟩ := observe_sound hk.policy hk.expiry e
      exact sound_of_quiet hpolicy hexpiry rfl (by simp)
  | pause deadline hstage hspent => exact sound_of_quiet hk.policy hk.expiry rfl (by simp)
  | sweep hstage => exact sound_of_quiet hk.policy hk.expiry rfl (by simp [Keeper.sweep])
  | bucket now time now' issued keys x hstage hearliest hpoll hdue =>
      obtain ⟨y, hy, hsound, htimes⟩ := hk.expiry.poll? hearliest
      rw [hpoll, Option.some.injEq, Prod.mk.injEq] at hy
      obtain ⟨_, rfl⟩ := hy
      have hperm := listing.perm keys
      refine ⟨hk.policy, hsound, ?_, fun key hkey => ?_, by simp⟩
      · exact hperm.nodup_iff.mpr (Std.ExtTreeSet.distinct_toList.imp fun h => by simpa using h)
      · have hmem : key ∈ keys := Std.ExtTreeSet.mem_toList.mp (hperm.mem_iff.mp hkey)
        simp only [htimes, hmem, if_true]
  | swept now time issued hstage hnone =>
      exact sound_of_quiet hk.policy hk.expiry rfl (by simp [settle])
  | expire now time key rest issued hstage hnone =>
      have hnodup := hk.nodup
      have hapart := hk.apart
      rw [hstage] at hnodup hapart
      exact ⟨(hk.policy.delete key).1, hk.expiry, (List.nodup_cons.mp hnodup).2,
        fun other hother => hapart other (List.mem_cons_of_mem key hother), by simp⟩
  | giveBack now time key rest issued failure hstage hrefusal =>
      exact sound_of_quiet hk.policy (hk.expiry.addAll time (key :: rest)).1 rfl (by simp [settle])
  | choose issued victim hstage hover hvictim =>
      refine sound_of_quiet hk.policy hk.expiry rfl fun v i heq => ?_
      obtain ⟨rfl, _⟩ := Stage.evicting.inj heq
      rw [hk.policy.victim?_eq] at hvictim
      exact hk.policy.tracks_iff.mpr (List.mem_of_head? hvictim)
  | measured issued hstage henough =>
      exact sound_of_quiet hk.policy hk.expiry rfl (by simp [settle])
  | evict victim issued hstage hnone =>
      exact sound_of_quiet (hk.policy.delete victim).1 (hk.expiry.remove victim).1 rfl (by simp)
  | halt victim issued failure hstage hrefusal =>
      exact sound_of_quiet hk.policy hk.expiry rfl (by simp [settle])
  | settled last deadline ticket issued hstage hdone =>
      exact sound_of_quiet hk.policy hk.expiry rfl (by simp [settle])
  | turn deadline hstage => exact sound_of_quiet hk.policy hk.expiry rfl (by simp)
  | finish deadline hstage =>
      exact sound_of_quiet hk.policy hk.expiry rfl (by simp [Keeper.finish])

theorem observe_time?_of_ne (h : k.Sound) {e : Event} {key : String} (hne : key ≠ e.key) :
    (k.observe e).expiry.time? key = k.expiry.time? key := by
  cases hchange : e.change with
  | get => simp only [Keeper.observe, hchange]
  | delete =>
      simp only [Keeper.observe, hchange]
      rw [(h.expiry.remove e.key).2, if_neg hne]
  | put entry =>
      simp only [Keeper.observe, hchange]
      cases entry with
      | none => rfl
      | some entry => rw [Option.elim_some, (h.expiry.add entry.expires e.key).2, if_neg hne]

theorem observe_tracks_of_ne (h : k.Sound) {e : Event} {key : String} (hne : key ≠ e.key) :
    (k.observe e).policy.tracks key = true ↔ k.policy.tracks key = true := by
  cases hchange : e.change with
  | get =>
      simp only [Keeper.observe, hchange]
      exact h.policy.tracks_get_of_ne hne
  | delete =>
      simp only [Keeper.observe, hchange]
      rw [h.policy.tracks_delete]
      simp [hne]
  | put entry =>
      simp only [Keeper.observe, hchange]
      rw [h.policy.tracks_put]
      simp [hne]

theorem observe_put (h : k.Sound) (key : String) (entry : Entry) :
    (k.observe ⟨key, .put (some entry)⟩).policy.tracks key = true ∧
      (k.observe ⟨key, .put (some entry)⟩).expiry.time? key = some entry.expires := by
  refine ⟨(h.policy.tracks_put key key).mpr (Or.inl rfl), ?_⟩
  simp only [Keeper.observe, Option.elim_some]
  rw [(h.expiry.add entry.expires key).2, if_pos rfl]

theorem observe_delete (h : k.Sound) (key : String) :
    (k.observe ⟨key, .delete⟩).policy.tracks key = false ∧
      (k.observe ⟨key, .delete⟩).expiry.time? key = none := by
  constructor
  · rw [Bool.eq_false_iff]
    exact fun ht => ((h.policy.tracks_delete key key).mp ht).1 rfl
  · simp only [Keeper.observe]
    rw [(h.expiry.remove key).2, if_pos rfl]

/-! ## What the sweeps do to the index -/

section Index

variable {now time : UInt64} {issued : List Nat}

/-- A bucket taken out of the index is still accounted for. -/
theorem indexed_bucket (h : k.Sound) (hpending : k.stage.pending = []) {time : UInt64}
    {keys : Std.ExtTreeSet String} {x : ExpiryIndex}
    (hearliest : k.expiry.earliest? = some (time, keys)) (hpoll : k.expiry.poll? = some (keys, x))
    (listing : Listing) (now : UInt64) (issued : List Nat) (key : String) :
    { k with expiry := x, stage := .expiring now time (listing.list keys) issued }.indexed key =
      k.indexed key := by
  obtain ⟨y, hy, _, htimes⟩ := h.expiry.poll? hearliest
  rw [hpoll, Option.some.injEq, Prod.mk.injEq] at hy
  obtain ⟨_, rfl⟩ := hy
  have hmem : key ∈ listing.list keys ↔ key ∈ keys := by
    rw [(listing.perm keys).mem_iff, Std.ExtTreeSet.mem_toList]
  rw [indexed_of_pending hpending, indexed]
  simp only [Stage.held?, hmem, htimes]
  by_cases hkey : key ∈ keys
  · rw [if_pos hkey, Option.some_or, (h.expiry.earliest?_mem hearliest key).mp hkey]
  · rw [if_neg hkey, if_neg hkey, Option.none_or]

/-- What is left of a bucket when a sweep ends goes back to where it was. -/
theorem indexed_restore (h : k.Sound) {keys : List String}
    (hstage : k.stage = .expiring now time keys issued) (last : Bool) (clock : Clock)
    (key : String) :
    ((k.restore time keys).settle last clock issued).indexed key = k.indexed key := by
  rw [indexed_of_pending rfl, indexed, hstage]
  simp only [settle, restore, Stage.held?]
  rw [(h.expiry.addAll time keys).2]
  by_cases hkey : key ∈ keys
  · rw [if_pos hkey, if_pos hkey, Option.some_or]
  · rw [if_neg hkey, if_neg hkey, Option.none_or]

/-- A key of the bucket at hand is forgotten when its deletion is accepted. -/
theorem indexed_expire (h : k.Sound) {victim : String} {rest : List String}
    (hstage : k.stage = .expiring now time (victim :: rest) issued) (policy : Policy)
    (issued' : List Nat) (key : String) :
    { k with policy, stage := .expiring now time rest issued' }.indexed key =
      if key = victim then none else k.indexed key := by
  have hnodup := h.nodup
  have hapart := h.apart victim
  rw [hstage] at hnodup hapart
  simp only [indexed, hstage, Stage.held?, List.mem_cons]
  by_cases hkey : key = victim
  · have hnew : key ∉ rest := hkey ▸ (List.nodup_cons.mp hnodup).1
    rw [if_pos hkey, if_neg hnew, Option.none_or, hkey]
    exact hapart List.mem_cons_self
  · simp [hkey]

theorem indexed_evict (h : k.Sound) (hpending : k.stage.pending = []) (victim : String)
    (policy : Policy) (issued : List Nat) (key : String) :
    { k with policy, expiry := k.expiry.remove victim, stage := .measuring issued }.indexed key =
      if key = victim then none else k.indexed key := by
  rw [indexed_of_pending rfl, indexed_of_pending hpending]
  exact (h.expiry.remove victim).2 key

end Index

/-- What a step does to the knowledge of a key: nothing, or it hears of the key, or it has the key
deleted. -/
theorem Move.view (h : Move listing clock s k rs s' k') (hk : k.Sound) (key : String) :
    ((k'.policy.tracks key = true ↔ k.policy.tracks key = true) ∧
        k'.indexed key = k.indexed key ∧ ∀ e, Journal.observed rs = [e] → e.key ≠ key) ∨
      (∃ e left, Journal.observed rs = [e] ∧ e.key = key ∧ k.stage.pending = [] ∧
        k' = { k.observe e with stage := .draining left }) ∨
      ((∃ ticket, (ticket, ⟨key, .delete⟩) ∈ s'.queue) ∧ Journal.observed rs = [] ∧
        (k.policy.tracks key = true ∨ k.indexed key ≠ none) ∧ k'.indexed key = none) := by
  -- Most steps only go on to another stage.
  have hsame : ∀ {stage : Stage} {gauges : Gauges}, k.stage.pending = [] →
      stage.pending = [] → Journal.observed rs = [] →
      k' = { k with stage, gauges } →
      (k'.policy.tracks key = true ↔ k.policy.tracks key = true) ∧
        k'.indexed key = k.indexed key ∧ ∀ e, Journal.observed rs = [e] → e.key ≠ key := by
    rintro stage gauges hpending hpending' hnone rfl
    refine ⟨Iff.rfl, ?_, by simp [hnone]⟩
    rw [indexed_of_pending hpending, indexed_of_pending hpending']
  cases h with
  | note e rest left hwaiting hstage =>
      have hpending := pending_of_hearing hstage
      by_cases hkey : e.key = key
      · exact Or.inr (Or.inl ⟨e, left, rfl, hkey, hpending, rfl⟩)
      · refine Or.inl ⟨observe_tracks_of_ne hk (Ne.symm hkey), ?_, ?_⟩
        · rw [indexed_of_pending hpending, indexed_of_pending rfl]
          exact observe_time?_of_ne hk (Ne.symm hkey)
        · intro e' he'
          obtain rfl : e = e' := by simpa [Journal.observed, Record.observed?] using he'
          exact hkey
  | pause deadline hstage hspent => exact Or.inl (hsame (by rw [hstage]; rfl) rfl rfl rfl)
  | sweep hstage =>
      refine Or.inl (hsame ?_ rfl rfl rfl)
      rcases hstage with ⟨d, hstage, _⟩ | ⟨d, hstage, _⟩ | ⟨d, hstage, _⟩ <;> rw [hstage] <;> rfl
  | bucket now time now' issued keys x hstage hearliest hpoll hdue =>
      refine Or.inl ⟨Iff.rfl, ?_, fun _ he => by cases he⟩
      exact indexed_bucket hk (by rw [hstage]; rfl) hearliest hpoll listing now issued key
  | swept now time issued hstage hnone =>
      exact Or.inl (hsame (by rw [hstage]; rfl) rfl rfl rfl)
  | expire now time victim rest issued hstage hnone =>
      by_cases hkey : key = victim
      · subst hkey
        refine Or.inr (Or.inr ⟨⟨s.tickets, by simp [Shard.enqueue]⟩, rfl, Or.inr ?_, ?_⟩)
        · simp [indexed, hstage, Stage.held?]
        · rw [indexed_expire hk hstage, if_pos rfl]
      · refine Or.inl ⟨?_, ?_, fun _ he => by cases he⟩
        · simp only
          rw [hk.policy.tracks_delete]
          simp [hkey]
        · rw [indexed_expire hk hstage, if_neg hkey]
  | giveBack now time victim rest issued failure hstage hrefusal =>
      exact Or.inl ⟨Iff.rfl, indexed_restore hk hstage false clock key, fun _ he => by cases he⟩
  | choose issued victim hstage hover hvictim =>
      exact Or.inl (hsame (by rw [hstage]; rfl) rfl rfl rfl)
  | measured issued hstage henough => exact Or.inl (hsame (by rw [hstage]; rfl) rfl rfl rfl)
  | evict victim issued hstage hnone =>
      by_cases hkey : key = victim
      · subst hkey
        refine Or.inr (Or.inr ⟨⟨s.tickets, by simp [Shard.enqueue]⟩, rfl,
          Or.inl (hk.victim key issued hstage), ?_⟩)
        rw [indexed_evict hk (by rw [hstage]; rfl), if_pos rfl]
      · refine Or.inl ⟨?_, ?_, fun _ he => by cases he⟩
        · simp only
          rw [hk.policy.tracks_delete]
          simp [hkey]
        · rw [indexed_evict hk (by rw [hstage]; rfl), if_neg hkey]
  | halt victim issued failure hstage hrefusal =>
      exact Or.inl (hsame (by rw [hstage]; rfl) rfl rfl rfl)
  | settled last deadline ticket issued hstage hdone =>
      exact Or.inl (hsame (by rw [hstage]; rfl) rfl rfl rfl)
  | turn deadline hstage => exact Or.inl (hsame (by rw [hstage]; rfl) rfl rfl rfl)
  | finish deadline hstage => exact Or.inl (hsame (by rw [hstage]; rfl) rfl rfl rfl)

end Keeper

end ClusterCache
