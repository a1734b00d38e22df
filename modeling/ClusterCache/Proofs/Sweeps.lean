import ClusterCache.Proofs.ExpiryMap
import ClusterCache.Proofs.Hearing

/-!
# The two sweeps of a keeper

A sweep tries to delete one key after the other and ends with the first refusal.  Both sweeps keep
the bookkeeping in one state: the keys whose deletions were accepted are forgotten, and everything
else is as it was.  The sweep of expired keys goes through them from the earliest on, the sweep for
room through the keys of the policy in their order.
-/

namespace ClusterCache

/-- What came of the attempt of a sweep to delete a key. -/
def Record.attempt? (origin : Origin) : Record → Option (String × Bool)
  | .accepted o _ ⟨key, .delete⟩ => if o = origin then some (key, true) else none
  | .refused o ⟨key, .delete⟩ _ => if o = origin then some (key, false) else none
  | _ => none

/-- The journal of a sweep whose deletions were accepted, but for the last one if it was refused. -/
def Journal.Tries (j : Journal) (origin : Origin) (accepted : List String)
    (refused : Option String) : Prop :=
  j.map (Record.attempt? origin) =
    accepted.map (fun key => some (key, true)) ++ refused.toList.map fun key => some (key, false)

theorem Journal.Tries.accept {j : Journal} {origin : Origin} {accepted : List String}
    (h : j.Tries origin accepted none) (ticket : Nat) (key : String) :
    Journal.Tries (j ++ [.accepted origin ticket ⟨key, .delete⟩]) origin (accepted ++ [key])
      none := by
  have hj : j.map (Record.attempt? origin) = accepted.map fun key => some (key, true) := by
    simpa [Journal.Tries] using h
  simp [Journal.Tries, hj, Record.attempt?]

theorem Journal.Tries.refuse {j : Journal} {origin : Origin} {accepted : List String}
    (h : j.Tries origin accepted none) (key : String) (failure : Failure) :
    Journal.Tries (j ++ [.refused origin ⟨key, .delete⟩ failure]) origin accepted (some key) := by
  have hj : j.map (Record.attempt? origin) = accepted.map fun key => some (key, true) := by
    simpa [Journal.Tries] using h
  simp [Journal.Tries, hj, Record.attempt?]

theorem Journal.Tries.unique {j : Journal} {origin : Origin} {accepted accepted' : List String}
    {refused refused' : Option String} (h : j.Tries origin accepted refused)
    (h' : j.Tries origin accepted' refused') : accepted = accepted' ∧ refused = refused' := by
  have hsame := h.symm.trans h'
  constructor
  · have hkeys := congrArg (List.filterMap fun p : Option (String × Bool) =>
      p.bind fun p => if p.2 then some p.1 else none) hsame
    simpa [List.filterMap_map, Function.comp_def] using hkeys
  · have hkeys := congrArg (List.filterMap fun p : Option (String × Bool) =>
      p.bind fun p => if p.2 then none else some p.1) hsame
    have hlists : refused.toList = refused'.toList := by
      simpa [List.filterMap_map, Function.comp_def] using hkeys
    simpa using congrArg List.head? hlists

namespace Keeper

/-- A keeper that has forgotten some keys that another one knew, and nothing else. -/
structure Forgot (b : Keeper) (gone : List String) (k : Keeper) : Prop where
  sound : k.Sound
  limit : k.limit = b.limit
  nodup : gone.Nodup
  policy : k.policy = gone.foldl Policy.delete b.policy
  indexed : ∀ key, k.indexed key = if key ∈ gone then none else b.expiry.time? key

variable {b k k' : Keeper} {gone : List String} {s s' : Shard} {listing : Listing} {clock : Clock}
  {rs : Journal} {now time : UInt64}

theorem forgot_start (hpolicy : k.policy.Sound) (hexpiry : k.expiry.Sound) {stage : Stage}
    (hpending : stage.pending = []) (hstage : ∀ victim issued, stage ≠ .evicting victim issued) :
    Forgot { k with stage } [] { k with stage } where
  sound := sound_of_quiet hpolicy hexpiry hpending fun victim issued h =>
    absurd h (hstage victim issued)
  limit := rfl
  nodup := List.nodup_nil
  policy := rfl
  indexed := fun key => by
    rw [indexed_of_pending hpending]
    simp

theorem Forgot.keys (h : Forgot b gone k) (hb : b.policy.Sound) :
    k.policy.keys = b.policy.keys.filter (· ∉ gone) := by
  rw [h.policy, (hb.deleteAll gone).2]

theorem Forgot.pass (h : Forgot b gone k) (hmove : Move listing clock s k rs s' k')
    (hpolicy : k'.policy = k.policy) (hindexed : ∀ key, k'.indexed key = k.indexed key) :
    Forgot b gone k' where
  sound := hmove.sound h.sound
  limit := hmove.limit.trans h.limit
  nodup := h.nodup
  policy := hpolicy.trans h.policy
  indexed := fun key => (hindexed key).trans (h.indexed key)

/-- A step to another stage, with no bucket in hand before and after it. -/
theorem Forgot.turn (h : Forgot b gone k) (hmove : Move listing clock s k rs s' k')
    (hpolicy : k'.policy = k.policy) (hexpiry : k'.expiry = k.expiry)
    (hpending : k.stage.pending = []) (hpending' : k'.stage.pending = []) : Forgot b gone k' := by
  refine h.pass hmove hpolicy fun key => ?_
  rw [indexed_of_pending hpending, indexed_of_pending hpending', hexpiry]

theorem Forgot.forget (h : Forgot b gone k) (hmove : Move listing clock s k rs s' k') {key : String}
    (hpolicy : k'.policy = k.policy.delete key)
    (hindexed : ∀ other, k'.indexed other = if other = key then none else k.indexed other)
    (hnew : key ∉ gone) : Forgot b (gone ++ [key]) k' where
  sound := hmove.sound h.sound
  limit := hmove.limit.trans h.limit
  nodup := by
    rw [List.nodup_append]
    refine ⟨h.nodup, List.nodup_singleton key, fun a ha b hb => ?_⟩
    rintro rfl
    exact hnew (List.mem_singleton.mp hb ▸ ha)
  policy := by rw [hpolicy, h.policy, List.foldl_append, List.foldl_cons, List.foldl_nil]
  indexed := fun other => by
    rw [hindexed, h.indexed]
    by_cases hother : other = key <;> simp [hother]

theorem Forgot.time? (h : Forgot b gone k) (hpending : k.stage.pending = []) (key : String) :
    k.expiry.time? key = if key ∈ gone then none else b.expiry.time? key := by
  rw [← indexed_of_pending hpending, h.indexed]

theorem Forgot.shows (h : Forgot b gone k)
    (hpending : k.stage.pending = []) :
    k.expiry.Shows fun key => if key ∈ gone then none else b.expiry.time? key := by
  have hshows := h.sound.expiry.shows
  rwa [funext (h.time? hpending)] at hshows

theorem Forgot.tracks (h : Forgot b gone k)
    (hb : b.policy.Sound) (key : String) :
    k.policy.tracks key = true ↔ key ∉ gone ∧ b.policy.tracks key = true := by
  rw [h.sound.policy.tracks_iff, hb.tracks_iff, h.keys hb, List.mem_filter, and_comm]
  simp

theorem Forgot.order (h : Forgot b gone k)
    (hb : b.policy.Sound) : k.policy.order = b.policy.order.filter (· ∉ gone) := by
  rw [h.sound.policy.order_eq, hb.order_eq, h.keys hb]

/-! ## The sweep of expired keys -/

/-- Keys of an index that expire by a time while the others do not expire before. -/
structure Chosen (b : Keeper) (now time : UInt64) (gone : List String) : Prop where
  due : time ≤ now
  earlier : ∀ key ∈ gone, ∃ t, b.expiry.time? key = some t ∧ t ≤ time
  later : ∀ key, key ∉ gone → ∀ t, b.expiry.time? key = some t → time ≤ t

/-- The sweep of expired keys has come to the bucket of a time. -/
structure Expiring (b : Keeper) (now time : UInt64) (gone : List String) (k : Keeper) : Prop where
  stage : ∃ keys issued, k.stage = .expiring now time keys issued
  forgot : Forgot b gone k
  chosen : Chosen b now time gone

/-- The sweep of expired keys has tried all the deletions that it tries. -/
structure Expired (b : Keeper) (now : UInt64) (gone : List String) (refused : Option String)
    (k : Keeper) : Prop where
  pending : k.stage.pending = []
  forgot : Forgot b gone k
  chosen : ∃ time, Chosen b now time gone ∧
    ∀ key, refused = some key → b.expiry.time? key = some time ∧ key ∉ gone
  complete : refused = none → ∀ key t, k.expiry.time? key = some t → now < t

theorem expiring_sweep (hpolicy : k.policy.Sound) (hexpiry : k.expiry.Sound) (clock : Clock) :
    Expiring (k.sweep clock) clock.seconds 0 [] (k.sweep clock) where
  stage := ⟨[], [], rfl⟩
  forgot := forgot_start hpolicy hexpiry rfl (by simp)
  chosen := ⟨UInt64.zero_le, fun key hkey => absurd hkey List.not_mem_nil,
    fun key _ t _ => UInt64.zero_le⟩

theorem Expiring.bucket (h : Expiring b now time gone k) {time' : UInt64} {issued : List Nat}
    {bucket : Std.ExtTreeSet String} (hstage : k.stage = .expiring now time [] issued)
    (hearliest : k.expiry.earliest? = some (time', bucket)) (hdue : time' ≤ now) :
    Chosen b now time' gone := by
  have hpending : k.stage.pending = [] := by rw [hstage]; rfl
  have hsound := h.forgot.sound.expiry
  have hle : time ≤ time' := by
    obtain ⟨key, hkey⟩ := hsound.exists_mem_earliest? hearliest
    have htime := (hsound.earliest?_mem hearliest key).mp hkey
    rw [h.forgot.time? hpending] at htime
    split_ifs at htime with hgone
    exact h.chosen.later key hgone time' htime
  refine ⟨hdue, fun key hkey => ?_, fun key hkey t ht => ?_⟩
  · obtain ⟨t, ht, hearlier⟩ := h.chosen.earlier key hkey
    exact ⟨t, ht, UInt64.le_trans hearlier hle⟩
  · have htime : k.expiry.time? key = some t := by
      rw [h.forgot.time? hpending, if_neg hkey, ht]
    exact hsound.earliest?_le hearliest htime

/-- A key of the bucket at hand expires at the time of the bucket and is not forgotten yet. -/
theorem Expiring.pending (h : Expiring b now time gone k) {key : String} {keys : List String}
    {issued : List Nat} (hstage : k.stage = .expiring now time keys issued) (hkey : key ∈ keys) :
    key ∉ gone ∧ b.expiry.time? key = some time := by
  have hindexed := h.forgot.indexed key
  rw [indexed, hstage] at hindexed
  simp only [Stage.held?, hkey, if_true, Option.some_or] at hindexed
  split_ifs at hindexed with hgone
  exact ⟨hgone, hindexed.symm⟩

/-- What a step of the sweep of expired keys does. -/
theorem Expiring.move (h : Expiring b now time gone k) (hmove : Move listing clock s k rs s' k') :
    (rs = [] ∧ s' = s ∧ ((∃ time', Expiring b now time' gone k') ∨
        Expired b now gone none k' ∧ ∃ deadline issued,
          k'.stage = .settling false deadline issued)) ∨
      (∃ key, rs = [.accepted .expiry s.tickets ⟨key, .delete⟩] ∧
        s' = { s.enqueue ⟨key, .delete⟩ with counters := s.counters.expire } ∧
        Expiring b now time (gone ++ [key]) k') ∨
      ∃ key failure, rs = [.refused .expiry ⟨key, .delete⟩ failure] ∧ s' = s ∧
        Expired b now gone (some key) k' ∧
        ∃ deadline issued, k'.stage = .settling false deadline issued := by
  obtain ⟨keys, issued, hstage⟩ := h.stage
  have hmoved := hmove
  cases hmove with
  | bucket now' t time' is bucket x hstage' hearliest hpoll hdue =>
      obtain ⟨rfl, rfl, rfl, rfl⟩ := Stage.expiring.inj (hstage.symm.trans hstage')
      have hpending : k.stage.pending = [] := by rw [hstage]; rfl
      refine Or.inl ⟨rfl, rfl, Or.inl ⟨time', ⟨_, _, rfl⟩, ?_, h.bucket hstage hearliest hdue⟩⟩
      exact h.forgot.pass hmoved rfl
        (indexed_bucket h.forgot.sound hpending hearliest hpoll listing now issued)
  | swept now' t is hstage' hnone =>
      obtain ⟨rfl, rfl, rfl, rfl⟩ := Stage.expiring.inj (hstage.symm.trans hstage')
      have hpending : k.stage.pending = [] := by rw [hstage]; rfl
      refine Or.inl ⟨rfl, rfl, Or.inr ⟨⟨rfl, ?_, ⟨time, h.chosen, by simp⟩, fun _ key t ht => ?_⟩,
        _, _, rfl⟩⟩
      · exact h.forgot.turn hmoved rfl rfl hpending rfl
      · cases hearliest : k.expiry.earliest? with
        | none =>
            have hgone := h.forgot.sound.expiry.earliest?_eq_none hearliest key
            exact absurd (ht.symm.trans hgone) (by simp)
        | some found =>
            exact UInt64.lt_of_lt_of_le (hnone found.1 found.2 hearliest)
              (h.forgot.sound.expiry.earliest?_le hearliest ht)
  | expire now' t key rest is hstage' hnone =>
      obtain ⟨rfl, rfl, rfl, rfl⟩ := Stage.expiring.inj (hstage.symm.trans hstage')
      obtain ⟨hnew, htime⟩ := h.pending hstage List.mem_cons_self
      refine Or.inr (Or.inl ⟨key, rfl, rfl, ⟨_, _, rfl⟩, ?_, h.chosen.due, fun other hother => ?_,
        fun other hother => ?_⟩)
      · exact h.forgot.forget hmoved rfl (indexed_expire h.forgot.sound hstage _ _) hnew
      · rcases List.mem_append.mp hother with hother | hother
        · exact h.chosen.earlier other hother
        · rw [List.mem_singleton.mp hother]
          exact ⟨time, htime, UInt64.le_refl _⟩
      · exact h.chosen.later other fun hmem => hother (List.mem_append_left _ hmem)
  | giveBack now' t key rest is failure hstage' hrefusal =>
      obtain ⟨rfl, rfl, rfl, rfl⟩ := Stage.expiring.inj (hstage.symm.trans hstage')
      obtain ⟨hnew, htime⟩ := h.pending hstage List.mem_cons_self
      refine Or.inr (Or.inr ⟨key, failure, rfl, rfl, ⟨rfl, ?_, ⟨time, h.chosen, ?_⟩, by simp⟩,
        _, _, rfl⟩)
      · exact h.forgot.pass hmoved rfl (indexed_restore h.forgot.sound hstage false clock)
      · rintro _ ⟨⟩
        exact ⟨htime, hnew⟩
  | _ => simp_all

/-- Waiting for the deletions changes nothing in the bookkeeping. -/
theorem Expired.move {refused : Option String} {deadline : Nat} {issued : List Nat}
    (h : Expired b now gone refused k) (hmove : Move listing clock s k rs s' k')
    (hstage : k.stage = .settling false deadline issued) :
    rs = [] ∧ s' = s ∧ Expired b now gone refused k' ∧
      ((∃ deadline issued, k'.stage = .settling false deadline issued) ∨
        k'.stage = .measuring []) := by
  have hmoved := hmove
  cases hmove with
  | settled l d ticket rest hstage' hdone =>
      obtain ⟨rfl, rfl, rfl⟩ := Stage.settling.inj (hstage.symm.trans hstage')
      exact ⟨rfl, rfl, ⟨rfl, h.forgot.turn hmoved rfl rfl h.pending rfl, h.chosen, h.complete⟩,
        Or.inl ⟨_, _, rfl⟩⟩
  | turn d hstage' =>
      exact ⟨rfl, rfl, ⟨rfl, h.forgot.turn hmoved rfl rfl h.pending rfl, h.chosen, h.complete⟩,
        Or.inr rfl⟩
  | finish d hstage' => exact absurd (hstage.symm.trans hstage') (by simp)
  | _ => simp_all

/-! ## The keys that have expired -/

section Keys

variable {gone' : List String} {time' : UInt64} {key : String}

/-- Which keys of other buckets are deleted depends on the bucket at hand alone. -/
theorem Chosen.mem_iff_lt (h : Chosen b now time gone) (hne : b.expiry.time? key ≠ some time) :
    key ∈ gone ↔ ∃ t, b.expiry.time? key = some t ∧ t < time := by
  constructor
  · intro hkey
    obtain ⟨t, ht, hle⟩ := h.earlier key hkey
    exact ⟨t, ht, UInt64.lt_of_le_of_ne hle fun heq => hne (heq ▸ ht)⟩
  · rintro ⟨t, ht, hlt⟩
    by_contra hkey
    exact UInt64.not_le.mpr hlt (h.later key hkey t ht)

/-- A sweep without a refusal deletes exactly what has expired. -/
theorem Expired.mem_iff (h : Expired b now gone none k) :
    key ∈ gone ↔ ∃ t, b.expiry.time? key = some t ∧ t ≤ now := by
  obtain ⟨time, hchosen, _⟩ := h.chosen
  constructor
  · intro hkey
    obtain ⟨t, ht, hle⟩ := hchosen.earlier key hkey
    exact ⟨t, ht, UInt64.le_trans hle hchosen.due⟩
  · rintro ⟨t, ht, hle⟩
    by_contra hkey
    have hkept : k.expiry.time? key = some t := by rw [h.forgot.time? h.pending, if_neg hkey, ht]
    exact UInt64.not_le.mpr (h.complete rfl key t hkept) hle

theorem Expired.keyCount {refused : Option String} (h : Expired b now gone refused k) :
    k.expiry.keyCount + gone.length = b.expiry.keyCount := by
  obtain ⟨time, hchosen, _⟩ := h.chosen
  refine size_of_erased h.forgot.nodup (fun key hkey hnone => ?_) (h.forgot.time? h.pending)
  obtain ⟨t, ht, _⟩ := hchosen.earlier key hkey
  simp [ExpiryIndex.time?, hnone] at ht

/-- A sweep that deletes the key that was refused to another one deletes more keys. -/
theorem Chosen.length_lt (h : Chosen b now time gone) (hnodup : gone.Nodup)
    (hkey : b.expiry.time? key = some time) (hnew : key ∉ gone)
    (hall : ∀ other t, b.expiry.time? other = some t → t ≤ time → other ∈ gone') :
    gone.length < gone'.length := by
  have hsub : key :: gone ⊆ gone' := by
    intro other hother
    rcases List.mem_cons.mp hother with rfl | hother
    · exact hall other time hkey (UInt64.le_refl _)
    · obtain ⟨t, ht, hle⟩ := h.earlier other hother
      exact hall other t ht hle
  exact (List.subperm_of_subset (List.nodup_cons.mpr ⟨hnew, hnodup⟩) hsub).length_le

theorem Chosen.not_time_lt (h : Chosen b now time gone) (h' : Chosen b now time' gone')
    (hnodup : gone.Nodup) (hkey : b.expiry.time? key = some time) (hnew : key ∉ gone)
    (hlength : gone.length = gone'.length) : ¬ time < time' := by
  intro hlt
  have hless : gone.length < gone'.length := by
    refine h.length_lt hnodup hkey hnew fun other t ht hle => ?_
    have hearlier := UInt64.lt_of_le_of_lt hle hlt
    have hne : b.expiry.time? other ≠ some time' := by
      rw [ht]
      exact fun heq => UInt64.ne_of_lt hearlier (Option.some.inj heq)
    exact (h'.mem_iff_lt hne).mpr ⟨t, ht, hearlier⟩
  omega

/-- Two sweeps that delete as many keys are refused a key of the same bucket, if the first one is
refused a key at all. -/
theorem Expired.exists_refused {refused' : Option String} {k' : Keeper}
    (h : Expired b now gone (some key) k) (h' : Expired b now gone' refused' k')
    (hlength : gone.length = gone'.length) :
    ∃ time key', refused' = some key' ∧ b.expiry.time? key = some time ∧
      b.expiry.time? key' = some time ∧ Chosen b now time gone ∧ Chosen b now time gone' := by
  obtain ⟨time, hchosen, hlast⟩ := h.chosen
  obtain ⟨htime, hnew⟩ := hlast key rfl
  cases refused' with
  | none =>
      have hless : gone.length < gone'.length :=
        hchosen.length_lt h.forgot.nodup htime hnew fun other t ht hle =>
          h'.mem_iff.mpr ⟨t, ht, UInt64.le_trans hle hchosen.due⟩
      omega
  | some key' =>
      obtain ⟨time', hchosen', hlast'⟩ := h'.chosen
      obtain ⟨htime', hnew'⟩ := hlast' key' rfl
      have hle := hchosen'.not_time_lt hchosen h'.forgot.nodup htime' hnew' hlength.symm
      have hge := hchosen.not_time_lt hchosen' h.forgot.nodup htime hnew hlength
      obtain rfl : time = time' :=
        UInt64.le_antisymm (UInt64.not_lt.mp hle) (UInt64.not_lt.mp hge)
      exact ⟨time, key', rfl, htime, htime', hchosen, hchosen'⟩

end Keys

/-! ## The sweep for room -/

/-- The sweep for room has read some sizes and given up the first keys of the policy. -/
structure Evicting (b : Keeper) (readings : List Nat) (gone : List String) (k : Keeper) :
    Prop where
  forgot : Forgot b gone k
  first : gone = b.policy.keys.take gone.length
  exceeds : ∀ i size, readings[i]? = some size → b.limit < size - i
  stage : (∃ issued, k.stage = .measuring issued ∧ issued.length = gone.length ∧
      readings.length = gone.length) ∨
    ∃ victim issued, k.stage = .evicting victim issued ∧ issued.length = gone.length ∧
      readings.length = gone.length + 1 ∧ k.policy.keys.head? = some victim

/-- The sweep for room has tried all the deletions that it tries. -/
structure Evicted (b : Keeper) (readings : List Nat) (gone : List String)
    (refused : Option String) (k : Keeper) : Prop where
  pending : k.stage.pending = []
  forgot : Forgot b gone k
  first : gone = b.policy.keys.take gone.length
  length_readings : readings.length = gone.length + 1
  exceeds : ∀ i size, readings[i]? = some size → i < gone.length ∨ refused ≠ none →
    b.limit < size - i
  next : ∀ key, refused = some key → k.policy.keys.head? = some key
  enough : refused = none → ∀ size, readings[gone.length]? = some size →
    size - gone.length ≤ b.limit ∨ k.policy.keys = []

theorem Forgot.keys_of_first (h : Forgot b gone k) (hb : b.policy.Sound)
    (hfirst : gone = b.policy.keys.take gone.length) :
    k.policy.keys = b.policy.keys.drop gone.length := by
  rw [h.keys hb]
  conv_lhs => rw [hfirst]
  exact filter_not_mem_take hb.nodup_keys _

theorem evicting_start (hpolicy : k.policy.Sound) (hexpiry : k.expiry.Sound) :
    Evicting { k with stage := .measuring [] } [] [] { k with stage := .measuring [] } where
  forgot := forgot_start hpolicy hexpiry rfl (by simp)
  first := rfl
  exceeds := by simp
  stage := Or.inl ⟨[], rfl, rfl, rfl⟩

/-- The size that a step reads, if it reads the size. -/
def reading? (k : Keeper) (s : Shard) : Option Nat :=
  match k.stage with
  | .measuring _ => some s.size
  | _ => none

theorem exceeds_concat {readings : List Nat} {limit last : Nat}
    (h : ∀ i size, readings[i]? = some size → limit < size - i)
    (hlast : limit < last - readings.length) (i size : Nat)
    (hi : (readings ++ [last])[i]? = some size) : limit < size - i := by
  rcases Nat.lt_trichotomy i readings.length with hlt | rfl | hgt
  · rw [List.getElem?_append_left hlt] at hi
    exact h i size hi
  · rw [List.getElem?_concat_length] at hi
    obtain rfl := Option.some.inj hi
    exact hlast
  · rw [List.getElem?_append_right (by omega), List.getElem?_singleton,
      if_neg (by omega)] at hi
    cases hi

/-- What a step of the sweep for room does. -/
theorem Evicting.move {readings : List Nat} (hb : b.policy.Sound)
    (h : Evicting b readings gone k) (hmove : Move listing clock s k rs s' k') :
    (rs = [] ∧ s' = s ∧ (Evicting b (readings ++ (k.reading? s).toList) gone k' ∨
        Evicted b (readings ++ (k.reading? s).toList) gone none k' ∧
          ∃ deadline issued, k'.stage = .settling true deadline issued)) ∨
      (∃ key, rs = [.accepted .eviction s.tickets ⟨key, .delete⟩] ∧
        s' = { s.enqueue ⟨key, .delete⟩ with counters := s.counters.evict } ∧
        Evicting b (readings ++ (k.reading? s).toList) (gone ++ [key]) k') ∨
      ∃ key failure, rs = [.refused .eviction ⟨key, .delete⟩ failure] ∧ s' = s ∧
        Evicted b (readings ++ (k.reading? s).toList) gone (some key) k' ∧
        ∃ deadline issued, k'.stage = .settling true deadline issued := by
  have hmoved := hmove
  rcases h.stage with ⟨issued, hstage, hissued, hreadings⟩ |
    ⟨victim, issued, hstage, hissued, hreadings, hvictim⟩
  · have hread : k.reading? s = some s.size := by rw [reading?, hstage]
    have hpending : k.stage.pending = [] := by rw [hstage]; rfl
    rw [hread, Option.toList_some]
    cases hmove with
    | choose is victim hstage' hover hvictim =>
        obtain rfl := Stage.measuring.inj (hstage.symm.trans hstage')
        rw [h.forgot.limit] at hover
        refine Or.inl ⟨rfl, rfl, Or.inl ⟨h.forgot.turn hmoved rfl rfl hpending rfl, h.first,
          exceeds_concat h.exceeds (by omega), Or.inr ⟨victim, issued, rfl, hissued, ?_, ?_⟩⟩⟩
        · rw [List.length_append, List.length_singleton, hreadings]
        · exact h.forgot.sound.policy.victim?_eq.symm.trans hvictim
    | measured is hstage' henough =>
        obtain rfl := Stage.measuring.inj (hstage.symm.trans hstage')
        rw [h.forgot.limit] at henough
        refine Or.inl ⟨rfl, rfl, Or.inr ⟨⟨rfl, h.forgot.turn hmoved rfl rfl hpending rfl, h.first,
          ?_, fun i size hi hlt => ?_, by simp, fun _ size hsize => ?_⟩, _, _, rfl⟩⟩
        · rw [List.length_append, List.length_singleton, hreadings]
        · have hbefore : i < readings.length := by
            rw [hreadings]
            simpa using hlt
          rw [List.getElem?_append_left hbefore] at hi
          exact h.exceeds i size hi
        · rw [← hreadings, List.getElem?_concat_length] at hsize
          obtain rfl := Option.some.inj hsize
          rw [or_iff_not_imp_left]
          intro hover
          have hnone := henough (by omega)
          rw [h.forgot.sound.policy.victim?_eq, List.head?_eq_none_iff] at hnone
          exact hnone
    | _ => simp_all
  · have hread : k.reading? s = none := by rw [reading?, hstage]
    have hpending : k.stage.pending = [] := by rw [hstage]; rfl
    rw [hread, Option.toList_none, List.append_nil]
    cases hmove with
    | evict v is hstage' hnone =>
        obtain ⟨rfl, rfl⟩ := Stage.evicting.inj (hstage.symm.trans hstage')
        have hnext : b.policy.keys[gone.length]? = some victim := by
          rw [h.forgot.keys_of_first hb h.first, List.head?_drop] at hvictim
          exact hvictim
        have hnew : victim ∉ gone := fun hmem => by
          have hkept := List.mem_of_head? hvictim
          rw [h.forgot.keys hb, List.mem_filter] at hkept
          simp [hmem] at hkept
        refine Or.inr (Or.inl ⟨victim, rfl, rfl, ?_, ?_, h.exceeds, Or.inl ⟨_, rfl, ?_, ?_⟩⟩)
        · exact h.forgot.forget hmoved rfl
            (indexed_evict h.forgot.sound hpending victim _ _) hnew
        · rw [List.length_append, List.length_singleton, List.take_add_one, hnext, ← h.first]
          rfl
        · simp [hissued]
        · rw [hreadings, List.length_append, List.length_singleton]
    | halt v is failure hstage' hrefusal =>
        obtain ⟨rfl, rfl⟩ := Stage.evicting.inj (hstage.symm.trans hstage')
        refine Or.inr (Or.inr ⟨victim, failure, rfl, rfl, ⟨rfl, ?_, h.first, hreadings,
          fun i size hi _ => h.exceeds i size hi, ?_, by simp⟩, _, _, rfl⟩)
        · exact h.forgot.turn hmoved rfl rfl hpending rfl
        · rintro _ ⟨⟩
          exact hvictim
    | _ => simp_all

theorem Evicted.move {readings : List Nat} {refused : Option String} {deadline : Nat}
    {issued : List Nat} (h : Evicted b readings gone refused k)
    (hmove : Move listing clock s k rs s' k') (hstage : k.stage = .settling true deadline issued) :
    rs = [] ∧ s' = s ∧ Evicted b readings gone refused k' ∧
      ((∃ deadline issued, k'.stage = .settling true deadline issued) ∨ k'.stage = .resting) := by
  have hmoved := hmove
  cases hmove with
  | settled l d ticket rest hstage' hdone =>
      obtain ⟨rfl, rfl, rfl⟩ := Stage.settling.inj (hstage.symm.trans hstage')
      exact ⟨rfl, rfl, { h with
        pending := rfl
        forgot := h.forgot.turn hmoved rfl rfl h.pending rfl }, Or.inl ⟨_, _, rfl⟩⟩
  | finish d hstage' =>
      exact ⟨rfl, rfl, { h with
        pending := rfl
        forgot := h.forgot.turn hmoved rfl rfl h.pending rfl }, Or.inr rfl⟩
  | turn d hstage' => exact absurd (hstage.symm.trans hstage') (by simp)
  | _ => simp_all

/-! ## The end of a sweep -/

/-- How far a sweep is from its end. -/
def remaining (k : Keeper) : Nat :=
  match k.stage with
  | .expiring _ _ keys issued =>
    2 * (keys.length + k.expiry.keyCount) + k.expiry.size + issued.length + 2
  | .measuring issued => 3 * k.policy.size + issued.length + 3
  | .evicting _ issued => 3 * k.policy.size + issued.length + 2
  | .settling _ _ issued => issued.length + 1
  | _ => 0

theorem keyCount_of_poll {x y : ExpiryIndex} {bucket : Std.ExtTreeSet String} (h : x.Sound)
    (hearliest : x.earliest? = some (time, bucket)) (hpoll : x.poll? = some (bucket, y))
    (listing : Listing) : (listing.list bucket).length + y.keyCount = x.keyCount := by
  obtain ⟨rest, hrest, _, htimes⟩ := h.poll? hearliest
  rw [hpoll, Option.some.injEq, Prod.mk.injEq] at hrest
  obtain ⟨_, rfl⟩ := hrest
  have hperm := listing.perm bucket
  have hmem : ∀ key, key ∈ listing.list bucket ↔ key ∈ bucket := fun key => by
    rw [hperm.mem_iff, Std.ExtTreeSet.mem_toList]
  rw [Nat.add_comm]
  apply size_of_erased
  · exact hperm.nodup_iff.mpr (Std.ExtTreeSet.distinct_toList.imp fun h => by simpa using h)
  · intro key hkey
    have htime := (h.earliest?_mem hearliest key).mp ((hmem key).mp hkey)
    exact fun hnone => by simp [ExpiryIndex.time?, hnone] at htime
  · intro key
    simp only [hmem]
    exact htimes key

theorem size_delete_lt {p : Policy} (h : p.Sound) {key : String} (hkey : p.tracks key = true) :
    (p.delete key).size < p.size := by
  obtain ⟨hsound, hkeys⟩ := h.delete key
  rw [hsound.size_eq, h.size_eq, hkeys, List.length_filter_lt_length_iff_exists]
  exact ⟨key, h.tracks_iff.mp hkey, by simp⟩

/-- Every step of a sweep brings it closer to its end, unless it goes on to the other sweep. -/
theorem Move.remaining_lt (h : Move listing clock s k rs s' k') (hk : k.Sound)
    (hquiet : k.stage.budget? = none)
    (hturn : ∀ deadline, k.stage = .settling false deadline [] → k'.stage ≠ .measuring []) :
    k'.remaining < k.remaining := by
  cases h with
  | bucket now time time' issued bucket x hstage hearliest hpoll hdue =>
      have hcount := keyCount_of_poll hk.expiry hearliest hpoll listing
      have hsize := ExpiryIndex.size_poll? hearliest hpoll
      simp only [remaining, hstage, List.length_nil]
      omega
  | swept now time issued hstage hnone =>
      simp only [remaining, hstage, settle, List.length_nil]
      omega
  | expire now time key rest issued hstage hnone =>
      simp only [remaining, hstage, List.length_cons, List.length_append, List.length_nil]
      omega
  | giveBack now time key rest issued failure hstage hrefusal =>
      simp only [remaining, hstage, settle]
      omega
  | choose issued victim hstage hover hvictim =>
      simp only [remaining, hstage]
      omega
  | measured issued hstage henough =>
      simp only [remaining, hstage, settle]
      omega
  | evict victim issued hstage hnone =>
      have hless := size_delete_lt hk.policy (hk.victim victim issued hstage)
      simp only [remaining, hstage, List.length_append, List.length_singleton]
      omega
  | halt victim issued failure hstage hrefusal =>
      simp only [remaining, hstage, settle]
      omega
  | settled last deadline ticket issued hstage hdone =>
      simp [remaining, hstage, settle]
  | turn deadline hstage => exact absurd rfl (hturn deadline hstage)
  | finish deadline hstage => simp [remaining, hstage, Keeper.finish]
  | note e rest left hwaiting hstage =>
      rcases hstage with ⟨d, hstage, _⟩ | hstage <;> simp [hstage, Stage.budget?] at hquiet
  | pause deadline hstage hspent => simp [hstage, Stage.budget?] at hquiet
  | sweep hstage =>
      rcases hstage with ⟨d, hstage, _⟩ | ⟨d, hstage, _⟩ | ⟨d, hstage, _⟩ <;>
        simp [hstage, Stage.budget?] at hquiet

end Keeper

end ClusterCache
