import Std.Data.ExtTreeMap.Lemmas
import Std.Data.ExtTreeSet.Lemmas
import ClusterCache.ExpiryIndex
import ClusterCache.Proofs.DistinctKeys

/-!
# The expiry index as a map from keys to times

In a sound index a key stands in the bucket of a time exactly if that is its time, and no bucket
is empty.  Adding and removing a key are then the operations of a map, the earliest bucket holds
exactly the keys of the least time, and taking it out takes out these keys.
-/

namespace ClusterCache.ExpiryIndex

open Std

/-- The two sides of an index say the same. -/
structure Sound (x : ExpiryIndex) : Prop where
  mem_iff : ∀ (time : UInt64) (keys : ExtTreeSet String), x.buckets[time]? = some keys →
    ∀ key : String, key ∈ keys ↔ x.times[key]? = some time
  indexed : ∀ (key : String) (time : UInt64), x.times[key]? = some time →
    ∃ keys : ExtTreeSet String, x.buckets[time]? = some keys
  full : ∀ (time : UInt64) (keys : ExtTreeSet String), x.buckets[time]? = some keys → keys ≠ ∅

theorem ne_empty_of_mem {keys : ExtTreeSet String} {key : String} (h : key ∈ keys) : keys ≠ ∅ := by
  rintro rfl
  exact ExtTreeSet.not_mem_empty h

theorem exists_mem_of_ne_empty {keys : ExtTreeSet String} (h : keys ≠ ∅) : ∃ key, key ∈ keys := by
  by_contra hnone
  exact h (ExtTreeSet.eq_empty_iff_forall_not_mem.mpr (not_exists.mp hnone))

/-- The bucket of a time, empty if there is none, holds the keys of that time. -/
theorem Sound.mem_bucket {x : ExpiryIndex} (h : x.Sound) (time : UInt64) (key : String) :
    key ∈ (x.buckets[time]?).getD ∅ ↔ x.times[key]? = some time := by
  cases hb : x.buckets[time]? with
  | none =>
      simp only [Option.getD_none, ExtTreeSet.not_mem_empty, false_iff]
      intro htime
      obtain ⟨keys, hkeys⟩ := h.indexed key time htime
      rw [hb] at hkeys
      cases hkeys
  | some keys => exact h.mem_iff time keys hb key

theorem sound_empty : Sound empty := by
  refine ⟨fun time keys h => ?_, fun key time h => ?_, fun time keys h => ?_⟩ <;>
    simp [empty] at h

@[simp] theorem time?_empty (key : String) : empty.time? key = none := by
  simp [empty, time?]

theorem lookup_detach (buckets : ExtTreeMap UInt64 (ExtTreeSet String)) (time : UInt64)
    (key : String) (other : UInt64) :
    (detach buckets time key)[other]? =
      if other = time then
        (buckets[time]?.map fun keys : ExtTreeSet String compare => keys.erase key).filter
          fun keys : ExtTreeSet String compare => !keys.isEmpty
      else buckets[other]? := by
  rw [detach]
  cases hb : buckets[time]? with
  | none =>
      by_cases ho : other = time
      · simp [ho, hb]
      · simp [ho]
  | some keys =>
      cases he : (keys.erase key).isEmpty with
      | true => simp only [he, if_true, lookup_erase, Option.map_some, Option.filter_some,
          Bool.not_true, Bool.false_eq_true, if_false]
      | false => simp only [he, Bool.false_eq_true, if_false, lookup_insert, Option.map_some,
          Option.filter_some, Bool.not_false, if_true]

theorem Sound.detach {x : ExpiryIndex} (h : x.Sound) {time : UInt64} {key : String}
    (ht : x.times[key]? = some time) :
    Sound ⟨ExpiryIndex.detach x.buckets time key, x.times.erase key⟩ := by
  refine ⟨fun t keys hb other => ?_, fun other t ho => ?_, fun t keys hb => ?_⟩
  · simp only [lookup_detach, lookup_erase] at hb ⊢
    by_cases htime : t = time
    · subst htime
      rw [if_pos rfl, Option.filter_eq_some_iff] at hb
      obtain ⟨hmap, _⟩ := hb
      obtain ⟨old, hold, rfl⟩ := Option.map_eq_some_iff.mp hmap
      rw [ExtTreeSet.mem_erase, h.mem_iff _ _ hold]
      by_cases hk : other = key
      · simp [hk]
      · simp [hk, Ne.symm hk]
    · rw [if_neg htime] at hb
      rw [h.mem_iff _ _ hb]
      by_cases hk : other = key
      · simp [hk, ht, Ne.symm htime]
      · simp [hk]
  · simp only [lookup_detach, lookup_erase] at ho ⊢
    by_cases hk : other = key
    · simp [hk] at ho
    · rw [if_neg hk] at ho
      obtain ⟨keys, hkeys⟩ := h.indexed _ _ ho
      by_cases htime : t = time
      · subst htime
        rw [if_pos rfl, hkeys]
        refine ⟨keys.erase key, Option.filter_eq_some_iff.mpr ⟨rfl, ?_⟩⟩
        have hmem : other ∈ keys.erase key := by
          rw [ExtTreeSet.mem_erase, h.mem_iff _ _ hkeys]
          exact ⟨by simpa using Ne.symm hk, ho⟩
        simpa using ne_empty_of_mem hmem
      · exact ⟨keys, by rw [if_neg htime]; exact hkeys⟩
  · simp only [lookup_detach] at hb
    by_cases htime : t = time
    · rw [if_pos htime, Option.filter_eq_some_iff] at hb
      simpa using hb.2
    · rw [if_neg htime] at hb
      exact h.full _ _ hb

theorem Sound.remove {x : ExpiryIndex} (h : x.Sound) (key : String) :
    (x.remove key).Sound ∧
      ∀ other, (x.remove key).time? other = if other = key then none else x.time? other := by
  cases ht : x.times[key]? with
  | none =>
      have hsame : x.remove key = x := by simp [ExpiryIndex.remove, take, ht]
      rw [hsame]
      refine ⟨h, fun other => ?_⟩
      by_cases hk : other = key <;> simp [hk, time?, ht]
  | some time =>
      have hremove : x.remove key =
          ⟨ExpiryIndex.detach x.buckets time key, x.times.erase key⟩ := by
        simp [ExpiryIndex.remove, take, ht]
      rw [hremove]
      exact ⟨h.detach ht, lookup_erase x.times key⟩

theorem Sound.attach {x : ExpiryIndex} (h : x.Sound) (time : UInt64) {key : String}
    (hgone : x.times[key]? = none) :
    Sound ⟨ExpiryIndex.attach x.buckets time key, x.times.insert key time⟩ := by
  refine ⟨fun t keys hb other => ?_, fun other t ho => ?_, fun t keys hb => ?_⟩
  · simp only [ExpiryIndex.attach, lookup_insert] at hb ⊢
    by_cases ht : t = time
    · subst ht
      simp only [if_true, Option.some.injEq] at hb
      subst hb
      rw [ExtTreeSet.mem_insert]
      by_cases hk : other = key
      · simp [hk]
      · simp only [hk, if_false, Std.compare_eq_iff_eq, Ne.symm hk, false_or]
        exact h.mem_bucket t other
    · rw [if_neg ht] at hb
      rw [h.mem_iff _ _ hb]
      by_cases hk : other = key
      · simp [hk, hgone, Ne.symm ht]
      · simp [hk]
  · simp only [ExpiryIndex.attach, lookup_insert] at ho ⊢
    by_cases ht : t = time
    · exact ⟨_, by rw [if_pos ht]⟩
    · rw [if_neg ht]
      by_cases hk : other = key
      · rw [if_pos hk] at ho
        exact absurd (Option.some.inj ho).symm ht
      · rw [if_neg hk] at ho
        exact h.indexed _ _ ho
  · simp only [ExpiryIndex.attach, lookup_insert] at hb
    by_cases ht : t = time
    · rw [if_pos ht, Option.some.injEq] at hb
      have hmem : key ∈ keys := by
        rw [← hb, ExtTreeSet.mem_insert]
        simp
      exact ne_empty_of_mem hmem
    · rw [if_neg ht] at hb
      exact h.full _ _ hb

theorem Sound.add {x : ExpiryIndex} (h : x.Sound) (time : UInt64) (key : String) :
    (x.add time key).Sound ∧
      ∀ other, (x.add time key).time? other = if other = key then some time else x.time? other := by
  cases ht : x.times[key]? with
  | none =>
      have hadd : x.add time key =
          ⟨ExpiryIndex.attach x.buckets time key, x.times.insert key time⟩ := by
        simp [ExpiryIndex.add, ht]
      rw [hadd]
      exact ⟨h.attach time ht, lookup_insert x.times key time⟩
  | some previous =>
      by_cases hprevious : previous = time
      · -- The key stays in its bucket, and the index is what it was.
        subst hprevious
        have hadd : x.add previous key = ⟨x.buckets, x.times.insert key previous⟩ := by
          simp [ExpiryIndex.add, ht]
        have htimes : x.times.insert key previous = x.times := by
          apply ExtTreeMap.ext_getElem?
          intro other
          rw [lookup_insert]
          split_ifs with hk
          · rw [hk, ht]
          · rfl
        rw [hadd, htimes]
        refine ⟨h, fun other => ?_⟩
        split_ifs with hk
        · rw [hk, time?, ht]
        · rfl
      · -- The key is taken out of its bucket first.
        have htimes : (x.times.erase key).insert key time = x.times.insert key time := by
          apply ExtTreeMap.ext_getElem?
          intro other
          simp only [lookup_insert, lookup_erase]
          split_ifs <;> rfl
        have hadd : x.add time key =
            ⟨ExpiryIndex.attach (ExpiryIndex.detach x.buckets previous key) time key,
              x.times.insert key time⟩ := by
          simp [ExpiryIndex.add, ht, hprevious]
        have hgone : (x.times.erase key)[key]? = none := by simp
        have hmoved := (h.detach ht).attach time hgone
        rw [hadd]
        rw [htimes] at hmoved
        exact ⟨hmoved, lookup_insert x.times key time⟩

theorem Sound.addAll {x : ExpiryIndex} (h : x.Sound) (time : UInt64) (keys : List String) :
    (keys.foldl (fun x key => x.add time key) x).Sound ∧
      ∀ other, (keys.foldl (fun x key => x.add time key) x).time? other =
        if other ∈ keys then some time else x.time? other := by
  induction keys generalizing x with
  | nil => exact ⟨h, fun _ => by simp⟩
  | cons key keys ih =>
      obtain ⟨hadd, htime⟩ := h.add time key
      obtain ⟨hsound, hall⟩ := ih hadd
      refine ⟨hsound, fun other => ?_⟩
      rw [List.foldl_cons, hall, htime]
      by_cases hk : other = key <;> simp [hk]

theorem Sound.earliest?_eq_none {x : ExpiryIndex} (h : x.Sound) (he : x.earliest? = none)
    (key : String) : x.time? key = none := by
  rw [earliest?, List.head?_eq_none_iff, ExtTreeMap.toList_eq_nil_iff] at he
  cases ht : x.time? key with
  | none => rfl
  | some time =>
      obtain ⟨keys, hkeys⟩ := h.indexed _ _ ht
      rw [he] at hkeys
      simp at hkeys

theorem Sound.earliest?_mem {x : ExpiryIndex} (h : x.Sound) {time : UInt64}
    {keys : ExtTreeSet String} (he : x.earliest? = some (time, keys)) (key : String) :
    key ∈ keys ↔ x.time? key = some time := by
  have hmem := List.mem_of_head? he
  exact h.mem_iff _ _ (ExtTreeMap.mem_toList_iff_getElem?_eq_some.mp hmem) key

theorem Sound.exists_mem_earliest? {x : ExpiryIndex} (h : x.Sound) {time : UInt64}
    {keys : ExtTreeSet String} (he : x.earliest? = some (time, keys)) : ∃ key, key ∈ keys := by
  have hmem := List.mem_of_head? he
  apply exists_mem_of_ne_empty
  exact h.full time keys (ExtTreeMap.mem_toList_iff_getElem?_eq_some.mp hmem)

theorem Sound.earliest?_le {x : ExpiryIndex} (h : x.Sound) {time : UInt64}
    {keys : ExtTreeSet String} (he : x.earliest? = some (time, keys)) {key : String}
    {other : UInt64} (hk : x.time? key = some other) : time ≤ other := by
  obtain ⟨bucket, hbucket⟩ := h.indexed _ _ hk
  have hmem := ExtTreeMap.mem_toList_iff_getElem?_eq_some.mpr hbucket
  have hordered := ExtTreeMap.ordered_keys_toList (t := x.buckets)
  rw [earliest?] at he
  cases hl : x.buckets.toList with
  | nil => simp [hl] at he
  | cons b bs =>
      rw [hl] at he hmem hordered
      obtain rfl : b = (time, keys) := by simpa using he
      rcases List.mem_cons.mp hmem with heq | hmem
      · exact (Prod.mk.inj heq).1 ▸ UInt64.le_refl _
      · have hlt := (List.pairwise_cons.mp hordered).1 _ hmem
        exact UInt64.le_of_lt (compareOfLessAndEq_eq_lt.mp hlt)

/-- A sound index is determined by the times of its keys. -/
theorem Sound.ext {x y : ExpiryIndex} (hx : x.Sound) (hy : y.Sound)
    (h : ∀ key, x.time? key = y.time? key) : x = y := by
  have hkeys : ∀ time : UInt64, (x.buckets[time]?).getD ∅ = (y.buckets[time]?).getD ∅ := by
    intro time
    apply ExtTreeSet.ext_mem
    intro key
    rw [hx.mem_bucket, hy.mem_bucket, ← time?, ← time?, h]
  have hbuckets : x.buckets = y.buckets := by
    apply ExtTreeMap.ext_getElem?
    intro time
    have hsame := hkeys time
    cases hbx : x.buckets[time]? with
    | none =>
        cases hby : y.buckets[time]? with
        | none => rfl
        | some keys =>
            rw [hbx, hby] at hsame
            exact absurd hsame.symm (hy.full time keys hby)
    | some keys =>
        cases hby : y.buckets[time]? with
        | none =>
            rw [hbx, hby] at hsame
            exact absurd hsame (hx.full time keys hbx)
        | some keys' =>
            rw [hbx, hby] at hsame
            exact congrArg some hsame
  have htimes : x.times = y.times := ExtTreeMap.ext_getElem? h
  cases x
  cases y
  simp only [mk.injEq]
  exact ⟨hbuckets, htimes⟩

theorem lookup_eraseAll (times : ExtTreeMap String UInt64) (keys : List String) (other : String) :
    (keys.foldl (fun times key => times.erase key) times)[other]? =
      if other ∈ keys then none else times[other]? := by
  induction keys generalizing times with
  | nil => simp
  | cons key keys ih =>
      rw [List.foldl_cons, ih, lookup_erase]
      by_cases hk : other = key <;> simp [hk]

/-- Taking the earliest bucket out forgets the keys of the least time, and no others. -/
theorem Sound.poll? {x : ExpiryIndex} (h : x.Sound) {time : UInt64} {keys : ExtTreeSet String}
    (he : x.earliest? = some (time, keys)) :
    ∃ y : ExpiryIndex, x.poll? = some (keys, y) ∧ y.Sound ∧
      ∀ other, y.time? other = if other ∈ keys then none else x.time? other := by
  have hmem := h.earliest?_mem he
  have htimes : ∀ other : String,
      (keys.toList.foldl (fun times key => times.erase key) x.times)[other]? =
        if other ∈ keys then none else x.times[other]? := by
    intro other
    rw [lookup_eraseAll]
    simp
  refine ⟨⟨x.buckets.erase time,
    keys.toList.foldl (fun times key => times.erase key) x.times⟩, by simp [ExpiryIndex.poll?, he],
    ⟨fun t bucket hb other => ?_, fun other t ho => ?_, fun t bucket hb => ?_⟩, htimes⟩
  · simp only [lookup_erase, htimes] at hb ⊢
    by_cases ht : t = time
    · simp [ht] at hb
    · rw [if_neg ht] at hb
      rw [h.mem_iff _ _ hb]
      by_cases hk : other ∈ keys
      · have hother : x.times[other]? = some time := (hmem other).mp hk
        simp [hk, hother, Ne.symm ht]
      · simp [hk]
  · simp only [lookup_erase, htimes] at ho ⊢
    by_cases hk : other ∈ keys
    · simp [hk] at ho
    · rw [if_neg hk] at ho
      obtain ⟨bucket, hbucket⟩ := h.indexed _ _ ho
      have ht : t ≠ time := fun ht => hk ((hmem other).mpr (ht ▸ ho))
      exact ⟨bucket, by rw [if_neg ht]; exact hbucket⟩
  · simp only [lookup_erase] at hb
    by_cases ht : t = time
    · simp [ht] at hb
    · rw [if_neg ht] at hb
      exact h.full _ _ hb

end ClusterCache.ExpiryIndex
