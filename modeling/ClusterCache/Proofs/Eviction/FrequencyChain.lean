import ClusterCache.Eviction.FrequencyChain
import ClusterCache.Proofs.DistinctKeys
import ClusterCache.Proofs.Eviction.Levels
import ClusterCache.Proofs.SlotList

/-!
# Frequency chains as levels

A sound chain is a sequence of levels in ascending order.  Its two indexes name the bucket of
every number of accesses and the place of every key, and nothing else, so that no operation
looks for a bucket that is not there.  Counting an access and taking a key out are the
operations on levels.
-/

namespace ClusterCache.FrequencyChain

open Std Levels

/-- The levels that a sequence of buckets shows. -/
def levelsOf (rows : List (Nat × Bucket)) : List (Nat × List String) :=
  rows.map fun r => (r.2.frequency, r.2.keys.toList)

/-- The buckets stand in these slots in ascending order, and the indexes agree with them. -/
structure Framed (c : FrequencyChain) (rows : List (Nat × Bucket)) : Prop where
  buckets : c.buckets.Holds rows
  keys : ∀ r ∈ rows, ∃ xs, r.2.keys.Holds xs
  sorted : (rows.map (·.2.frequency)).Pairwise (· < ·)
  byFrequency : ∀ f slot,
    c.byFrequency[f]? = some slot ↔ ∃ b, (slot, b) ∈ rows ∧ b.frequency = f
  spots : ∀ key spot,
    c.spots[key]? = some spot ↔ ∃ b, (spot.bucket, b) ∈ rows ∧ b.keys.get? spot.slot = some key

/-- The chain is framed by buckets that hold keys and count from one. -/
def Sound (c : FrequencyChain) : Prop :=
  ∃ rows, c.Framed rows ∧ ∀ r ∈ rows, r.2.keys.isEmpty = false ∧ 1 ≤ r.2.frequency

theorem sound_empty : Sound empty :=
  ⟨[], ⟨SlotList.holds_empty, by simp, by simp, fun f slot => by simp [empty],
    fun key spot => by simp [empty]⟩, by simp⟩

theorem Framed.chain_eq {c : FrequencyChain} {rows : List (Nat × Bucket)} (h : c.Framed rows) :
    c.chain = levelsOf rows := by
  rw [chain, SlotList.toList_eq h.buckets, List.map_map]
  rfl

/-! ## Rows with one bucket in the middle -/

theorem exists_row_iff {xs ys : List (Nat × Bucket)} {s slot : Nat} {b : Bucket}
    {p : Bucket → Prop} :
    (∃ x, (slot, x) ∈ xs ++ (s, b) :: ys ∧ p x) ↔
      (∃ x, (slot, x) ∈ xs ++ ys ∧ p x) ∨ slot = s ∧ p b := by
  simp only [List.mem_append, List.mem_cons, Prod.mk.injEq]
  constructor
  · rintro ⟨x, hx | ⟨rfl, rfl⟩ | hx, hp⟩
    · exact Or.inl ⟨x, Or.inl hx, hp⟩
    · exact Or.inr ⟨rfl, hp⟩
    · exact Or.inl ⟨x, Or.inr hx, hp⟩
  · rintro (⟨x, hx | hx, hp⟩ | ⟨rfl, hp⟩)
    · exact ⟨x, Or.inl hx, hp⟩
    · exact ⟨x, Or.inr (Or.inr hx), hp⟩
    · exact ⟨b, Or.inr (Or.inl ⟨rfl, rfl⟩), hp⟩

theorem Framed.get?_bucket {c : FrequencyChain} {xs ys : List (Nat × Bucket)} {s : Nat}
    {b : Bucket} (h : c.Framed (xs ++ (s, b) :: ys)) : c.buckets.get? s = some b :=
  (SlotList.get?_eq_some_iff h.buckets).mpr (by simp)

/-- A bucket is replaced by one that counts as much. -/
theorem Framed.replace {c : FrequencyChain} {xs ys : List (Nat × Bucket)} {s : Nat} {b : Bucket}
    (h : c.Framed (xs ++ (s, b) :: ys)) (b' : Bucket) (hfreq : b'.frequency = b.frequency)
    (hkeys : ∃ es, b'.keys.Holds es) {spots : ExtTreeMap String Spot}
    (hspots : ∀ (key : String) (spot : Spot), spots[key]? = some spot ↔
      ∃ x, (spot.bucket, x) ∈ xs ++ (s, b') :: ys ∧ x.keys.get? spot.slot = some key) :
    ({ c with buckets := c.buckets.set s b', spots } : FrequencyChain).Framed
      (xs ++ (s, b') :: ys) := by
  refine ⟨SlotList.holds_set h.buckets _, ?_, ?_, ?_, hspots⟩
  · intro r hr
    rcases List.mem_append.mp hr with hr | hr
    · exact h.keys r (by simp [hr])
    · rcases List.mem_cons.mp hr with rfl | hr
      · exact hkeys
      · exact h.keys r (by simp [hr])
  · have hsorted := h.sorted
    rw [List.map_append, List.map_cons] at hsorted ⊢
    rwa [hfreq]
  · intro f slot
    rw [h.byFrequency, exists_row_iff, exists_row_iff, hfreq]

theorem Framed.absent {c : FrequencyChain} {rows : List (Nat × Bucket)} (h : c.Framed rows)
    {key : String} (hkey : c.spots[key]? = none) :
    ∀ r ∈ rows, ∀ slot, r.2.keys.get? slot ≠ some key := by
  intro r hr slot hget
  have hspot := (h.spots key ⟨r.1, slot⟩).mpr ⟨r.2, hr, hget⟩
  rw [hkey] at hspot
  exact absurd hspot (by simp)

/-! ## A key joins a bucket -/

theorem get?_pushBack {l : SlotList String} {xs : List (Nat × String)} (h : l.Holds xs)
    (key : String) {slot : Nat} {other : String} :
    (l.pushBack key).1.get? slot = some other ↔
      l.get? slot = some other ∨ slot = (l.pushBack key).2 ∧ other = key := by
  rw [SlotList.get?_eq_some_iff (SlotList.holds_pushBack h key), SlotList.get?_eq_some_iff h]
  simp

theorem framed_join {c : FrequencyChain} (xs ys : List (Nat × Bucket)) {s : Nat} {b : Bucket}
    {key : String} (h : c.Framed (xs ++ (s, b) :: ys)) (hkey : c.spots[key]? = none) :
    ∃ b', b'.frequency = b.frequency ∧ b'.keys.toList = b.keys.toList ++ [key] ∧
      b'.keys.isEmpty = false ∧ (c.join s key).Framed (xs ++ (s, b') :: ys) := by
  obtain ⟨es, hes⟩ := h.keys (s, b) (by simp)
  have hpush := SlotList.holds_pushBack hes key
  refine ⟨{ b with keys := (b.keys.pushBack key).1 }, rfl, ?_, ?_, ?_⟩
  · simp [SlotList.toList_eq hpush, SlotList.toList_eq hes]
  · rw [Bool.eq_false_iff, ne_eq, SlotList.isEmpty_iff hpush]
    simp
  · simp only [join, h.get?_bucket]
    apply h.replace { b with keys := (b.keys.pushBack key).1 } rfl ⟨_, hpush⟩
    intro other spot
    rw [lookup_insert, exists_row_iff, get?_pushBack hes key]
    by_cases hk : other = key
    · subst hk
      -- The key is in no bucket yet, so its spot is the new one.
      have hnone : ¬∃ x, (spot.bucket, x) ∈ xs ++ (s, b) :: ys ∧
          x.keys.get? spot.slot = some other :=
        fun ⟨x, hx, hget⟩ => h.absent hkey _ hx _ hget
      rw [exists_row_iff, not_or] at hnone
      rw [if_pos rfl, Option.some.injEq]
      constructor
      · rintro rfl
        exact Or.inr ⟨rfl, Or.inr ⟨rfl, rfl⟩⟩
      · rintro (hold | ⟨hbucket, hget | ⟨hslot, _⟩⟩)
        · exact absurd hold hnone.1
        · exact absurd ⟨hbucket, hget⟩ hnone.2
        · exact congrArg₂ Spot.mk hbucket.symm hslot.symm
    · rw [if_neg hk, h.spots, exists_row_iff]
      simp [hk]

/-! ## A key leaves its bucket -/

theorem erase_keys_spec {l : SlotList String} {xs : List (Nat × String)} (h : l.Holds xs)
    (hone : ∀ slot slot' key, l.get? slot = some key → l.get? slot' = some key → slot = slot')
    {slot : Nat} {key : String} (hkey : l.get? slot = some key) :
    (∃ zs, (l.erase slot).Holds zs) ∧
    (l.erase slot).toList = l.toList.filter (· ≠ key) ∧
    ∀ other k, (l.erase slot).get? other = some k ↔ l.get? other = some k ∧ k ≠ key := by
  obtain ⟨as, bs, rfl⟩ := List.append_of_mem ((SlotList.get?_eq_some_iff h).mp hkey)
  have herase := SlotList.holds_erase h
  have hnd := nodup_values_of_index h.nodup fun k s s' hs hs' =>
    hone s s' k ((SlotList.get?_eq_some_iff h).mpr hs) ((SlotList.get?_eq_some_iff h).mpr hs')
  rw [List.map_append, List.map_cons] at hnd
  refine ⟨⟨_, herase⟩, ?_, fun other k => ?_⟩
  · rw [SlotList.toList_eq herase, SlotList.toList_eq h, List.map_append, List.map_append,
      List.map_cons, filter_ne_middle _ _ hnd]
  · rw [SlotList.get?_eq_some_iff herase, SlotList.get?_eq_some_iff h]
    rw [List.nodup_middle, List.nodup_cons, List.mem_append, not_or] at hnd
    simp only [List.mem_append, List.mem_cons, Prod.mk.injEq]
    constructor
    · intro hm
      refine ⟨hm.imp_right Or.inr, ?_⟩
      rintro rfl
      rcases hm with hm | hm
      · exact hnd.1.1 (List.mem_map.mpr ⟨_, hm, rfl⟩)
      · exact hnd.1.2 (List.mem_map.mpr ⟨_, hm, rfl⟩)
    · rintro ⟨hm | ⟨_, heq⟩ | hm, hne⟩
      · exact Or.inl hm
      · exact absurd heq hne
      · exact Or.inr hm

theorem Framed.slot_unique {c : FrequencyChain} {rows : List (Nat × Bucket)} (h : c.Framed rows)
    {s s' slot slot' : Nat} {b b' : Bucket} {key : String} (hb : (s, b) ∈ rows)
    (hb' : (s', b') ∈ rows) (hk : b.keys.get? slot = some key)
    (hk' : b'.keys.get? slot' = some key) : s = s' ∧ slot = slot' := by
  have h₁ := (h.spots key ⟨s, slot⟩).mpr ⟨b, hb, hk⟩
  have h₂ := (h.spots key ⟨s', slot'⟩).mpr ⟨b', hb', hk'⟩
  simpa using h₁.symm.trans h₂

theorem Framed.slot_unique_in {c : FrequencyChain} {rows : List (Nat × Bucket)}
    (h : c.Framed rows) (s : Nat) {slot slot' : Nat} {b : Bucket} {key : String}
    (hb : (s, b) ∈ rows) (hk : b.keys.get? slot = some key)
    (hk' : b.keys.get? slot' = some key) : slot = slot' :=
  (h.slot_unique hb hb hk hk').2

theorem Framed.only_here {c : FrequencyChain} {xs ys : List (Nat × Bucket)} {s t : Nat}
    {b : Bucket} {key : String} (h : c.Framed (xs ++ (s, b) :: ys))
    (hkey : b.keys.get? t = some key) {u slot : Nat} {x : Bucket} (hx : (u, x) ∈ xs ++ ys) :
    x.keys.get? slot ≠ some key := by
  intro hget
  have hnd := h.buckets.nodup
  rw [List.map_append, List.map_cons, List.nodup_middle, ← List.map_append, List.nodup_cons] at hnd
  have hx' : (u, x) ∈ xs ++ (s, b) :: ys := by
    rcases List.mem_append.mp hx with hx | hx <;> simp [hx]
  have hu : u = s := (h.slot_unique hx' (by simp) hget hkey).1
  exact hnd.1 (List.mem_map.mpr ⟨_, hx, hu⟩)

/-- What stands in another bucket is another key. -/
theorem Framed.ne_of_elsewhere {c : FrequencyChain} {xs ys : List (Nat × Bucket)} {s t : Nat}
    {b : Bucket} {key : String} (h : c.Framed (xs ++ (s, b) :: ys))
    (hkey : b.keys.get? t = some key) {u slot : Nat} {other : String}
    (hother : ∃ x, (u, x) ∈ xs ++ ys ∧ x.keys.get? slot = some other) : other ≠ key := by
  rintro rfl
  obtain ⟨x, hx, hget⟩ := hother
  exact h.only_here hkey hx hget

/-- The buckets in front count less, those behind count more. -/
theorem Framed.frequency_lt {c : FrequencyChain} {xs ys : List (Nat × Bucket)} {s : Nat}
    {b : Bucket} (h : c.Framed (xs ++ (s, b) :: ys)) :
    (∀ r ∈ xs, r.2.frequency < b.frequency) ∧ ∀ r ∈ ys, b.frequency < r.2.frequency := by
  have hsorted := h.sorted
  rw [List.map_append, List.map_cons, List.pairwise_append, List.pairwise_cons] at hsorted
  obtain ⟨_, ⟨hys, _⟩, hxs⟩ := hsorted
  exact ⟨fun r hr => hxs _ (List.mem_map.mpr ⟨r, hr, rfl⟩) _ (by simp),
    fun r hr => hys _ (List.mem_map.mpr ⟨r, hr, rfl⟩)⟩

theorem Framed.frequency_ne {c : FrequencyChain} {xs ys : List (Nat × Bucket)} {s u : Nat}
    {b x : Bucket} (h : c.Framed (xs ++ (s, b) :: ys)) (hx : (u, x) ∈ xs ++ ys) :
    x.frequency ≠ b.frequency := by
  rcases List.mem_append.mp hx with hx | hx
  · exact Nat.ne_of_lt (h.frequency_lt.1 _ hx)
  · exact Nat.ne_of_gt (h.frequency_lt.2 _ hx)

theorem spots_erase_iff {c : FrequencyChain} {key other : String} {spot : Spot} :
    (c.spots.erase key)[other]? = some spot ↔ c.spots[other]? = some spot ∧ other ≠ key := by
  rw [lookup_erase]
  by_cases hk : other = key <;> simp [hk]

theorem framed_leave_kept {c : FrequencyChain} {xs ys : List (Nat × Bucket)} {s t : Nat}
    {b b' : Bucket} {key : String} (h : c.Framed (xs ++ (s, b) :: ys))
    (hb' : b' = { b with keys := b.keys.erase t }) (hkey : b.keys.get? t = some key)
    (hkept : b'.keys.isEmpty = false) :
    ({ c with spots := c.spots.erase key }.leave ⟨s, t⟩).Framed (xs ++ (s, b') :: ys) := by
  subst hb'
  obtain ⟨es, hes⟩ := h.keys (s, b) (by simp)
  obtain ⟨hholds, _, hget⟩ := erase_keys_spec hes (fun slot slot' k hk hk' =>
    h.slot_unique_in s (by simp) hk hk') hkey
  have hbucket := h.get?_bucket
  simp only [leave, hbucket, hkept, Bool.false_eq_true, if_false]
  apply h.replace { b with keys := b.keys.erase t } rfl hholds
  intro other spot
  rw [spots_erase_iff, h.spots, exists_row_iff, exists_row_iff, hget]
  constructor
  · rintro ⟨helsewhere | ⟨hbucket, hslot⟩, hne⟩
    · exact Or.inl helsewhere
    · exact Or.inr ⟨hbucket, hslot, hne⟩
  · rintro (helsewhere | ⟨hbucket, hslot, hne⟩)
    · exact ⟨Or.inl helsewhere, h.ne_of_elsewhere hkey helsewhere⟩
    · exact ⟨Or.inr ⟨hbucket, hslot⟩, hne⟩

theorem framed_leave_emptied {c : FrequencyChain} {xs ys : List (Nat × Bucket)} {s t : Nat}
    {b : Bucket} {key : String} (h : c.Framed (xs ++ (s, b) :: ys))
    (hkey : b.keys.get? t = some key) (hempty : (b.keys.erase t).isEmpty = true) :
    ({ c with spots := c.spots.erase key }.leave ⟨s, t⟩).Framed (xs ++ ys) := by
  obtain ⟨es, hes⟩ := h.keys (s, b) (by simp)
  obtain ⟨⟨zs, hzs⟩, _, hget⟩ := erase_keys_spec hes (fun slot slot' k hk hk' =>
    h.slot_unique_in s (by simp) hk hk') hkey
  have hlast : ∀ slot k, b.keys.get? slot = some k → k = key := by
    intro slot k hk
    by_contra hne
    have hmem := (hget slot k).mpr ⟨hk, hne⟩
    rw [SlotList.get?_eq_some_iff hzs, (SlotList.isEmpty_iff hzs).mp hempty] at hmem
    exact absurd hmem (by simp)
  have hsub : xs ++ ys ⊆ xs ++ (s, b) :: ys :=
    ((List.sublist_cons_self (s, b) ys).append_left xs).subset
  simp only [leave, h.get?_bucket, hempty, if_true]
  refine ⟨SlotList.holds_erase h.buckets, fun r hr => h.keys r (hsub hr), ?_, ?_, ?_⟩
  · exact h.sorted.sublist (((List.sublist_cons_self (s, b) ys).append_left xs).map _)
  · intro f slot
    rw [lookup_erase]
    by_cases hf : f = b.frequency
    · subst hf
      rw [if_pos rfl]
      constructor
      · exact fun hn => absurd hn (by simp)
      · rintro ⟨x, hx, hxf⟩
        exact absurd hxf (h.frequency_ne hx)
    · rw [if_neg hf, h.byFrequency, exists_row_iff]
      simp [Ne.symm hf]
  · intro other spot
    rw [spots_erase_iff, h.spots, exists_row_iff]
    constructor
    · rintro ⟨helsewhere | ⟨_, hslot⟩, hne⟩
      · exact helsewhere
      · exact absurd (hlast _ _ hslot) hne
    · exact fun helsewhere => ⟨Or.inl helsewhere, h.ne_of_elsewhere hkey helsewhere⟩

/-! ## New buckets -/

theorem framed_insert {c : FrequencyChain} (xs ys : List (Nat × Bucket)) {f new : Nat}
    {m : SlotList Bucket} (h : c.Framed (xs ++ ys))
    (hm : m.Holds (xs ++ (new, { frequency := f }) :: ys))
    (hxs : ∀ r ∈ xs, r.2.frequency < f) (hys : ∀ r ∈ ys, f < r.2.frequency) :
    ({ c with buckets := m, byFrequency := c.byFrequency.insert f new } :
      FrequencyChain).Framed (xs ++ (new, { frequency := f }) :: ys) := by
  refine ⟨hm, ?_, ?_, ?_, ?_⟩
  · intro r hr
    rcases List.mem_append.mp hr with hr | hr
    · exact h.keys r (List.mem_append_left _ hr)
    · rcases List.mem_cons.mp hr with rfl | hr
      · exact ⟨[], SlotList.holds_empty⟩
      · exact h.keys r (List.mem_append_right _ hr)
  · have hsorted := h.sorted
    rw [List.map_append, List.pairwise_append] at hsorted
    obtain ⟨hsx, hsy, hxy⟩ := hsorted
    rw [List.map_append, List.map_cons, List.pairwise_append, List.pairwise_cons]
    refine ⟨hsx, ⟨fun g hg => ?_, hsy⟩, fun g hg g' hg' => ?_⟩
    · obtain ⟨r, hr, rfl⟩ := List.mem_map.mp hg
      exact hys r hr
    · rcases List.mem_cons.mp hg' with rfl | hg'
      · obtain ⟨r, hr, rfl⟩ := List.mem_map.mp hg
        exact hxs r hr
      · exact hxy g hg g' hg'
  · intro g slot
    rw [lookup_insert, exists_row_iff]
    by_cases hf : g = f
    · subst hf
      have hnone : ¬∃ x, (slot, x) ∈ xs ++ ys ∧ x.frequency = g := by
        rintro ⟨x, hx, hxf⟩
        rcases List.mem_append.mp hx with hx | hx
        · exact absurd hxf (Nat.ne_of_lt (hxs _ hx))
        · exact absurd hxf (Nat.ne_of_gt (hys _ hx))
      rw [if_pos rfl, Option.some.injEq, or_iff_right hnone, and_iff_left rfl]
      exact eq_comm
    · rw [if_neg hf, h.byFrequency]
      simp [Ne.symm hf]
  · intro key spot
    have hempty : ({ frequency := f } : Bucket).keys.get? spot.slot ≠ some key := by
      rw [ne_eq, SlotList.get?_eq_some_iff SlotList.holds_empty]
      exact List.not_mem_nil
    rw [h.spots, exists_row_iff]
    simp [hempty]

theorem levelsOf_cons (r : Nat × Bucket) (rows : List (Nat × Bucket)) :
    levelsOf (r :: rows) = (r.2.frequency, r.2.keys.toList) :: levelsOf rows := rfl

theorem levelsOf_append (xs ys : List (Nat × Bucket)) :
    levelsOf (xs ++ ys) = levelsOf xs ++ levelsOf ys := List.map_append

/-- The bucket for one access more is right behind. -/
theorem Framed.next_row {c : FrequencyChain} {xs ys : List (Nat × Bucket)} {s s' : Nat}
    {b b' : Bucket} (h : c.Framed (xs ++ (s, b) :: ys)) (hb' : (s', b') ∈ xs ++ (s, b) :: ys)
    (hfreq : b'.frequency = b.frequency + 1) : ∃ zs, ys = (s', b') :: zs := by
  obtain ⟨hbefore, hafter⟩ := h.frequency_lt
  have hys : (s', b') ∈ ys := by
    rcases List.mem_append.mp hb' with hx | hx
    · have hlow : b'.frequency < b.frequency := hbefore _ hx
      omega
    · rcases List.mem_cons.mp hx with heq | hx
      · obtain ⟨_, rfl⟩ := Prod.mk.inj heq
        omega
      · exact hx
  obtain ⟨ps, zs, rfl⟩ := List.append_of_mem hys
  cases ps with
  | nil => exact ⟨zs, rfl⟩
  | cons r ps =>
      -- A bucket between the two would count more than one and less than the other.
      have hlow := hafter r (by simp)
      have hhigh : r.2.frequency < b'.frequency := by
        have hframed : c.Framed ((xs ++ (s, b) :: r :: ps) ++ (s', b') :: zs) := by simpa using h
        exact hframed.frequency_lt.1 r (by simp)
      omega

/-- The bucket for one access more is found right behind, or made there. -/
theorem withBucket?_spec {c : FrequencyChain} {xs ys : List (Nat × Bucket)} {s : Nat} {b : Bucket}
    (h : c.Framed (xs ++ (s, b) :: ys)) (key : String) :
    ∃ c' s' b' zs, c.withBucket? s (b.frequency + 1) = some (c', s') ∧ c'.spots = c.spots ∧
      c'.Framed (xs ++ (s, b) :: (s', b') :: zs) ∧ b'.frequency = b.frequency + 1 ∧
      (∀ r ∈ zs, r ∈ ys) ∧
      addKey (b.frequency + 1) key (levelsOf ys) =
        (b.frequency + 1, b'.keys.toList ++ [key]) :: levelsOf zs := by
  cases hf : c.byFrequency[b.frequency + 1]? with
  | some s' =>
      obtain ⟨b', hb', hfreq⟩ := (h.byFrequency _ _).mp hf
      obtain ⟨zs, rfl⟩ := h.next_row hb' hfreq
      refine ⟨c, s', b', zs, by rw [withBucket?, hf], rfl, h, hfreq,
        fun r hr => List.mem_cons_of_mem _ hr, ?_⟩
      rw [levelsOf_cons, hfreq, addKey_cons_self]
  | none =>
      have hnone : ∀ r ∈ xs ++ (s, b) :: ys, r.2.frequency ≠ b.frequency + 1 := by
        intro r hr hfreq
        rw [(h.byFrequency _ _).mpr ⟨r.2, hr, hfreq⟩] at hf
        exact absurd hf (by simp)
      obtain ⟨hbefore, hafter⟩ := h.frequency_lt
      have hbehind : ∀ r ∈ ys, b.frequency + 1 < r.2.frequency := by
        intro r hr
        have hlow := hafter r hr
        have hne := hnone r (by simp [hr])
        omega
      obtain ⟨m, new, hins, hholds⟩ := SlotList.holds_insertAfter? h.buckets
        ({ frequency := b.frequency + 1 } : Bucket)
      have hframed := framed_insert (xs ++ [(s, b)]) ys (c := c) (by simpa using h)
        (by simpa using hholds) (by
          intro r hr
          rcases List.mem_append.mp hr with hr | hr
          · exact Nat.lt_succ_of_lt (hbefore r hr)
          · rw [List.mem_singleton.mp hr]
            exact Nat.lt_succ_self _) hbehind
      refine ⟨{ c with buckets := m, byFrequency := c.byFrequency.insert (b.frequency + 1) new }, new,
        { frequency := b.frequency + 1 }, ys,
        by simp only [withBucket?, hf, hins]; rfl, rfl, by simpa using hframed, rfl,
        fun r hr => hr, ?_⟩
      rw [addKey_of_lt]
      · simp [SlotList.toList_eq SlotList.holds_empty]
      · intro l hl
        obtain ⟨r, hr, rfl⟩ := List.mem_map.mp hl
        exact hbehind r hr

/-! ## The operations on levels -/

theorem isEmpty_eq_false_iff {l : SlotList String} {xs : List (Nat × String)} (h : l.Holds xs) :
    l.isEmpty = false ↔ l.toList ≠ [] := by
  rw [Bool.eq_false_iff, ne_eq, SlotList.isEmpty_iff h, SlotList.toList_eq h, ne_eq,
    List.map_eq_nil_iff]

theorem leave_spec {c : FrequencyChain} {xs ys : List (Nat × Bucket)} {s t : Nat} {b : Bucket}
    {key : String} (h : c.Framed (xs ++ (s, b) :: ys)) (hkey : b.keys.get? t = some key) :
    ∃ ms, ({ c with spots := c.spots.erase key }.leave ⟨s, t⟩).Framed (xs ++ (ms ++ ys)) ∧
      (∀ r ∈ ms, r.2.keys.isEmpty = false ∧ r.2.frequency = b.frequency) ∧
      levelsOf ms = dropKey key [(b.frequency, b.keys.toList)] := by
  obtain ⟨es, hes⟩ := h.keys (s, b) (by simp)
  obtain ⟨⟨zs, hzs⟩, hlist, _⟩ := erase_keys_spec hes (fun slot slot' k hk hk' =>
    h.slot_unique_in s (by simp) hk hk') hkey
  simp only at hzs hlist
  cases hempty : (b.keys.erase t).isEmpty with
  | true =>
      have hnil : (b.keys.erase t).toList = [] := by
        rw [SlotList.toList_eq hzs, (SlotList.isEmpty_iff hzs).mp hempty, List.map_nil]
      refine ⟨[], framed_leave_emptied h hkey hempty, by simp, ?_⟩
      rw [dropKey_singleton, ← hlist, hnil]
      rfl
  | false =>
      have hcons := (isEmpty_eq_false_iff hzs).mp hempty
      refine ⟨[(s, { b with keys := b.keys.erase t })],
        framed_leave_kept h rfl hkey hempty, by simp [hempty], ?_⟩
      rw [dropKey_singleton, ← hlist, List.filter_cons_of_pos (by simpa using hcons)]
      rfl

theorem dropKey_levelsOf {rows : List (Nat × Bucket)} {key : String}
    (hkeys : ∀ r ∈ rows, ∃ xs, r.2.keys.Holds xs) (hfull : ∀ r ∈ rows, r.2.keys.isEmpty = false)
    (habsent : ∀ r ∈ rows, ∀ slot, r.2.keys.get? slot ≠ some key) :
    dropKey key (levelsOf rows) = levelsOf rows := by
  apply dropKey_eq_self
  intro l hl
  obtain ⟨r, hr, rfl⟩ := List.mem_map.mp hl
  obtain ⟨xs, hxs⟩ := hkeys r hr
  refine ⟨fun hmem => ?_, (isEmpty_eq_false_iff hxs).mp (hfull r hr)⟩
  simp only [SlotList.toList_eq hxs, List.mem_map] at hmem
  obtain ⟨⟨slot, k⟩, hx, rfl⟩ := hmem
  exact habsent r hr slot ((SlotList.get?_eq_some_iff hxs).mpr hx)

theorem dropKey_levelsOf_middle {c : FrequencyChain} {xs ys : List (Nat × Bucket)} {s t : Nat}
    {b : Bucket} {key : String} (h : c.Framed (xs ++ (s, b) :: ys))
    (hfull : ∀ r ∈ xs ++ (s, b) :: ys, r.2.keys.isEmpty = false)
    (hkey : b.keys.get? t = some key) :
    dropKey key (levelsOf (xs ++ (s, b) :: ys)) =
      levelsOf xs ++ (dropKey key [(b.frequency, b.keys.toList)] ++ levelsOf ys) := by
  have hxs : dropKey key (levelsOf xs) = levelsOf xs :=
    dropKey_levelsOf (fun r hr => h.keys r (by simp [hr]))
      (fun r hr => hfull r (by simp [hr])) fun r hr _ => h.only_here hkey (List.mem_append_left _ hr)
  have hys : dropKey key (levelsOf ys) = levelsOf ys :=
    dropKey_levelsOf (fun r hr => h.keys r (by simp [hr]))
      (fun r hr => hfull r (by simp [hr])) fun r hr _ => h.only_here hkey (List.mem_append_right _ hr)
  rw [levelsOf_append, levelsOf_cons, dropKey_append, hxs]
  have hcons := dropKey_append key [(b.frequency, b.keys.toList)] (levelsOf ys)
  rw [List.singleton_append, hys] at hcons
  rw [hcons]

theorem Sound.remove {c : FrequencyChain} (h : c.Sound) (key : String) :
    (c.remove key).Sound ∧ (c.remove key).chain = dropKey key c.chain := by
  obtain ⟨rows, hrows, hfull⟩ := h
  cases hs : c.spots[key]? with
  | none =>
      have hsame : c.remove key = c := by simp [FrequencyChain.remove, hs]
      rw [hsame, hrows.chain_eq]
      exact ⟨⟨rows, hrows, hfull⟩, (dropKey_levelsOf hrows.keys
        (fun r hr => (hfull r hr).1) (hrows.absent hs)).symm⟩
  | some spot =>
      obtain ⟨b, hb, hget⟩ := (hrows.spots key spot).mp hs
      obtain ⟨xs, ys, rfl⟩ := List.append_of_mem hb
      obtain ⟨ms, hms, hmfull, hlevels⟩ := leave_spec hrows hget
      have hremove : c.remove key = { c with spots := c.spots.erase key }.leave spot := by
        simp [FrequencyChain.remove, hs]
      rw [hremove]
      refine ⟨⟨_, hms, fun r hr => ?_⟩, ?_⟩
      · rcases List.mem_append.mp hr with hr | hr
        · exact hfull r (by simp [hr])
        · rcases List.mem_append.mp hr with hr | hr
          · have hb' := (hfull _ hb).2
            rw [← (hmfull r hr).2] at hb'
            exact ⟨(hmfull r hr).1, hb'⟩
          · exact hfull r (by simp [hr])
      · rw [hms.chain_eq, hrows.chain_eq,
          dropKey_levelsOf_middle hrows (fun r hr => (hfull r hr).1) hget, levelsOf_append,
          levelsOf_append, hlevels]

theorem leave_spots (c : FrequencyChain) (spot : Spot) (spots : ExtTreeMap String Spot) :
    { c with spots }.leave spot = { c.leave spot with spots } := by
  simp only [leave]
  cases c.buckets.get? spot.bucket with
  | none => rfl
  | some b =>
      simp only
      split <;> rfl

theorem spots_leave (c : FrequencyChain) (spot : Spot) : (c.leave spot).spots = c.spots := by
  simp only [leave]
  cases c.buckets.get? spot.bucket with
  | none => rfl
  | some b =>
      simp only
      split <;> rfl

/-- Which spots are recorded makes no difference to the buckets that are left. -/
theorem Framed.get?_leave {c : FrequencyChain} {xs ys : List (Nat × Bucket)} {s : Nat} {b : Bucket}
    {spot : Spot} {spots : ExtTreeMap String Spot}
    (h : ({ c with spots }.leave spot).Framed (xs ++ (s, b) :: ys)) :
    (c.leave spot).buckets.get? s = some b := by
  have hbucket := h.get?_bucket
  rw [leave_spots] at hbucket
  exact hbucket

/-- A key that joins a bucket need not have been forgotten before. -/
theorem join_erase {c : FrequencyChain} {s : Nat} {b : Bucket} (h : c.buckets.get? s = some b)
    (key : String) : { c with spots := c.spots.erase key }.join s key = c.join s key := by
  have hins : ∀ spot : Spot, (c.spots.erase key).insert key spot = c.spots.insert key spot := by
    intro spot
    apply ExtTreeMap.ext_getElem?
    intro other
    rw [ExtTreeMap.getElem?_insert, ExtTreeMap.getElem?_insert, ExtTreeMap.getElem?_erase]
    by_cases hk : key = other <;> simp [hk]
  simp only [join, h, hins]

theorem frequency?_eq_some {c : FrequencyChain} {xs ys : List (Nat × Bucket)} {b : Bucket}
    {key : String} {spot : Spot} (h : c.Framed (xs ++ (spot.bucket, b) :: ys))
    (hs : c.spots[key]? = some spot) : c.frequency? key = some b.frequency := by
  simp [frequency?, hs, h.get?_bucket]

/-- Counting an access to a tracked key moves it to the end of the next level. -/
theorem promote_spec {c : FrequencyChain} {rows : List (Nat × Bucket)} (h : c.Framed rows)
    (hfull : ∀ r ∈ rows, r.2.keys.isEmpty = false ∧ 1 ≤ r.2.frequency) {key : String} {spot : Spot}
    (hs : c.spots[key]? = some spot) :
    (c.promote key spot).Sound ∧ ∃ f, c.frequency? key = some f ∧
      (c.promote key spot).chain = addKey (f + 1) key (dropKey key (levelsOf rows)) := by
  obtain ⟨b, hb, hget⟩ := (h.spots key spot).mp hs
  obtain ⟨xs, ys, rfl⟩ := List.append_of_mem hb
  obtain ⟨c', s', b', zs, hwith, hspots, hframed, hfreq, hzs, hadd⟩ := withBucket?_spec h key
  obtain ⟨ms, hms, hmfull, hmlevels⟩ := leave_spec hframed hget
  have hleft := hms
  rw [← List.append_assoc] at hleft
  have hgone : ({ c' with spots := c'.spots.erase key }.leave spot).spots[key]? = none := by
    rw [spots_leave]
    simp
  obtain ⟨b'', hfreq', hkeys', hfull', hjoin⟩ := framed_join _ _ hleft hgone
  have hpromote : c.promote key spot =
      ({ c' with spots := c'.spots.erase key }.leave spot).join s' key := by
    have hbucket : (c'.leave spot).buckets.get? s' = some b' := hleft.get?_leave
    simp only [promote, h.get?_bucket, hwith]
    have herase := join_erase hbucket key
    rw [spots_leave] at herase
    rw [leave_spots c' spot (c'.spots.erase key)]
    exact herase.symm
  have hpos := (hfull _ hb).2
  refine ⟨⟨_, hpromote ▸ hjoin, fun r hr => ?_⟩, b.frequency, frequency?_eq_some h hs, ?_⟩
  · rcases List.mem_append.mp hr with hr | hr
    · rcases List.mem_append.mp hr with hr | hr
      · exact hfull r (by simp [hr])
      · exact ⟨(hmfull r hr).1, (hmfull r hr).2 ▸ hpos⟩
    · rcases List.mem_cons.mp hr with rfl | hr
      · refine ⟨hfull', ?_⟩
        simp only [hfreq', hfreq]
        omega
      · exact hfull r (by simp [hzs r hr])
  · have hlow : ∀ l ∈ levelsOf xs ++ levelsOf ms, l.1 < b.frequency + 1 := by
      intro l hl
      rcases List.mem_append.mp hl with hl | hl
      · obtain ⟨r, hr, rfl⟩ := List.mem_map.mp hl
        exact Nat.lt_succ_of_lt (h.frequency_lt.1 r hr)
      · obtain ⟨r, hr, rfl⟩ := List.mem_map.mp hl
        exact (hmfull r hr).2 ▸ Nat.lt_succ_self _
    rw [hpromote, hjoin.chain_eq,
      dropKey_levelsOf_middle h (fun r hr => (hfull r hr).1) hget, ← hmlevels, ← List.append_assoc,
      addKey_append _ hlow, hadd, levelsOf_append, levelsOf_append, levelsOf_cons, hfreq', hfreq,
      hkeys']

/-- Counting an access to a new key puts it at the end of the first level. -/
theorem enter_spec {c : FrequencyChain} {rows : List (Nat × Bucket)} (h : c.Framed rows)
    (hfull : ∀ r ∈ rows, r.2.keys.isEmpty = false ∧ 1 ≤ r.2.frequency) {key : String}
    (hs : c.spots[key]? = none) :
    (c.enter key).Sound ∧ (c.enter key).chain = addKey 1 key (levelsOf rows) := by
  cases hf : c.byFrequency[1]? with
  | some s =>
      obtain ⟨b, hb, hfreq⟩ := (h.byFrequency 1 s).mp hf
      obtain ⟨xs, ys, rfl⟩ := List.append_of_mem hb
      have hnil : xs = [] := by
        apply List.eq_nil_iff_forall_not_mem.mpr
        intro r hr
        have hlow := h.frequency_lt.1 r hr
        have hpos := (hfull r (by simp [hr])).2
        omega
      subst hnil
      obtain ⟨b', hfreq', hkeys', hfull', hjoin⟩ := framed_join _ _ h hs
      have henter : c.enter key = c.join s key := by simp [enter, hf]
      refine ⟨⟨_, henter ▸ hjoin, fun r hr => ?_⟩, ?_⟩
      · rcases List.mem_cons.mp hr with rfl | hr
        · exact ⟨hfull', by simp only [hfreq', hfreq]; omega⟩
        · exact hfull r (by simp [hr])
      · rw [henter, hjoin.chain_eq, List.nil_append, List.nil_append, levelsOf_cons,
          levelsOf_cons, hfreq', hfreq, hkeys', addKey_cons_self]
  | none =>
      have hlow : ∀ r ∈ rows, 1 < r.2.frequency := by
        intro r hr
        have hpos := (hfull r hr).2
        have hne : r.2.frequency ≠ 1 := by
          intro hfreq
          rw [(h.byFrequency 1 r.1).mpr ⟨r.2, hr, hfreq⟩] at hf
          exact absurd hf (by simp)
        omega
      have hpush := SlotList.holds_pushFront h.buckets ({ frequency := 1 } : Bucket)
      have hframed := framed_insert [] rows h hpush (by simp) hlow
      obtain ⟨b', hfreq', hkeys', hfull', hjoin⟩ := framed_join [] _ hframed hs
      have henter : c.enter key =
          FrequencyChain.join { c with
            buckets := (c.buckets.pushFront { frequency := 1 }).1
            byFrequency := c.byFrequency.insert 1 (c.buckets.pushFront { frequency := 1 }).2 }
            (c.buckets.pushFront { frequency := 1 }).2 key := by simp [enter, hf]
      refine ⟨⟨_, henter ▸ hjoin, fun r hr => ?_⟩, ?_⟩
      · rcases List.mem_cons.mp hr with rfl | hr
        · exact ⟨hfull', by simp only [hfreq']; omega⟩
        · exact hfull r hr
      · rw [henter, hjoin.chain_eq, List.nil_append, levelsOf_cons, hfreq', hkeys', addKey_of_lt]
        · simp [SlotList.toList_eq SlotList.holds_empty]
        · intro l hl
          obtain ⟨r, hr, rfl⟩ := List.mem_map.mp hl
          exact hlow r hr

theorem Sound.access {c : FrequencyChain} (h : c.Sound) (key : String) :
    (c.access key).Sound ∧ (c.access key).chain =
      addKey ((c.frequency? key).getD 0 + 1) key (dropKey key c.chain) := by
  obtain ⟨rows, hrows, hfull⟩ := h
  cases hs : c.spots[key]? with
  | none =>
      have hfreq : c.frequency? key = none := by simp [frequency?, hs]
      have hsame : dropKey key (levelsOf rows) = levelsOf rows :=
        dropKey_levelsOf hrows.keys (fun r hr => (hfull r hr).1) (hrows.absent hs)
      rw [FrequencyChain.access, hs, hrows.chain_eq, hfreq, hsame]
      exact enter_spec hrows hfull hs
  | some spot =>
      obtain ⟨hsound, f, hfreq, hchain⟩ := promote_spec hrows hfull hs
      rw [FrequencyChain.access, hs, hrows.chain_eq, hfreq]
      exact ⟨hsound, hchain⟩

/-! ## The keys of a chain -/

theorem Framed.at_iff {c : FrequencyChain} {rows : List (Nat × Bucket)} (h : c.Framed rows)
    {f : Nat} {key : String} : At (levelsOf rows) f key ↔
      ∃ spot b, c.spots[key]? = some spot ∧ (spot.bucket, b) ∈ rows ∧ b.frequency = f := by
  constructor
  · rintro ⟨l, hl, hf, hk⟩
    obtain ⟨r, hr, rfl⟩ := List.mem_map.mp hl
    obtain ⟨xs, hxs⟩ := h.keys r hr
    rw [SlotList.toList_eq hxs] at hk
    obtain ⟨⟨slot, _⟩, hx, rfl⟩ := List.mem_map.mp hk
    exact ⟨⟨r.1, slot⟩, r.2,
      (h.spots _ _).mpr ⟨r.2, hr, (SlotList.get?_eq_some_iff hxs).mpr hx⟩, hr, hf⟩
  · rintro ⟨spot, b, hs, hb, hf⟩
    obtain ⟨b', hb', hget⟩ := (h.spots key spot).mp hs
    have hbb : b = b' := Option.some.inj
      (((SlotList.get?_eq_some_iff h.buckets).mpr hb).symm.trans
        ((SlotList.get?_eq_some_iff h.buckets).mpr hb'))
    subst hbb
    obtain ⟨xs, hxs⟩ := h.keys _ hb
    refine ⟨_, List.mem_map.mpr ⟨_, hb, rfl⟩, hf, ?_⟩
    rw [SlotList.toList_eq hxs]
    exact List.mem_map.mpr ⟨_, (SlotList.get?_eq_some_iff hxs).mp hget, rfl⟩

/-- The number of accesses of a key is the number of its level. -/
theorem Sound.frequency?_eq_some_iff {c : FrequencyChain} (h : c.Sound) {key : String} {f : Nat} :
    c.frequency? key = some f ↔ At c.chain f key := by
  obtain ⟨rows, hrows, _⟩ := h
  rw [hrows.chain_eq, hrows.at_iff]
  simp [frequency?, Option.bind_eq_some_iff, SlotList.get?_eq_some_iff hrows.buckets]

theorem Sound.contains_iff {c : FrequencyChain} (h : c.Sound) {key : String} :
    c.spots.contains key = true ↔ key ∈ ranking c.chain := by
  obtain ⟨rows, hrows, _⟩ := h
  rw [ExtTreeMap.contains_eq_isSome_getElem?, Option.isSome_iff_exists, hrows.chain_eq,
    mem_ranking_iff]
  constructor
  · rintro ⟨spot, hs⟩
    obtain ⟨b, hb, _⟩ := (hrows.spots key spot).mp hs
    exact ⟨b.frequency, hrows.at_iff.mpr ⟨spot, b, hs, hb, rfl⟩⟩
  · rintro ⟨f, hat⟩
    obtain ⟨spot, _, hs, _⟩ := hrows.at_iff.mp hat
    exact ⟨spot, hs⟩

theorem Sound.ascending {c : FrequencyChain} (h : c.Sound) :
    (c.chain.map (·.1)).Pairwise (· < ·) := by
  obtain ⟨rows, hrows, _⟩ := h
  rw [hrows.chain_eq, levelsOf, List.map_map]
  exact hrows.sorted

theorem frequency?_empty (key : String) : empty.frequency? key = none := by
  simp [frequency?, empty]

theorem Sound.frequency?_access {c : FrequencyChain} (h : c.Sound) (key other : String) :
    (c.access key).frequency? other =
      if other = key then some ((c.frequency? key).getD 0 + 1) else c.frequency? other := by
  obtain ⟨hsound, hchain⟩ := h.access key
  apply Option.ext
  intro f
  rw [hsound.frequency?_eq_some_iff, hchain, at_addKey, at_dropKey]
  by_cases hk : other = key
  · simp [hk, eq_comm]
  · simp [hk, h.frequency?_eq_some_iff]

theorem Sound.frequency?_remove {c : FrequencyChain} (h : c.Sound) (key other : String) :
    (c.remove key).frequency? other = if other = key then none else c.frequency? other := by
  obtain ⟨hsound, hchain⟩ := h.remove key
  apply Option.ext
  intro f
  rw [hsound.frequency?_eq_some_iff, hchain, at_dropKey]
  by_cases hk : other = key
  · simp [hk]
  · simp [hk, h.frequency?_eq_some_iff]

theorem Sound.nodup_ranking {c : FrequencyChain} (h : c.Sound) : (ranking c.chain).Nodup := by
  obtain ⟨rows, hrows, _⟩ := h
  rw [hrows.chain_eq, ranking, levelsOf, List.flatMap_map, List.nodup_flatMap]
  refine ⟨fun r hr => ?_, ?_⟩
  · obtain ⟨xs, hxs⟩ := hrows.keys r hr
    simp only [SlotList.toList_eq hxs]
    exact nodup_values_of_index hxs.nodup fun k s s' hs hs' =>
      hrows.slot_unique_in r.1 hr ((SlotList.get?_eq_some_iff hxs).mpr hs)
        ((SlotList.get?_eq_some_iff hxs).mpr hs')
  · refine (List.Pairwise.of_map _ (fun r r' hne => hne) hrows.buckets.nodup).imp_of_mem ?_
    intro r r' hr hr' hne key hk hk'
    obtain ⟨xs, hxs⟩ := hrows.keys r hr
    obtain ⟨xs', hxs'⟩ := hrows.keys r' hr'
    simp only [SlotList.toList_eq hxs, SlotList.toList_eq hxs', List.mem_map] at hk hk'
    obtain ⟨⟨slot, _⟩, hx, rfl⟩ := hk
    obtain ⟨⟨slot', _⟩, hx', heq⟩ := hk'
    simp only at heq
    subst heq
    exact hne (hrows.slot_unique hr hr' ((SlotList.get?_eq_some_iff hxs).mpr hx)
      ((SlotList.get?_eq_some_iff hxs').mpr hx')).1

theorem Sound.size_eq {c : FrequencyChain} (h : c.Sound) : c.size = (ranking c.chain).length :=
  size_eq_length h.nodup_ranking fun _ => h.contains_iff

theorem Sound.front?_eq {c : FrequencyChain} (h : c.Sound) :
    c.front? = (ranking c.chain).head? := by
  obtain ⟨rows, hrows, hfull⟩ := h
  rw [hrows.chain_eq, front?, SlotList.front?_eq hrows.buckets]
  cases rows with
  | nil => rfl
  | cons r rows =>
      obtain ⟨xs, hxs⟩ := hrows.keys r (by simp)
      have hcons := (isEmpty_eq_false_iff hxs).mp (hfull r (by simp)).1
      simp only [List.map_cons, List.head?_cons, levelsOf_cons, ranking, List.flatMap_cons]
      rw [List.head?_append_of_ne_nil _ hcons, SlotList.toList_eq hxs]
      exact SlotList.front?_eq hxs

end ClusterCache.FrequencyChain
