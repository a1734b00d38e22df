import ClusterCache.Eviction.KeyQueue
import ClusterCache.Proofs.DistinctKeys
import ClusterCache.Proofs.SlotList

/-!
# Key queues as lists of keys

In a sound queue the index names the slot of every key in the order and nothing else.  Such a
queue is a list of distinct keys: touching a key moves it to the end, removing a key takes it
out, and the front is the head of the list.
-/

namespace ClusterCache.KeyQueue

open Std

/-- The keys of a queue, front to back. -/
def keys (q : KeyQueue) : List String := q.order.toList

/-- The order holds these keys in these slots, and the index says so. -/
structure Holds (q : KeyQueue) (xs : List (Nat × String)) : Prop where
  order : q.order.Holds xs
  slots : ∀ key slot, q.slots[key]? = some slot ↔ (slot, key) ∈ xs

/-- The order and the index of a queue agree. -/
def Sound (q : KeyQueue) : Prop := ∃ xs, q.Holds xs

theorem sound_empty : Sound empty :=
  ⟨[], SlotList.holds_empty, fun key slot => by simp [empty]⟩

theorem Holds.keys_eq {q : KeyQueue} {xs : List (Nat × String)} (h : q.Holds xs) :
    q.keys = xs.map (·.2) := SlotList.toList_eq h.order

theorem Holds.nodup {q : KeyQueue} {xs : List (Nat × String)} (h : q.Holds xs) :
    (xs.map (·.2)).Nodup :=
  nodup_values_of_index h.order.nodup fun key slot slot' hs hs' =>
    Option.some.inj (((h.slots key slot).mpr hs).symm.trans ((h.slots key slot').mpr hs'))

theorem Sound.nodup_keys {q : KeyQueue} (h : q.Sound) : q.keys.Nodup := by
  obtain ⟨xs, hxs⟩ := h
  rw [hxs.keys_eq]
  exact hxs.nodup

theorem Holds.mem_keys_iff {q : KeyQueue} {xs : List (Nat × String)} (h : q.Holds xs)
    {key : String} : key ∈ xs.map (·.2) ↔ ∃ slot, q.slots[key]? = some slot := by
  simp [h.slots]

theorem Sound.contains_iff {q : KeyQueue} (h : q.Sound) {key : String} :
    q.contains key = true ↔ key ∈ q.keys := by
  obtain ⟨xs, hxs⟩ := h
  rw [hxs.keys_eq, hxs.mem_keys_iff, contains, ExtTreeMap.contains_eq_isSome_getElem?,
    Option.isSome_iff_exists]

theorem Sound.front?_eq {q : KeyQueue} (h : q.Sound) : q.front? = q.keys.head? := by
  obtain ⟨xs, hxs⟩ := h
  rw [hxs.keys_eq]
  exact SlotList.front?_eq hxs.order

/-- A key that is taken out leaves the other keys in their order. -/
theorem Sound.remove {q : KeyQueue} (h : q.Sound) (key : String) :
    (q.remove key).Sound ∧ (q.remove key).keys = q.keys.filter (· ≠ key) := by
  obtain ⟨xs, hxs⟩ := h
  cases hs : q.slots[key]? with
  | none =>
      have hsame : q.remove key = q := by simp [KeyQueue.remove, hs]
      have hfresh : key ∉ xs.map (·.2) := by simp [hxs.mem_keys_iff, hs]
      rw [hsame, hxs.keys_eq]
      refine ⟨⟨xs, hxs⟩, (List.filter_eq_self.mpr fun k hk => ?_).symm⟩
      simpa using fun heq : k = key => hfresh (heq ▸ hk)
  | some slot =>
      obtain ⟨as, bs, rfl⟩ := List.append_of_mem ((hxs.slots key slot).mp hs)
      have hnd := hxs.nodup
      have hnew : (q.remove key).Holds (as ++ bs) := by
        refine ⟨by simpa [KeyQueue.remove, hs] using SlotList.holds_erase hxs.order,
          fun other slot' => ?_⟩
        have hnd' := hnd
        rw [List.map_append, List.map_cons, List.nodup_middle, List.nodup_cons,
          List.mem_append, not_or] at hnd'
        simp only [KeyQueue.remove, hs, ExtTreeMap.getElem?_erase]
        by_cases hk : key = other
        · subst hk
          simp only [compare_self, if_true]
          constructor
          · exact fun h => absurd h (by simp)
          · intro hmem
            rcases List.mem_append.mp hmem with hm | hm
            · exact absurd (List.mem_map.mpr ⟨_, hm, rfl⟩) hnd'.1.1
            · exact absurd (List.mem_map.mpr ⟨_, hm, rfl⟩) hnd'.1.2
        · rw [if_neg (by simpa using hk), hxs.slots]
          simp [Ne.symm hk]
      refine ⟨⟨_, hnew⟩, ?_⟩
      rw [List.map_append, List.map_cons] at hnd
      rw [hnew.keys_eq, hxs.keys_eq, List.map_append, List.map_append, List.map_cons,
        filter_ne_middle _ _ hnd]

/-- A key that is touched goes to the end, wherever it was before. -/
theorem Sound.touch {q : KeyQueue} (h : q.Sound) (key : String) :
    (q.touch key).Sound ∧ (q.touch key).keys = q.keys.filter (· ≠ key) ++ [key] := by
  obtain ⟨hsound, hkeys⟩ := h.remove key
  obtain ⟨xs, hxs⟩ := hsound
  have hfresh : key ∉ xs.map (·.2) := by
    rw [← hxs.keys_eq, hkeys]
    simp
  have hpush := SlotList.holds_pushBack hxs.order key
  have hnew : (q.touch key).Holds (xs ++ [(((q.remove key).order.pushBack key).2, key)]) := by
    refine ⟨hpush, fun other slot => ?_⟩
    simp only [KeyQueue.touch, ExtTreeMap.getElem?_insert, List.mem_append, List.mem_singleton,
      Prod.mk.injEq]
    by_cases hk : key = other
    · subst hk
      have hnot : (slot, key) ∉ xs := fun hm => hfresh (List.mem_map.mpr ⟨_, hm, rfl⟩)
      simp [hnot, eq_comm]
    · rw [if_neg (by simpa using hk), hxs.slots]
      simp [Ne.symm hk]
  refine ⟨⟨_, hnew⟩, ?_⟩
  rw [hnew.keys_eq, ← hkeys, hxs.keys_eq]
  simp

theorem Sound.size_eq {q : KeyQueue} (h : q.Sound) : q.size = q.keys.length :=
  size_eq_length h.nodup_keys fun _ => h.contains_iff

end ClusterCache.KeyQueue
