import ClusterCache.Proofs.Eviction.Notices

/-!
# Policies that give up the key moved longest ago

Two kinds of policy keep their keys in a queue and differ only in which notices move a key to its
end: puts alone, or puts and reads of keys in the queue.  Either way the keys in the queue are
those whose last put or deletion was a put, in the order of the latest notices that moved them.
-/

namespace ClusterCache.Policy

/-- A queue holds the keys that stand, in the order of their latest moves. -/
structure InTurn (q : KeyQueue) (moves : String → Notice → Prop) (history : List Notice) :
    Prop where
  sound : q.Sound
  mem_keys : ∀ key, key ∈ q.keys ↔ Stands key history
  order : q.keys.Pairwise fun a b => Earlier (moves a) (moves b) history

variable {q : KeyQueue} {moves : String → Notice → Prop} {history : List Notice}

theorem inTurn_empty (moves : String → Notice → Prop) : InTurn KeyQueue.empty moves [] where
  sound := KeyQueue.sound_empty
  mem_keys := fun key => iff_of_false List.not_mem_nil (not_stands_nil key)
  order := List.Pairwise.nil

/-- A notice that moves a key, and no other, sends it behind all others. -/
theorem InTurn.touch (h : InTurn q moves history) {n : Notice} {key : String}
    (hput : ∀ k, moves k (.put k)) (hmoves : ∀ k, moves k n ↔ k = key)
    (hstands : ∀ k, Stands k (history ++ [n]) ↔ k = key ∨ Stands k history) :
    InTurn (q.touch key) moves (history ++ [n]) := by
  obtain ⟨hsound, hkeys⟩ := h.sound.touch key
  have hmoved : ∀ k ∈ q.keys, ∃ m ∈ history, moves k m := fun k hk =>
    ⟨.put k, ((h.mem_keys k).mp hk).mem, hput k⟩
  refine ⟨hsound, fun k => ?_, ?_⟩
  · rw [mem_keys_touch h.sound, hstands, h.mem_keys]
  · rw [hkeys, List.pairwise_append]
    refine ⟨?_, List.pairwise_singleton _ _, fun a ha b hb => ?_⟩
    · apply pairwise_filter_ne h.order
      intro a b ha hb hab
      exact hab.skip (mt (hmoves a).mp ha) (mt (hmoves b).mp hb)
    · obtain ⟨hold, hne⟩ := List.mem_filter.mp ha
      rw [List.mem_singleton.mp hb]
      have hkept : ¬ moves a n := fun hm => by simp [(hmoves a).mp hm] at hne
      exact earlier_concat (hmoved a hold) hkept ((hmoves key).mpr rfl)

theorem InTurn.remove (h : InTurn q moves history) (key : String)
    (hmoves : ∀ k, ¬ moves k (.delete key)) :
    InTurn (q.remove key) moves (history ++ [.delete key]) := by
  obtain ⟨hsound, hkeys⟩ := h.sound.remove key
  refine ⟨hsound, fun k => ?_, ?_⟩
  · rw [hkeys, List.mem_filter, stands_delete, h.mem_keys, and_comm]
    simp
  · rw [hkeys]
    apply pairwise_filter_ne h.order
    intro a b _ _ hab
    exact hab.skip (hmoves a) (hmoves b)

/-- A read that moves no key of the queue leaves everything as it was. -/
theorem InTurn.skip (h : InTurn q moves history) {key : String}
    (hmoves : ∀ k ∈ q.keys, ¬ moves k (.get key)) : InTurn q moves (history ++ [.get key]) := by
  refine ⟨h.sound, fun k => ?_, h.order.imp_of_mem fun ha hb hab => ?_⟩
  · rw [stands_get, h.mem_keys]
  · exact hab.skip (hmoves _ ha) (hmoves _ hb)

/-- Puts move a key to the end of a queue that reads leave alone. -/
theorem inTurn_fifo (history : List Notice) :
    ∃ q, after .fifo history = .fifo q ∧ InTurn q (fun key n => n = .put key) history := by
  induction history using List.reverseRecOn with
  | nil => exact ⟨_, rfl, inTurn_empty _⟩
  | append_singleton history n ih =>
      obtain ⟨q, hq, hturn⟩ := ih
      rw [after_concat, hq]
      cases n with
      | put key =>
          exact ⟨_, rfl, hturn.touch (fun _ => rfl) (fun k => by simp [eq_comm]) fun k =>
            stands_put key k history⟩
      | get key => exact ⟨_, rfl, hturn.skip fun k _ => by simp⟩
      | delete key => exact ⟨_, rfl, hturn.remove key fun k => by simp⟩

/-- Puts move a key to the end of the queue, and so do reads of a key in the queue. -/
theorem inTurn_lru (history : List Notice) :
    ∃ q, after .lru history = .lru q ∧ InTurn q (fun key n => n.Accesses key) history := by
  induction history using List.reverseRecOn with
  | nil => exact ⟨_, rfl, inTurn_empty _⟩
  | append_singleton history n ih =>
      obtain ⟨q, hq, hturn⟩ := ih
      rw [after_concat, hq]
      cases n with
      | put key =>
          exact ⟨_, rfl, hturn.touch (fun _ => Or.inl rfl)
            (fun k => by simp [Notice.Accesses, eq_comm]) fun k => stands_put key k history⟩
      | get key =>
          by_cases hkey : q.contains key = true
          · have hstands := (hturn.mem_keys key).mp (hturn.sound.contains_iff.mp hkey)
            refine ⟨q.touch key, by simp [note, Policy.get, hkey], ?_⟩
            apply hturn.touch (fun _ => Or.inl rfl) (fun k => by simp [Notice.Accesses, eq_comm])
            intro k
            rw [stands_get, iff_or_self]
            rintro rfl
            exact hstands
          · refine ⟨q, by simp [note, Policy.get, hkey], hturn.skip fun k hk haccess => ?_⟩
            obtain rfl : key = k := by simpa [Notice.Accesses] using haccess
            exact hkey (hturn.sound.contains_iff.mpr hk)
      | delete key =>
          exact ⟨_, rfl, hturn.remove key fun k => by simp [Notice.Accesses]⟩

/-- Whatever a policy of one of the two kinds was told, it tracks the keys whose last put or
deletion was a put, so that a read never makes a key tracked, and it gives them up one after the
other: in the order of their latest puts or reads, or in the order of their latest puts.  To name
a victim changes nothing: a policy changes only by what it is told. -/
theorem oldest_first (history : List Notice) :
    (∃ keys, (after .lru history).GivesUp keys ∧ (∀ key, key ∈ keys ↔ Stands key history) ∧
      keys.Pairwise fun a b => Earlier (·.Accesses a) (·.Accesses b) history) ∧
    ∃ keys, (after .fifo history).GivesUp keys ∧ (∀ key, key ∈ keys ↔ Stands key history) ∧
      keys.Pairwise fun a b => Earlier (· = .put a) (· = .put b) history := by
  constructor
  · obtain ⟨q, hq, hturn⟩ := inTurn_lru history
    rw [hq]
    exact ⟨q.keys, Sound.givesUp (p := .lru q) hturn.sound, hturn.mem_keys, hturn.order⟩
  · obtain ⟨q, hq, hturn⟩ := inTurn_fifo history
    rw [hq]
    exact ⟨q.keys, Sound.givesUp (p := .fifo q) hturn.sound, hturn.mem_keys, hturn.order⟩

end ClusterCache.Policy
