import ClusterCache.Proofs.Eviction.Notices

/-!
# The policy that gives up the key accessed least often

The policy counts every put and every read of a key since its last deletion.  It gives up the keys
in ascending order of these counts and, among keys accessed equally often, in the order of their
latest accesses.
-/

namespace ClusterCache.Policy

open Levels

/-- One key was accessed less often than another since they were last deleted, or as often and
longer ago. -/
def LessUsed (history : List Notice) (a b : String) : Prop :=
  accessCount a history < accessCount b history ∨
    accessCount a history = accessCount b history ∧
      Earlier (·.Accesses a) (·.Accesses b) history

/-- A chain counts the accesses of a history and ranks the keys by them. -/
structure Counts (c : FrequencyChain) (history : List Notice) : Prop where
  sound : c.Sound
  count : ∀ key, c.frequency? key =
    if 0 < accessCount key history then some (accessCount key history) else none
  order : (ranking c.chain).Pairwise (LessUsed history)

variable {c : FrequencyChain} {history : List Notice}

theorem counts_empty : Counts FrequencyChain.empty [] where
  sound := FrequencyChain.sound_empty
  count := fun key => by simp [FrequencyChain.frequency?_empty]
  order := List.Pairwise.nil

theorem Counts.getD_frequency? (h : Counts c history) (key : String) :
    (c.frequency? key).getD 0 = accessCount key history := by
  rw [h.count]
  split_ifs with hpos
  · rfl
  · exact (Nat.eq_zero_of_not_pos hpos).symm

theorem Counts.mem_keys (h : Counts c history) (key : String) :
    key ∈ ranking c.chain ↔ 0 < accessCount key history := by
  rw [mem_ranking_iff]
  simp only [← h.sound.frequency?_eq_some_iff, h.count]
  split_ifs with hpos <;> simp [hpos]

theorem Counts.count_of_at (h : Counts c history) {f : Nat} {key : String} (hat : At c.chain f key) :
    0 < accessCount key history ∧ accessCount key history = f := by
  rw [← h.sound.frequency?_eq_some_iff, h.count] at hat
  split_ifs at hat with hpos
  exact ⟨hpos, Option.some.inj hat⟩

/-- What is told of a key makes no difference to how two others compare. -/
theorem LessUsed.skip {a b : String} (h : LessUsed history a b) {n : Notice}
    (ha : ¬ n.Accesses a ∧ n ≠ .delete a) (hb : ¬ n.Accesses b ∧ n ≠ .delete b) :
    LessUsed (history ++ [n]) a b := by
  rw [LessUsed, accessCount_skip ha.1 ha.2, accessCount_skip hb.1 hb.2]
  exact h.imp_right fun ⟨hcount, hearlier⟩ => ⟨hcount, hearlier.skip ha.1 hb.1⟩

theorem Counts.access (h : Counts c history) {n : Notice} {key : String} (hn : n.Accesses key) :
    Counts (c.access key) (history ++ [n]) := by
  obtain ⟨hsound, hchain⟩ := h.sound.access key
  have hother : ∀ k, k ≠ key → ¬ n.Accesses k ∧ n ≠ .delete k := by
    rcases hn with rfl | rfl <;> intro k hk <;> simp [Notice.Accesses, Ne.symm hk]
  have hcount := accessCount_access hn history
  refine ⟨hsound, fun k => ?_, ?_⟩
  · rw [h.sound.frequency?_access, h.getD_frequency?]
    by_cases hk : k = key
    · subst hk
      simp [hcount]
    · rw [if_neg hk, h.count, accessCount_skip (hother k hk).1 (hother k hk).2]
  · rw [hchain, h.getD_frequency?]
    apply pairwise_ranking_addKey (h.sound.ascending.sublist (map_dropKey_sublist key c.chain))
    · rw [ranking_dropKey]
      apply pairwise_filter_ne h.order
      intro a b ha hb hab
      exact hab.skip (hother a ha) (hother b hb)
    · -- Keys accessed less often go before, and so do those accessed as often, but longer ago.
      intro g k hat hle
      obtain ⟨hk, hat⟩ := at_dropKey.mp hat
      obtain ⟨hpos, rfl⟩ := h.count_of_at hat
      rw [LessUsed, accessCount_skip (hother k hk).1 (hother k hk).2, hcount]
      rcases Nat.lt_or_eq_of_le hle with hlt | heq
      · exact Or.inl hlt
      · exact Or.inr ⟨heq, earlier_concat (exists_accesses_of_pos hpos) (hother k hk).1 hn⟩
    · intro g k hat hlt
      obtain ⟨hk, hat⟩ := at_dropKey.mp hat
      obtain ⟨_, rfl⟩ := h.count_of_at hat
      rw [LessUsed, accessCount_skip (hother k hk).1 (hother k hk).2, hcount]
      exact Or.inl hlt

theorem Counts.remove (h : Counts c history) (key : String) :
    Counts (c.remove key) (history ++ [.delete key]) := by
  obtain ⟨hsound, hchain⟩ := h.sound.remove key
  have hother : ∀ k, k ≠ key → ¬ (Notice.delete key).Accesses k ∧ Notice.delete key ≠ .delete k :=
    fun k hk => by simp [Notice.Accesses, Ne.symm hk]
  refine ⟨hsound, fun k => ?_, ?_⟩
  · rw [h.sound.frequency?_remove]
    by_cases hk : k = key
    · subst hk
      simp [accessCount_delete]
    · rw [if_neg hk, h.count, accessCount_skip (hother k hk).1 (hother k hk).2]
  · rw [hchain, ranking_dropKey]
    apply pairwise_filter_ne h.order
    intro a b ha hb hab
    exact hab.skip (hother a ha) (hother b hb)

theorem counts_lfu (history : List Notice) :
    ∃ c, after .lfu history = .lfu c ∧ Counts c history := by
  induction history using List.reverseRecOn with
  | nil => exact ⟨_, rfl, counts_empty⟩
  | append_singleton history n ih =>
      obtain ⟨c, hc, hcounts⟩ := ih
      rw [after_concat, hc]
      cases n with
      | put key => exact ⟨_, rfl, hcounts.access (Or.inl rfl)⟩
      | get key => exact ⟨_, rfl, hcounts.access (Or.inr rfl)⟩
      | delete key => exact ⟨_, rfl, hcounts.remove key⟩

/-- Whatever the policy was told, it tracks the keys accessed since their last deletion, counts
their accesses, and gives them up one after the other: those accessed less often first and, of
those accessed equally often, the one whose latest access is longer ago.  To name a victim changes
nothing: a policy changes only by what it is told. -/
theorem least_used_first (history : List Notice) :
    ∃ keys, (after .lfu history).GivesUp keys ∧
      (∀ key, key ∈ keys ↔ 0 < accessCount key history) ∧
      (∀ key, (after .lfu history).frequency? key =
        if 0 < accessCount key history then some (accessCount key history) else none) ∧
      keys.Pairwise (LessUsed history) := by
  obtain ⟨c, hc, hcounts⟩ := counts_lfu history
  rw [hc]
  exact ⟨ranking c.chain, Sound.givesUp (p := .lfu c) hcounts.sound, hcounts.mem_keys,
    hcounts.count, hcounts.order⟩

-- Two accesses of `a` and of `b` weigh more than one of `c`, and `b` was read before `a`.
example : (after .lfu [.put "a", .put "b", .get "b", .get "a", .put "c"]).order =
    ["c", "b", "a"] := by
  decide +kernel

end ClusterCache.Policy
