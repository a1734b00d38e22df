import ClusterCache.Proofs.Eviction.Policy
import Mathlib.Data.List.DropRight

/-!
# What a policy was told

A policy is told of puts, reads and deletions, one after the other.  Of such a history two things
matter to a policy: how often a key was accessed since it was last deleted, and which of two keys
was the first to see its latest notice of some sort.
-/

namespace ClusterCache.Policy

/-- What a policy is told of a key. -/
inductive Notice where
  | put (key : String)
  | get (key : String)
  | delete (key : String)
deriving DecidableEq

/-- Whether a key was put or read. -/
def Notice.Accesses (key : String) (n : Notice) : Prop := n = .put key ∨ n = .get key

instance (key : String) (n : Notice) : Decidable (n.Accesses key) :=
  inferInstanceAs (Decidable (_ ∨ _))

/-- Whether any key was put or read. -/
def Notice.isAccess : Notice → Bool
  | .put _ => true
  | .get _ => true
  | .delete _ => false

def note (p : Policy) : Notice → Policy
  | .put key => p.put key
  | .get key => p.get key
  | .delete key => p.delete key

/-- A new policy after a history, the first notice in front. -/
def after (kind : PolicyKind) (history : List Notice) : Policy := history.foldl note (empty kind)

theorem after_concat (kind : PolicyKind) (history : List Notice) (n : Notice) :
    after kind (history ++ [n]) = (after kind history).note n := by
  simp [after]

theorem sound_after (kind : PolicyKind) (history : List Notice) : (after kind history).Sound := by
  induction history using List.reverseRecOn with
  | nil => exact sound_empty kind
  | append_singleton history n ih =>
      rw [after_concat]
      cases n with
      | put key => exact (ih.put key).1
      | get key => exact (ih.get key).1
      | delete key => exact (ih.delete key).1

/-! ## Latest notices -/

/-- The place in a history of the latest notice of some sort. -/
structure LatestAt (p : Notice → Prop) (history : List Notice) (i : Nat) : Prop where
  here : ∃ n, history[i]? = some n ∧ p n
  later : ∀ j n, i < j → history[j]? = some n → ¬ p n

/-- The latest notice of one sort came before the latest notice of another. -/
def Earlier (p q : Notice → Prop) (history : List Notice) : Prop :=
  ∃ i j, LatestAt p history i ∧ LatestAt q history j ∧ i < j

section Latest

variable {p q : Notice → Prop} {history : List Notice} {n : Notice} {i : Nat}

theorem LatestAt.lt_length (h : LatestAt p history i) : i < history.length := by
  obtain ⟨n, hn, _⟩ := h.here
  exact (List.getElem?_eq_some_iff.mp hn).1

theorem LatestAt.skip (h : LatestAt p history i) (hn : ¬ p n) :
    LatestAt p (history ++ [n]) i := by
  refine ⟨?_, fun j m hj hm => ?_⟩
  · rw [List.getElem?_append_left h.lt_length]
    exact h.here
  · by_cases hlt : j < history.length
    · rw [List.getElem?_append_left hlt] at hm
      exact h.later j m hj hm
    · rw [List.getElem?_append_right (Nat.le_of_not_lt hlt), List.getElem?_singleton] at hm
      split_ifs at hm
      exact Option.some.inj hm ▸ hn

theorem latestAt_concat (hn : p n) : LatestAt p (history ++ [n]) history.length := by
  refine ⟨⟨n, List.getElem?_concat_length, hn⟩, fun j m hj hm => ?_⟩
  rw [List.getElem?_eq_none (by simpa using Nat.succ_le_of_lt hj)] at hm
  cases hm

theorem exists_latestAt (h : ∃ n ∈ history, p n) : ∃ i, LatestAt p history i := by
  induction history using List.reverseRecOn with
  | nil =>
      obtain ⟨n, hn, _⟩ := h
      exact absurd hn List.not_mem_nil
  | append_singleton history m ih =>
      by_cases hm : p m
      · exact ⟨_, latestAt_concat hm⟩
      · obtain ⟨n, hn, hp⟩ := h
        rcases List.mem_append.mp hn with hn | hn
        · obtain ⟨i, hi⟩ := ih ⟨n, hn, hp⟩
          exact ⟨i, hi.skip hm⟩
        · exact absurd (List.mem_singleton.mp hn ▸ hp) hm

theorem Earlier.skip (h : Earlier p q history) (hp : ¬ p n) (hq : ¬ q n) :
    Earlier p q (history ++ [n]) := by
  obtain ⟨i, j, hi, hj, hlt⟩ := h
  exact ⟨i, j, hi.skip hp, hj.skip hq, hlt⟩

theorem earlier_concat (h : ∃ m ∈ history, p m) (hp : ¬ p n) (hq : q n) :
    Earlier p q (history ++ [n]) := by
  obtain ⟨i, hi⟩ := exists_latestAt h
  exact ⟨i, history.length, hi.skip hp, latestAt_concat hq, hi.lt_length⟩

end Latest

/-! ## Keys that stand -/

/-- The last put or deletion of a key was a put. -/
def Stands (key : String) (history : List Notice) : Prop :=
  (history.filter fun n => n = .put key ∨ n = .delete key).getLast? = some (.put key)

theorem not_stands_nil (key : String) : ¬ Stands key [] := by
  simp [Stands]

theorem stands_put (key other : String) (history : List Notice) :
    Stands other (history ++ [.put key]) ↔ other = key ∨ Stands other history := by
  by_cases hk : other = key
  · simp [Stands, hk]
  · simp [Stands, hk, Ne.symm hk]

theorem stands_get (key other : String) (history : List Notice) :
    Stands other (history ++ [.get key]) ↔ Stands other history := by
  simp [Stands]

theorem stands_delete (key other : String) (history : List Notice) :
    Stands other (history ++ [.delete key]) ↔ other ≠ key ∧ Stands other history := by
  by_cases hk : other = key
  · simp [Stands, hk]
  · simp [Stands, hk, Ne.symm hk]

theorem Stands.mem {key : String} {history : List Notice} (h : Stands key history) :
    .put key ∈ history :=
  List.mem_of_mem_filter (List.mem_of_getLast? h)

/-! ## Accesses -/

/-- The number of accesses of a key since its last deletion. -/
def accessCount (key : String) (history : List Notice) : Nat :=
  (history.rtakeWhile (· ≠ .delete key)).countP (·.Accesses key)

@[simp] theorem accessCount_nil (key : String) : accessCount key [] = 0 := rfl

theorem accessCount_delete (key : String) (history : List Notice) :
    accessCount key (history ++ [.delete key]) = 0 := by
  rw [accessCount, List.rtakeWhile_concat_neg _ _ _ (by simp), List.countP_nil]

theorem accessCount_access {key : String} {n : Notice} (hn : n.Accesses key)
    (history : List Notice) : accessCount key (history ++ [n]) = accessCount key history + 1 := by
  have hkeep : n ≠ .delete key := by
    rintro rfl
    simp [Notice.Accesses] at hn
  rw [accessCount, List.rtakeWhile_concat_pos _ _ _ (by simpa using hkeep), List.countP_append,
    accessCount]
  simp [hn]

theorem accessCount_skip {key : String} {n : Notice} (hn : ¬ n.Accesses key)
    (hkeep : n ≠ .delete key) (history : List Notice) :
    accessCount key (history ++ [n]) = accessCount key history := by
  rw [accessCount, List.rtakeWhile_concat_pos _ _ _ (by simpa using hkeep), List.countP_append,
    accessCount]
  simp [hn]

/-- A key that was accessed since its last deletion was accessed. -/
theorem exists_accesses_of_pos {key : String} {history : List Notice}
    (h : 0 < accessCount key history) : ∃ n ∈ history, n.Accesses key := by
  obtain ⟨n, hn, haccess⟩ := List.countP_pos_iff.mp h
  exact ⟨n, (List.rtakeWhile_suffix _ _).subset hn, by simpa using haccess⟩

/-- No key was accessed more often than all keys together. -/
theorem accessCount_le (key : String) (history : List Notice) :
    accessCount key history ≤ history.countP Notice.isAccess := by
  have hsuffix := List.rtakeWhile_suffix (fun n => decide (n ≠ Notice.delete key)) history
  apply hsuffix.sublist.countP_le.trans
  apply List.countP_mono_left
  intro n _ hn
  rcases of_decide_eq_true hn with rfl | rfl <;> rfl

end ClusterCache.Policy
