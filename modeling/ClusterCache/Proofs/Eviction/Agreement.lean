import ClusterCache.Proofs.Eviction.Notices

/-!
# Policies that agree on some keys

Two policies that have dealt alike with some keys, whatever they have done with the others, cannot
be told apart by these keys: they give them up in the same order and count the same accesses.  So
it does not matter to a policy in which order keys are deleted.
-/

namespace ClusterCache.Policy

open Levels

/-- The keys of a policy in levels.  A queue is one level. -/
def levels : Policy → List (Nat × List String)
  | .fifo q => if q.keys = [] then [] else [(0, q.keys)]
  | .lru q => if q.keys = [] then [] else [(0, q.keys)]
  | .lfu c => c.chain

/-- The level to which an access takes a key. -/
def levelAfter (a : Policy) (key : String) : Nat :=
  match a with
  | .lfu c => (c.frequency? key).getD 0 + 1
  | _ => 0

/-- Whether a read counts as an access. -/
def heeds (a : Policy) (key : String) : Bool :=
  match a with
  | .fifo _ => false
  | .lru q => q.contains key
  | .lfu _ => true

section Levels

variable {a b : Policy}

theorem Sound.ascending (h : a.Sound) : (a.levels.map (·.1)).Pairwise (· < ·) := by
  cases a with
  | fifo q => by_cases hq : q.keys = [] <;> simp [levels, hq]
  | lru q => by_cases hq : q.keys = [] <;> simp [levels, hq]
  | lfu c => exact FrequencyChain.Sound.ascending h

theorem ranking_levels (a : Policy) : ranking a.levels = a.keys := by
  cases a with
  | fifo q => by_cases hq : q.keys = [] <;> simp [levels, keys, ranking, hq]
  | lru q => by_cases hq : q.keys = [] <;> simp [levels, keys, ranking, hq]
  | lfu c => rfl

theorem dropKey_of_queue (key : String) (ks : List String) :
    dropKey key (if ks = [] then [] else [(0, ks)]) =
      if ks.filter (· ≠ key) = [] then [] else [(0, ks.filter (· ≠ key))] := by
  by_cases hks : ks = []
  · simp [hks, dropKey]
  · rw [if_neg hks, dropKey_singleton]
    cases ks.filter (· ≠ key) <;> rfl

theorem addKey_of_queue (key : String) (ks : List String) :
    addKey 0 key (if ks = [] then [] else [(0, ks)]) = [(0, ks ++ [key])] := by
  by_cases hks : ks = [] <;> simp [hks, addKey]

theorem levels_of_touch {q : KeyQueue} (h : q.Sound) (key : String) :
    (if (q.touch key).keys = [] then [] else [(0, (q.touch key).keys)]) =
      addKey 0 key (dropKey key (if q.keys = [] then [] else [(0, q.keys)])) := by
  rw [(h.touch key).2, if_neg (by simp), dropKey_of_queue, addKey_of_queue]

theorem Sound.levels_put (h : a.Sound) (key : String) :
    (a.put key).levels = addKey (a.levelAfter key) key (dropKey key a.levels) := by
  cases a with
  | fifo q => exact levels_of_touch h key
  | lru q => exact levels_of_touch h key
  | lfu c => exact (FrequencyChain.Sound.access h key).2

theorem Sound.levels_get (h : a.Sound) (key : String) :
    (a.get key).levels = if a.heeds key then (a.put key).levels else a.levels := by
  cases a with
  | fifo q => rfl
  | lru q => by_cases hq : q.contains key = true <;> simp [heeds, Policy.get, Policy.put, hq]
  | lfu c => rfl

theorem Sound.levels_delete (h : a.Sound) (key : String) :
    (a.delete key).levels = dropKey key a.levels := by
  cases a with
  | fifo q =>
      simp only [levels, dropKey_of_queue, Policy.delete, (KeyQueue.Sound.remove h key).2]
  | lru q =>
      simp only [levels, dropKey_of_queue, Policy.delete, (KeyQueue.Sound.remove h key).2]
  | lfu c => exact (FrequencyChain.Sound.remove h key).2

/-- Deleting keys one after the other keeps the other keys. -/
theorem Sound.keep_deleteAll (h : a.Sound) (p : String → Bool) (gone : List String) :
    keep p (gone.foldl Policy.delete a).levels =
      keep (fun key => p key && decide (key ∉ gone)) a.levels := by
  induction gone generalizing a with
  | nil => simp
  | cons key gone ih =>
      rw [List.foldl_cons, ih (h.delete key).1, h.levels_delete, dropKey_eq_keep, keep_keep]
      congr 1
      funext other
      by_cases hother : other = key <;> simp [hother]

end Levels

/-! ## Agreement -/

/-- Sound policies of one kind that have some keys in the same levels and in the same order. -/
structure Agree (p : String → Bool) (a b : Policy) : Prop where
  left : a.Sound
  right : b.Sound
  kind : a.kind = b.kind
  levels : keep p a.levels = keep p b.levels

variable {p : String → Bool} {a b : Policy} {key : String}

theorem Sound.agree (h : a.Sound) (p : String → Bool) : Agree p a a := ⟨h, h, rfl, rfl⟩

theorem Agree.order (h : Agree p a b) : a.order.filter p = b.order.filter p := by
  rw [h.left.order_eq, h.right.order_eq, ← ranking_levels, ← ranking_levels, ← ranking_keep,
    ← ranking_keep, h.levels]

theorem Agree.at_iff (h : Agree p a b) (hkey : p key = true) (f : Nat) :
    At a.levels f key ↔ At b.levels f key := by
  have hsame : At (keep p a.levels) f key ↔ At (keep p b.levels) f key := by rw [h.levels]
  simpa [at_keep, hkey] using hsame

theorem Agree.tracks (h : Agree p a b) (hkey : p key = true) : a.tracks key = b.tracks key := by
  rw [Bool.eq_iff_iff, h.left.tracks_iff, h.right.tracks_iff, ← ranking_levels, ← ranking_levels,
    mem_ranking_iff, mem_ranking_iff]
  simp only [h.at_iff hkey]

theorem Agree.frequency? (h : Agree p a b) (hkey : p key = true) :
    a.frequency? key = b.frequency? key := by
  have hkind := h.kind
  cases a with
  | lfu c =>
      cases b with
      | lfu c' =>
          apply Option.ext
          intro f
          have hc : c.frequency? key = some f ↔ At c.chain f key :=
            FrequencyChain.Sound.frequency?_eq_some_iff h.left
          have hc' : c'.frequency? key = some f ↔ At c'.chain f key :=
            FrequencyChain.Sound.frequency?_eq_some_iff h.right
          exact hc.trans ((h.at_iff hkey f).trans hc'.symm)
      | _ => cases hkind
  | _ => cases b <;> first | rfl | cases hkind

theorem Agree.levelAfter (h : Agree p a b) (hkey : p key = true) :
    a.levelAfter key = b.levelAfter key := by
  have hcount := h.frequency? hkey
  have hkind := h.kind
  cases a with
  | lfu c =>
      cases b with
      | lfu c' => exact congrArg (·.getD 0 + 1) hcount
      | _ => cases hkind
  | _ => cases b <;> first | rfl | cases hkind

theorem Agree.heeds (h : Agree p a b) (hkey : p key = true) : a.heeds key = b.heeds key := by
  have htracks := h.tracks hkey
  have hkind := h.kind
  cases a with
  | lru q =>
      cases b with
      | lru q' => exact htracks
      | _ => cases hkind
  | _ => cases b <;> first | rfl | cases hkind

/-- What a put of a key leaves of the keys to be kept. -/
theorem Sound.keep_put (h : a.Sound) (p : String → Bool) (key : String) :
    keep p (a.put key).levels =
      if p key then addKey (a.levelAfter key) key (dropKey key (keep p a.levels))
      else keep p a.levels := by
  rw [h.levels_put]
  cases hp : p key with
  | true =>
      have hsorted := h.ascending.sublist (map_dropKey_sublist key a.levels)
      rw [if_pos rfl, keep_addKey hp _ hsorted, keep_dropKey]
  | false => rw [if_neg (by simp), keep_addKey_of_not hp, keep_dropKey_of_not hp]

theorem Agree.put (h : Agree p a b) (key : String) : Agree p (a.put key) (b.put key) where
  left := (h.left.put key).1
  right := (h.right.put key).1
  kind := by simpa using h.kind
  levels := by
    rw [h.left.keep_put, h.right.keep_put, h.levels]
    cases hp : p key with
    | true => rw [h.levelAfter hp]
    | false => rfl

theorem Agree.get (h : Agree p a b) (key : String) : Agree p (a.get key) (b.get key) where
  left := (h.left.get key).1
  right := (h.right.get key).1
  kind := by simpa using h.kind
  levels := by
    rw [h.left.levels_get, h.right.levels_get]
    cases hp : p key with
    | true =>
        rw [h.heeds hp]
        split_ifs
        · exact (h.put key).levels
        · exact h.levels
    | false =>
        -- The key is not to be kept, whether its reading counts or not.
        have hleft := h.left.keep_put p key
        have hright := h.right.keep_put p key
        rw [hp, if_neg (by simp)] at hleft hright
        split_ifs <;> simp only [hleft, hright, h.levels]

/-- Which keys are deleted matters, and neither in which order nor which of the others are. -/
theorem Agree.deleteAll (h : Agree p a b) {gone gone' : List String}
    (hsame : ∀ key, p key = true → (key ∈ gone ↔ key ∈ gone')) :
    Agree p (gone.foldl Policy.delete a) (gone'.foldl Policy.delete b) where
  left := (h.left.deleteAll gone).1
  right := (h.right.deleteAll gone').1
  kind := by rw [kind_deleteAll, kind_deleteAll, h.kind]
  levels := by
    have hsplit : ∀ (gone : List String) (ls : List (Nat × List String)),
        keep (fun key => p key && decide (key ∉ gone)) ls =
          keep (fun key => decide (key ∉ gone)) (keep p ls) := by
      intro gone ls
      rw [keep_keep]
      simp only [Bool.and_comm]
    have hboth : (fun key => p key && decide (key ∉ gone)) =
        fun key => p key && decide (key ∉ gone') := by
      funext key
      cases hp : p key with
      | true => simp [hsame key hp]
      | false => rfl
    rw [h.left.keep_deleteAll, h.right.keep_deleteAll, ← hboth, hsplit, hsplit, h.levels]

theorem Agree.delete (h : Agree p a b) (key : String) : Agree p (a.delete key) (b.delete key) := by
  have hsame : ∀ other, p other = true → (other ∈ [key] ↔ other ∈ [key]) := fun _ _ => Iff.rfl
  exact h.deleteAll hsame

end ClusterCache.Policy
