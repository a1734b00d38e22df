import Std.Data.ExtTreeMap.Lemmas
import Mathlib.Data.List.Nodup

/-!
# Distinct keys

Maps looked up key by key, and lists without repetition.
-/

namespace ClusterCache

open Std

section Lookup

variable {κ β : Type} [DecidableEq κ] [Ord κ] [TransOrd κ] [LawfulEqOrd κ]

theorem lookup_insert (t : ExtTreeMap κ β) (key : κ) (value : β) (other : κ) :
    (t.insert key value)[other]? = if other = key then some value else t[other]? := by
  rw [ExtTreeMap.getElem?_insert]
  by_cases hk : other = key
  · simp [hk]
  · rw [if_neg hk, if_neg (by simpa using Ne.symm hk)]

theorem lookup_erase (t : ExtTreeMap κ β) (key other : κ) :
    (t.erase key)[other]? = if other = key then none else t[other]? := by
  rw [ExtTreeMap.getElem?_erase]
  by_cases hk : other = key
  · simp [hk]
  · rw [if_neg hk, if_neg (by simpa using Ne.symm hk)]

end Lookup

/-- Elements that an index tells apart stand at one place each. -/
theorem nodup_values_of_index {xs : List (Nat × String)} (hnd : (xs.map (·.1)).Nodup)
    (hone : ∀ key slot slot', (slot, key) ∈ xs → (slot', key) ∈ xs → slot = slot') :
    (xs.map (·.2)).Nodup := by
  induction xs with
  | nil => exact List.nodup_nil
  | cons x xs ih =>
      obtain ⟨slot, key⟩ := x
      rw [List.map_cons, List.nodup_cons] at hnd ⊢
      refine ⟨fun hmem => ?_, ih hnd.2 fun k s s' hs hs' =>
        hone k s s' (List.mem_cons_of_mem _ hs) (List.mem_cons_of_mem _ hs')⟩
      obtain ⟨⟨slot', key'⟩, hx, rfl⟩ := List.mem_map.mp hmem
      have heq := hone key' slot slot' (by simp) (List.mem_cons_of_mem _ hx)
      exact hnd.1 (List.mem_map.mpr ⟨_, hx, heq.symm⟩)

/-- Taking one of several distinct keys out of a list. -/
theorem filter_ne_middle (xs ys : List String) {key : String}
    (h : (xs ++ key :: ys).Nodup) :
    (xs ++ key :: ys).filter (· ≠ key) = xs ++ ys := by
  rw [List.nodup_middle, List.nodup_cons, List.mem_append, not_or] at h
  obtain ⟨⟨hx, hy⟩, _⟩ := h
  rw [List.filter_append, List.filter_cons_of_neg (by simp)]
  congr 1
  · exact List.filter_eq_self.mpr fun k hk => by simpa using fun heq : k = key => hx (heq ▸ hk)
  · exact List.filter_eq_self.mpr fun k hk => by simpa using fun heq : k = key => hy (heq ▸ hk)

/-- Taking a key out of a list, when only what is said of this key may have changed. -/
theorem pairwise_filter_ne {keys : List String} {key : String} {r s : String → String → Prop}
    (h : keys.Pairwise r) (hkeep : ∀ a b, a ≠ key → b ≠ key → r a b → s a b) :
    (keys.filter (· ≠ key)).Pairwise s := by
  apply (h.filter _).imp_of_mem
  intro a b ha hb hab
  exact hkeep a b (by simpa using (List.mem_filter.mp ha).2)
    (by simpa using (List.mem_filter.mp hb).2) hab

theorem filter_not_mem_append (xs ys zs : List String) :
    xs.filter (· ∉ ys ++ zs) = (xs.filter (· ∉ ys)).filter (· ∉ zs) := by
  rw [List.filter_filter]
  exact List.filter_congr fun x _ => by simp [Bool.and_comm]

theorem filter_not_mem_take {xs : List String} (h : xs.Nodup) (count : Nat) :
    xs.filter (· ∉ xs.take count) = xs.drop count := by
  have hdisjoint := List.disjoint_take_drop h (Nat.le_refl count)
  have htaken : (xs.take count).filter (· ∉ xs.take count) = [] := by
    rw [List.filter_eq_nil_iff]
    intro x hx
    simpa using hx
  have hleft : (xs.drop count).filter (· ∉ xs.take count) = xs.drop count := by
    rw [List.filter_eq_self]
    intro x hx
    simpa using fun hmem => hdisjoint hmem hx
  calc xs.filter (· ∉ xs.take count)
      = (xs.take count ++ xs.drop count).filter (· ∉ xs.take count) := by
        rw [List.take_append_drop]
    _ = xs.drop count := by rw [List.filter_append, htaken, hleft, List.nil_append]

/-- Taking keys out of a list that has them all. -/
theorem length_filter_not_mem {xs ys : List String} (hxs : xs.Nodup) (hys : ys.Nodup)
    (hsub : ∀ y ∈ ys, y ∈ xs) : (xs.filter (· ∉ ys)).length + ys.length = xs.length := by
  have hperm : (xs.filter (· ∈ ys)).Perm ys := by
    rw [List.perm_ext_iff_of_nodup (hxs.filter _) hys]
    intro y
    simp only [List.mem_filter, decide_eq_true_eq]
    exact ⟨fun h => h.2, fun h => ⟨hsub y h, h⟩⟩
  have hsplit := List.length_eq_length_filter_add (l := xs) (fun x => decide (x ∈ ys))
  rw [hperm.length_eq] at hsplit
  simp only [decide_not]
  omega

/-- A map that knows the keys of a list and no others has as many entries as the list has keys. -/
theorem size_eq_length {κ β : Type} [Ord κ] [TransOrd κ] [LawfulEqOrd κ] {t : ExtTreeMap κ β}
    {keys : List κ} (hnd : keys.Nodup) (h : ∀ key, t.contains key = true ↔ key ∈ keys) :
    t.size = keys.length := by
  have hperm : t.keys.Perm keys := by
    rw [List.perm_ext_iff_of_nodup ExtTreeMap.nodup_keys hnd]
    intro key
    rw [← h, ExtTreeMap.mem_keys, ExtTreeMap.contains_iff_mem]
  rw [← hperm.length_eq, ExtTreeMap.length_keys]

theorem mem_keys_iff {β : Type} {t : ExtTreeMap String β} {key : String} :
    key ∈ t.keys ↔ t[key]? ≠ none := by
  rw [ExtTreeMap.mem_keys, ExtTreeMap.mem_iff_isSome_getElem?, Option.isSome_iff_ne_none]

/-- Maps that know the same keys if each of them is given keys of its own that it does not know. -/
theorem size_add_length {β γ : Type} {s : ExtTreeMap String β} {t : ExtTreeMap String γ}
    {xs ys : List String} (hxs : xs.Nodup) (hys : ys.Nodup) (hs : ∀ key ∈ xs, s[key]? = none)
    (ht : ∀ key ∈ ys, t[key]? = none)
    (h : ∀ key, s[key]? ≠ none ∨ key ∈ xs ↔ t[key]? ≠ none ∨ key ∈ ys) :
    s.size + xs.length = t.size + ys.length := by
  have hleft : (s.keys ++ xs).Nodup :=
    ExtTreeMap.nodup_keys.append hxs fun key hkey hnew => mem_keys_iff.mp hkey (hs key hnew)
  have hright : (t.keys ++ ys).Nodup :=
    ExtTreeMap.nodup_keys.append hys fun key hkey hnew => mem_keys_iff.mp hkey (ht key hnew)
  have hperm : (s.keys ++ xs).Perm (t.keys ++ ys) := by
    rw [List.perm_ext_iff_of_nodup hleft hright]
    intro key
    rw [List.mem_append, List.mem_append, mem_keys_iff, mem_keys_iff, h]
  simpa using hperm.length_eq

/-- A map with keys taken out that it had. -/
theorem size_of_erased {β : Type} {s t : ExtTreeMap String β} {keys : List String}
    (hnd : keys.Nodup) (hkeys : ∀ key ∈ keys, s[key]? ≠ none)
    (h : ∀ key, t[key]? = if key ∈ keys then none else s[key]?) :
    t.size + keys.length = s.size := by
  apply size_add_length hnd List.nodup_nil (fun key hkey => (h key).trans (if_pos hkey)) (by simp)
  intro key
  by_cases hkey : key ∈ keys <;> simp [h, hkey, hkeys]

/-- Lists of as many keys that have the same keys elsewhere. -/
theorem length_filter_eq {xs ys : List String} (hxs : xs.Nodup) (hys : ys.Nodup)
    (hlength : xs.length = ys.length) {p : String → Bool}
    (hsame : ∀ key, p key = false → (key ∈ xs ↔ key ∈ ys)) :
    (xs.filter p).length = (ys.filter p).length := by
  have hrest : (xs.filter fun key => !p key).Perm (ys.filter fun key => !p key) := by
    rw [List.perm_ext_iff_of_nodup (hxs.filter _) (hys.filter _)]
    intro key
    cases hp : p key <;> simp [List.mem_filter, hp, hsame key]
  have hsplit := List.length_eq_length_filter_add (l := xs) p
  have hsplit' := List.length_eq_length_filter_add (l := ys) p
  rw [hrest.length_eq] at hsplit
  omega

/-- Maps that have lost as many keys and know the same keys elsewhere. -/
theorem size_eq_of_erased {β γ : Type} {s : ExtTreeMap String β} {t : ExtTreeMap String γ}
    {xs ys : List String} (hxs : xs.Nodup) (hys : ys.Nodup) (hlength : xs.length = ys.length)
    {p : String → Bool} (hs : ∀ key, p key = true → (s[key]? = none ↔ key ∈ xs))
    (ht : ∀ key, p key = true → (t[key]? = none ↔ key ∈ ys))
    (hsame : ∀ key, p key = false →
      (key ∈ xs ↔ key ∈ ys) ∧ (s[key]? = none ↔ t[key]? = none)) : s.size = t.size := by
  have hlost := length_filter_eq hxs hys hlength fun key hkey => (hsame key hkey).1
  have hcount := size_add_length (s := s) (t := t) (hxs.filter p) (hys.filter p)
    (fun key hkey => (hs key (List.mem_filter.mp hkey).2).mpr (List.mem_filter.mp hkey).1)
    (fun key hkey => (ht key (List.mem_filter.mp hkey).2).mpr (List.mem_filter.mp hkey).1)
    fun key => by
      cases hkey : p key with
      | true => simp [hkey, hs key hkey, ht key hkey, em']
      | false => simp [hkey, (hsame key hkey).2]
  omega

end ClusterCache
