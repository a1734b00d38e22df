import Mathlib.Data.List.Basic

/-!
# Levels of keys

Keys in levels of ascending numbers of accesses, those of one level in the order of their latest
access.  A key that is accessed leaves its level and goes to the end of the next one, which is
made where it belongs if there is none; a level without keys is not kept.
-/

namespace ClusterCache.Levels

/-- Takes a key out of its level, and the level out if it has no other key. -/
def dropKey (key : String) (ls : List (Nat × List String)) : List (Nat × List String) :=
  (ls.map fun l => (l.1, l.2.filter (· ≠ key))).filter fun l => !l.2.isEmpty

/-- Takes out all keys but some, and the levels that have none of these. -/
def keep (p : String → Bool) (ls : List (Nat × List String)) : List (Nat × List String) :=
  (ls.map fun l => (l.1, l.2.filter p)).filter fun l => !l.2.isEmpty

/-- Puts a key at the end of a level, which is made in its place if there is none. -/
def addKey (f : Nat) (key : String) : List (Nat × List String) → List (Nat × List String)
  | [] => [(f, [key])]
  | l :: ls =>
      if l.1 < f then l :: addKey f key ls
      else if l.1 = f then (f, l.2 ++ [key]) :: ls
      else (f, [key]) :: l :: ls

/-- The keys, level after level. -/
def ranking (ls : List (Nat × List String)) : List String := ls.flatMap (·.2)

theorem ranking_cons (l : Nat × List String) (ls : List (Nat × List String)) :
    ranking (l :: ls) = l.2 ++ ranking ls := rfl

theorem dropKey_singleton (key : String) (f : Nat) (ks : List String) :
    dropKey key [(f, ks)] = [(f, ks.filter (· ≠ key))].filter fun l => !l.2.isEmpty := rfl

theorem dropKey_eq_keep (key : String) (ls : List (Nat × List String)) :
    dropKey key ls = keep (· ≠ key) ls := rfl

theorem keep_append (p : String → Bool) (xs ys : List (Nat × List String)) :
    keep p (xs ++ ys) = keep p xs ++ keep p ys := by
  simp [keep]

theorem keep_cons (p : String → Bool) (l : Nat × List String) (ls : List (Nat × List String)) :
    keep p (l :: ls) = keep p [l] ++ keep p ls :=
  keep_append p [l] ls

theorem keep_keep (p q : String → Bool) (ls : List (Nat × List String)) :
    keep p (keep q ls) = keep (fun key => p key && q key) ls := by
  induction ls with
  | nil => rfl
  | cons l ls ih =>
      have hone : keep p (keep q [l]) = keep (fun key => p key && q key) [l] := by
        cases hq : l.2.filter q with
        | nil => simp [keep, hq, ← List.filter_filter]
        | cons key keys => simp [keep, hq, ← List.filter_filter]
      rw [keep_cons q, keep_append, hone, ih, ← keep_cons]

theorem dropKey_append (key : String) (xs ys : List (Nat × List String)) :
    dropKey key (xs ++ ys) = dropKey key xs ++ dropKey key ys :=
  keep_append _ xs ys

theorem dropKey_eq_self {key : String} {ls : List (Nat × List String)}
    (h : ∀ l ∈ ls, key ∉ l.2 ∧ l.2 ≠ []) : dropKey key ls = ls := by
  have hmap : (ls.map fun l => (l.1, l.2.filter (· ≠ key))) = ls := by
    conv_rhs => rw [← List.map_id ls]
    apply List.map_congr_left
    intro l hl
    have hself : l.2.filter (· ≠ key) = l.2 :=
      List.filter_eq_self.mpr fun k hk => by
        simpa using fun heq : k = key => (h l hl).1 (heq ▸ hk)
    rw [hself]
    rfl
  rw [dropKey, hmap]
  exact List.filter_eq_self.mpr fun l hl => by simpa using (h l hl).2

theorem ranking_keep (p : String → Bool) (ls : List (Nat × List String)) :
    ranking (keep p ls) = (ranking ls).filter p := by
  induction ls with
  | nil => rfl
  | cons l ls ih =>
      have hone : ranking (keep p [l]) = l.2.filter p := by
        cases hf : l.2.filter p <;> simp [keep, ranking, hf]
      rw [keep_cons, ranking, List.flatMap_append, ← ranking, ← ranking, hone, ih,
        ← List.filter_append]
      rfl

theorem ranking_dropKey (key : String) (ls : List (Nat × List String)) :
    ranking (dropKey key ls) = (ranking ls).filter (· ≠ key) :=
  ranking_keep _ ls

theorem addKey_append {f : Nat} {key : String} {xs : List (Nat × List String)}
    (ys : List (Nat × List String)) (h : ∀ l ∈ xs, l.1 < f) :
    addKey f key (xs ++ ys) = xs ++ addKey f key ys := by
  induction xs with
  | nil => rfl
  | cons x xs ih =>
      have hx := h x (by simp)
      simp [addKey, hx, ih fun l hl => h l (List.mem_cons_of_mem _ hl)]

theorem addKey_of_lt {f : Nat} {key : String} {ls : List (Nat × List String)}
    (h : ∀ l ∈ ls, f < l.1) : addKey f key ls = (f, [key]) :: ls := by
  cases ls with
  | nil => rfl
  | cons l ls =>
      have hl := h l (by simp)
      rw [addKey, if_neg (by omega), if_neg (by omega)]

theorem addKey_cons_self (f : Nat) (key : String) (ks : List String)
    (ls : List (Nat × List String)) :
    addKey f key ((f, ks) :: ls) = (f, ks ++ [key]) :: ls := by
  simp [addKey]

/-! ## The level of a key -/

/-- A key stands in the level for a number of accesses. -/
def At (ls : List (Nat × List String)) (f : Nat) (key : String) : Prop :=
  ∃ l ∈ ls, l.1 = f ∧ key ∈ l.2

theorem at_cons {l : Nat × List String} {ls : List (Nat × List String)} {f : Nat} {key : String} :
    At (l :: ls) f key ↔ l.1 = f ∧ key ∈ l.2 ∨ At ls f key := by
  simp [At]

theorem mem_ranking_iff {ls : List (Nat × List String)} {key : String} :
    key ∈ ranking ls ↔ ∃ f, At ls f key := by
  rw [ranking, List.mem_flatMap]
  exact ⟨fun ⟨l, hl, hkey⟩ => ⟨l.1, l, hl, rfl, hkey⟩, fun ⟨_, l, hl, _, hkey⟩ => ⟨l, hl, hkey⟩⟩

theorem at_addKey {f g : Nat} {key other : String} {ls : List (Nat × List String)} :
    At (addKey f key ls) g other ↔ other = key ∧ g = f ∨ At ls g other := by
  induction ls with
  | nil =>
      rw [addKey, at_cons, List.mem_singleton]
      tauto
  | cons l ls ih =>
      rw [addKey]
      split_ifs with hlt heq
      · rw [at_cons, at_cons, ih]
        tauto
      · rw [at_cons, at_cons, List.mem_append, List.mem_singleton, ← heq]
        tauto
      · rw [at_cons, List.mem_singleton]
        tauto

theorem at_keep {p : String → Bool} {f : Nat} {key : String} {ls : List (Nat × List String)} :
    At (keep p ls) f key ↔ p key = true ∧ At ls f key := by
  simp only [At, keep, List.mem_filter, List.mem_map]
  constructor
  · rintro ⟨_, ⟨⟨l, hl, rfl⟩, _⟩, hf, hkey⟩
    rw [List.mem_filter] at hkey
    exact ⟨hkey.2, l, hl, hf, hkey.1⟩
  · rintro ⟨hp, l, hl, hf, hkey⟩
    have hkept : key ∈ l.2.filter p := List.mem_filter.mpr ⟨hkey, hp⟩
    refine ⟨_, ⟨⟨l, hl, rfl⟩, ?_⟩, hf, hkept⟩
    simpa using List.ne_nil_of_mem hkept

theorem at_dropKey {f : Nat} {key other : String} {ls : List (Nat × List String)} :
    At (dropKey key ls) f other ↔ other ≠ key ∧ At ls f other := by
  rw [dropKey_eq_keep, at_keep, decide_eq_true_eq]

theorem mem_ranking_addKey {f : Nat} {key other : String} {ls : List (Nat × List String)} :
    other ∈ ranking (addKey f key ls) ↔ other = key ∨ other ∈ ranking ls := by
  simp [mem_ranking_iff, at_addKey, exists_or]

theorem map_keep_sublist (p : String → Bool) (ls : List (Nat × List String)) :
    ((keep p ls).map (·.1)).Sublist (ls.map (·.1)) := by
  have hmap : ls.map (·.1) = (ls.map fun l => (l.1, l.2.filter p)).map (·.1) := by
    rw [List.map_map]
    rfl
  rw [hmap, keep]
  exact List.filter_sublist.map _

theorem map_dropKey_sublist (key : String) (ls : List (Nat × List String)) :
    ((dropKey key ls).map (·.1)).Sublist (ls.map (·.1)) :=
  map_keep_sublist _ ls

theorem exists_at_of_mem {l : Nat × List String} {ls : List (Nat × List String)}
    (hsorted : ((l :: ls).map (·.1)).Pairwise (· < ·)) {key : String} (hkey : key ∈ ranking ls) :
    ∃ g, l.1 < g ∧ At (l :: ls) g key := by
  rw [List.map_cons, List.pairwise_cons] at hsorted
  obtain ⟨g, m, hm, rfl, hmem⟩ := mem_ranking_iff.mp hkey
  exact ⟨m.1, hsorted.1 _ (List.mem_map_of_mem hm), m, List.mem_cons_of_mem _ hm, rfl, hmem⟩

/-- A key goes in its place in the ranking: behind those of its level and of the levels below,
before those of the levels above. -/
theorem exists_split_addKey (f : Nat) (key : String) {ls : List (Nat × List String)}
    (hsorted : (ls.map (·.1)).Pairwise (· < ·)) :
    ∃ before after, ranking ls = before ++ after ∧
      ranking (addKey f key ls) = before ++ key :: after ∧
      (∀ k ∈ before, ∃ g, g ≤ f ∧ At ls g k) ∧ ∀ k ∈ after, ∃ g, f < g ∧ At ls g k := by
  induction ls with
  | nil => exact ⟨[], [], rfl, rfl, by simp, by simp⟩
  | cons l ls ih =>
      have hhere : ∀ k ∈ l.2, At (l :: ls) l.1 k := fun k hk => at_cons.mpr (Or.inl ⟨rfl, hk⟩)
      have hlater : ∀ k ∈ ranking ls, ∃ g, l.1 < g ∧ At (l :: ls) g k := fun k hk =>
        exists_at_of_mem hsorted hk
      rw [addKey]
      split_ifs with hlt heq
      · rw [List.map_cons, List.pairwise_cons] at hsorted
        obtain ⟨before, after, hls, hadd, hbefore, hafter⟩ := ih hsorted.2
        refine ⟨l.2 ++ before, after, ?_, ?_, fun k hk => ?_, fun k hk => ?_⟩
        · rw [ranking_cons, hls, List.append_assoc]
        · rw [ranking_cons, hadd, List.append_assoc]
        · rcases List.mem_append.mp hk with hk | hk
          · exact ⟨l.1, Nat.le_of_lt hlt, hhere k hk⟩
          · obtain ⟨g, hg, hat⟩ := hbefore k hk
            exact ⟨g, hg, at_cons.mpr (Or.inr hat)⟩
        · obtain ⟨g, hg, hat⟩ := hafter k hk
          exact ⟨g, hg, at_cons.mpr (Or.inr hat)⟩
      · subst heq
        exact ⟨l.2, ranking ls, rfl, by simp [ranking_cons],
          fun k hk => ⟨l.1, Nat.le_refl _, hhere k hk⟩, hlater⟩
      · have habove : f < l.1 := by omega
        refine ⟨[], ranking (l :: ls), rfl, rfl, by simp, fun k hk => ?_⟩
        rcases List.mem_append.mp hk with hk | hk
        · exact ⟨l.1, habove, hhere k hk⟩
        · obtain ⟨g, hg, hat⟩ := hlater k hk
          exact ⟨g, Nat.lt_trans habove hg, hat⟩

theorem pairwise_ranking_addKey {r : String → String → Prop} {f : Nat} {key : String}
    {ls : List (Nat × List String)} (hsorted : (ls.map (·.1)).Pairwise (· < ·))
    (hls : (ranking ls).Pairwise r) (hlow : ∀ g other, At ls g other → g ≤ f → r other key)
    (hhigh : ∀ g other, At ls g other → f < g → r key other) :
    (ranking (addKey f key ls)).Pairwise r := by
  obtain ⟨before, after, hsplit, hadd, hbefore, hafter⟩ := exists_split_addKey f key hsorted
  rw [hsplit, List.pairwise_append] at hls
  rw [hadd, List.pairwise_append, List.pairwise_cons]
  refine ⟨hls.1, ⟨fun b hb => ?_, hls.2.1⟩, fun a ha b hb => ?_⟩
  · obtain ⟨g, hg, hat⟩ := hafter b hb
    exact hhigh g b hat hg
  · rcases List.mem_cons.mp hb with rfl | hb
    · obtain ⟨g, hg, hat⟩ := hbefore a ha
      exact hlow g a hat hg
    · exact hls.2.2 a ha b hb

/-! ## Keeping some of the keys -/

theorem exists_level_of_mem_keep {p : String → Bool} {l : Nat × List String}
    {ls : List (Nat × List String)} (h : l ∈ keep p ls) : ∃ m ∈ ls, m.1 = l.1 :=
  List.mem_map.mp ((map_keep_sublist p ls).subset (List.mem_map_of_mem h))

theorem keep_dropKey (p : String → Bool) (key : String) (ls : List (Nat × List String)) :
    keep p (dropKey key ls) = dropKey key (keep p ls) := by
  simp only [dropKey_eq_keep, keep_keep, Bool.and_comm]

theorem keep_dropKey_of_not {p : String → Bool} {key : String} (hp : p key = false)
    (ls : List (Nat × List String)) : keep p (dropKey key ls) = keep p ls := by
  rw [dropKey_eq_keep, keep_keep]
  congr 1
  funext other
  by_cases hother : other = key <;> simp [hother, hp]

/-- A key that is not to be kept leaves nothing behind. -/
theorem keep_addKey_of_not {p : String → Bool} {key : String} (hp : p key = false) (f : Nat)
    (ls : List (Nat × List String)) : keep p (addKey f key ls) = keep p ls := by
  have hnone : keep p [(f, [key])] = [] := by simp [keep, hp]
  induction ls with
  | nil => exact hnone
  | cons l ls ih =>
      rw [addKey]
      split_ifs with hlt heq
      · rw [keep_cons, ih, ← keep_cons]
      · subst heq
        have hsame : keep p [(l.1, l.2 ++ [key])] = keep p [l] := by
          simp [keep, List.filter_append, hp]
        rw [keep_cons, hsame, ← keep_cons]
      · rw [keep_cons, hnone, List.nil_append]

/-- Among levels in their order, a key goes where it would go if only some were there. -/
theorem keep_addKey {p : String → Bool} {key : String} (hp : p key = true) (f : Nat)
    {ls : List (Nat × List String)} (hsorted : (ls.map (·.1)).Pairwise (· < ·)) :
    keep p (addKey f key ls) = addKey f key (keep p ls) := by
  have hone : keep p [(f, [key])] = [(f, [key])] := by simp [keep, hp]
  have habove : ∀ {ls : List (Nat × List String)}, (∀ l ∈ ls, f < l.1) →
      ∀ l ∈ keep p ls, f < l.1 := by
    intro ls hls l hl
    obtain ⟨m, hm, heq⟩ := exists_level_of_mem_keep hl
    exact heq ▸ hls m hm
  induction ls with
  | nil => exact hone
  | cons l ls ih =>
      rw [List.map_cons, List.pairwise_cons] at hsorted
      obtain ⟨hfirst, hrest⟩ := hsorted
      have hlater : ∀ m ∈ ls, l.1 < m.1 := fun m hm => hfirst m.1 (List.mem_map_of_mem hm)
      rw [addKey]
      split_ifs with hlt heq
      · have hbelow : ∀ m ∈ keep p [l], m.1 < f := by
          intro m hm
          obtain ⟨l', hl', heq⟩ := exists_level_of_mem_keep hm
          rw [← heq, List.mem_singleton.mp hl']
          exact hlt
        rw [keep_cons, ih hrest, keep_cons p l ls, addKey_append _ hbelow]
      · subst heq
        cases hkeys : l.2.filter p with
        | nil =>
            have hnone : keep p [l] = [] := by simp [keep, hkeys]
            have hnew : keep p [(l.1, l.2 ++ [key])] = [(l.1, [key])] := by
              simp [keep, List.filter_append, hkeys, hp]
            rw [keep_cons, hnew, keep_cons p l, hnone, List.nil_append,
              addKey_of_lt (habove hlater)]
            rfl
        | cons k ks =>
            have hsome : keep p [l] = [(l.1, k :: ks)] := by simp [keep, hkeys]
            have hnew : keep p [(l.1, l.2 ++ [key])] = [(l.1, k :: ks ++ [key])] := by
              simp [keep, List.filter_append, hkeys, hp]
            rw [keep_cons, hnew, keep_cons p l, hsome]
            exact (addKey_cons_self l.1 key (k :: ks) (keep p ls)).symm
      · have hall : ∀ m ∈ l :: ls, f < m.1 := by
          intro m hm
          rcases List.mem_cons.mp hm with rfl | hm
          · omega
          · exact Nat.lt_trans (by omega) (hlater m hm)
        rw [keep_cons, hone, addKey_of_lt (habove hall)]
        rfl

end ClusterCache.Levels
