import ClusterCache.Text.Blank
import Mathlib.Data.List.DropRight

/-!
# Blanks and separators

What is left when the blanks around a text are dropped begins and ends with something else, and is
the text itself if that did so already.  Cutting at a separator undoes joining with it.
-/

namespace ClusterCache.Text

variable {cs : List Char} {separator : Char}

/-! ## Blanks around a text -/

def AllBlank (cs : List Char) : Prop := ∀ c ∈ cs, isBlank c = true

/-- A text that neither begins nor ends with a blank; the empty one is such a text. -/
def IsTrimmed (cs : List Char) : Prop :=
  (∀ c ∈ cs.head?, isBlank c = false) ∧ ∀ c ∈ cs.getLast?, isBlank c = false

instance (cs : List Char) : Decidable (AllBlank cs) :=
  decidable_of_iff (cs.all isBlank = true) List.all_eq_true

theorem isTrimmed_iff : IsTrimmed cs ↔
    cs.head?.any isBlank = false ∧ cs.getLast?.any isBlank = false := by
  rw [IsTrimmed, Option.any_eq_false, Option.any_eq_false]
  simp

instance (cs : List Char) : Decidable (IsTrimmed cs) := decidable_of_iff' _ isTrimmed_iff

theorem allBlank_nil : AllBlank [] := nofun

theorem trim_eq (cs : List Char) : trim cs = (cs.dropWhile isBlank).rdropWhile isBlank := rfl

theorem mem_of_mem_trim {c : Char} (h : c ∈ trim cs) : c ∈ cs :=
  (List.dropWhile_suffix isBlank).subset ((List.rdropWhile_prefix isBlank _).subset h)

theorem trimEnd_append_of_allBlank {after : List Char} (hafter : AllBlank after) (cs : List Char) :
    trimEnd (cs ++ after) = trimEnd cs := by
  have hreverse : ∀ c ∈ after.reverse, isBlank c = true := by simpa [AllBlank] using hafter
  rw [trimEnd, List.reverse_append, List.dropWhile_append_of_pos hreverse, trimEnd]

theorem trimEnd_append_cons {c : Char} (hc : isBlank c = false) (as bs : List Char) :
    trimEnd (as ++ c :: bs) = as ++ c :: trimEnd bs := by
  have hstop : (c :: as.reverse).dropWhile isBlank = c :: as.reverse :=
    List.dropWhile_cons_of_neg (by simpa using hc)
  rw [trimEnd, trimEnd, List.reverse_append, List.reverse_cons, List.append_assoc,
    List.singleton_append, List.dropWhile_append, hstop]
  split_ifs with hnone
  · simp [List.isEmpty_iff.mp hnone]
  · simp

/-- A text is blank, or it has a first character that is not. -/
theorem allBlank_or_exists (cs : List Char) :
    AllBlank cs ∨ ∃ before c after, cs = before ++ c :: after ∧ AllBlank before ∧
      isBlank c = false := by
  induction cs with
  | nil => exact Or.inl nofun
  | cons c cs ih =>
      cases hc : isBlank c with
      | false => exact Or.inr ⟨[], c, cs, rfl, nofun, hc⟩
      | true =>
          rcases ih with hall | ⟨before, d, after, rfl, hbefore, hd⟩
          · exact Or.inl (List.forall_mem_cons.mpr ⟨hc, hall⟩)
          · exact Or.inr ⟨c :: before, d, after, rfl, List.forall_mem_cons.mpr ⟨hc, hbefore⟩, hd⟩

theorem trim_of_allBlank (h : AllBlank cs) : trim cs = [] := by
  rw [trim, List.dropWhile_eq_nil_iff.mpr h]
  rfl

/-- What comes before the first character that is not blank is dropped, if it is blank, and what
comes after it loses the blanks at its end. -/
theorem trim_append_cons {before : List Char} {c : Char} (hbefore : AllBlank before)
    (hc : isBlank c = false) (after : List Char) :
    trim (before ++ c :: after) = c :: trimEnd after := by
  rw [trim, List.dropWhile_append_of_pos hbefore, List.dropWhile_cons_of_neg (by simpa using hc)]
  exact trimEnd_append_cons hc [] after

/-- Dropping the blanks at the end first makes no difference. -/
theorem trim_trimEnd (cs : List Char) : trim (trimEnd cs) = trim cs := by
  rcases allBlank_or_exists cs with hall | ⟨before, c, after, rfl, hbefore, hc⟩
  · have hend : trimEnd cs = [] := trimEnd_append_of_allBlank hall []
    rw [hend, trim_of_allBlank hall]
    rfl
  · rw [trimEnd_append_cons hc, trim_append_cons hbefore hc, trim_append_cons hbefore hc]
    exact congrArg (c :: ·) (List.rdropWhile_idempotent isBlank after)

theorem isTrimmed_trim (cs : List Char) : IsTrimmed (trim cs) := by
  constructor
  · rcases allBlank_or_exists cs with hall | ⟨before, c, after, rfl, hbefore, hc⟩
    · rw [trim_of_allBlank hall]
      nofun
    · rw [trim_append_cons hbefore hc, List.head?_cons]
      rintro _ ⟨⟩
      exact hc
  · intro c hc
    rw [trim_eq] at hc
    have hne : (cs.dropWhile isBlank).rdropWhile isBlank ≠ [] := by
      rintro hnil
      rw [hnil] at hc
      cases hc
    rw [List.getLast?_eq_some_getLast hne, Option.mem_some_iff] at hc
    rw [← hc]
    simpa using List.rdropWhile_last_not isBlank (cs.dropWhile isBlank) hne

theorem trim_eq_self (h : IsTrimmed cs) : trim cs = cs := by
  rcases eq_or_ne cs [] with rfl | hne
  · rfl
  · have hstart : cs.dropWhile isBlank = cs := by
      obtain ⟨c, rest, rfl⟩ := List.exists_cons_of_ne_nil hne
      exact List.dropWhile_cons_of_neg (by simpa using h.1 c rfl)
    rw [trim_eq, hstart, List.rdropWhile_eq_self_iff]
    intro hl
    simpa using h.2 _ (List.getLast?_eq_some_getLast hl)

/-- Blanks that are put around a text are dropped again. -/
theorem trim_padded {before after : List Char} (hbefore : AllBlank before)
    (hafter : AllBlank after) (h : IsTrimmed cs) : trim (before ++ cs ++ after) = cs := by
  have hend := trimEnd_append_of_allBlank hafter (before ++ cs)
  rw [← trim_trimEnd, hend, trim_trimEnd]
  cases cs with
  | nil => exact trim_of_allBlank (by simpa using hbefore)
  | cons c cs =>
      have hc : isBlank c = false := h.1 c rfl
      rw [trim_append_cons hbefore hc, ← trim_append_cons allBlank_nil hc]
      exact trim_eq_self h

/-! ## Cutting at a separator -/

/-- Cutting at a separator is what the library does under this name. -/
theorem split_eq_splitOn (separator : Char) (cs : List Char) :
    split separator cs = cs.splitOn separator := by
  induction cs with
  | nil => rfl
  | cons c cs ih =>
      rw [split, List.splitOn_cons_eq_if_modifyHead, ih]
      by_cases hc : c = separator
      · rw [if_pos hc, if_pos (beq_iff_eq.mpr hc)]
      · obtain ⟨piece, pieces, hpieces⟩ :=
          List.exists_cons_of_ne_nil (List.splitOn_ne_nil separator cs)
        rw [if_neg hc, if_neg (by simpa using hc), hpieces, List.modifyHead_cons]

theorem split_append_separator (as bs : List Char) :
    split separator (as ++ separator :: bs) = split separator as ++ split separator bs := by
  simp only [split_eq_splitOn, List.splitOn_append_cons_self]

/-- The separator occurs in none of the pieces. -/
theorem notMem_of_mem_split {piece : List Char} (h : piece ∈ split separator cs) :
    separator ∉ piece := by
  rw [split_eq_splitOn] at h
  induction cs generalizing piece with
  | nil =>
      obtain rfl := List.mem_singleton.mp h
      exact List.not_mem_nil
  | cons c cs ih =>
      rw [List.splitOn_cons_eq_if_modifyHead] at h
      obtain ⟨first, pieces, hpieces⟩ :=
        List.exists_cons_of_ne_nil (List.splitOn_ne_nil separator cs)
      rw [hpieces] at h ih
      split_ifs at h with hc
      · rcases List.mem_cons.mp h with rfl | h
        · exact List.not_mem_nil
        · exact ih h
      · rcases List.mem_cons.mp h with rfl | h
        · have hne : separator ≠ c := fun heq => hc (by simp [heq])
          simpa [hne] using ih List.mem_cons_self
        · exact ih (List.mem_cons_of_mem first h)

theorem splitFirst?_append {before : List Char} (h : separator ∉ before) (after : List Char) :
    splitFirst? separator (before ++ separator :: after) = some (before, after) := by
  induction before with
  | nil => simp [splitFirst?]
  | cons c before ih =>
      rw [List.mem_cons, not_or] at h
      rw [List.cons_append, splitFirst?, if_neg (Ne.symm h.1), ih h.2, Option.map_some]

theorem splitFirst?_eq_none_iff : splitFirst? separator cs = none ↔ separator ∉ cs := by
  induction cs with
  | nil => simp [splitFirst?]
  | cons c cs ih =>
      by_cases hc : c = separator
      · simp [splitFirst?, hc]
      · rw [splitFirst?, if_neg hc, Option.map_eq_none_iff, ih, List.mem_cons, not_or,
          and_iff_right (Ne.symm hc)]

theorem splitFirst?_eq_some_iff {before after : List Char} :
    splitFirst? separator cs = some (before, after) ↔
      cs = before ++ separator :: after ∧ separator ∉ before := by
  constructor
  · intro h
    have hmem : separator ∈ cs := by
      by_contra hn
      rw [splitFirst?_eq_none_iff.mpr hn] at h
      cases h
    obtain ⟨as, bs, rfl, has⟩ := List.eq_append_cons_of_mem hmem
    rw [splitFirst?_append has, Option.some.injEq, Prod.mk.injEq] at h
    obtain ⟨rfl, rfl⟩ := h
    exact ⟨rfl, has⟩
  · rintro ⟨rfl, hbefore⟩
    exact splitFirst?_append hbefore after

end ClusterCache.Text
