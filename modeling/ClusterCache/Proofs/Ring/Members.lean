import ClusterCache.Proofs.Ring.Nearest
import Mathlib.Data.List.Induction

/-!
# The ring as a function of its members

A history of additions and removals says who is a member and at which address.  As long as the
positions of different members are apart, a ring holds exactly the positions of its members,
however it came to have them, so that owners depend on the members alone.
-/

namespace ClusterCache.Ring

open Std

/-- A change of the membership. -/
inductive Edit where
  | add (id address : String)
  | addById (id : String)
  | remove (id : String)
deriving DecidableEq, Repr

/-- Whether an edit asks for a member at an address. -/
def Edit.Adds (e : Edit) (id address : String) : Prop :=
  e = .add id address ∨ e = .addById id ∧ address = id

def edit (r : Ring) : Edit → Ring
  | .add id address => (r.add id address).1
  | .addById id => (r.addById id).1
  | .remove id => (r.remove id).1

/-- One edit after the other. -/
def edits (r : Ring) (es : List Edit) : Ring := es.foldl edit r

@[simp] theorem edits_nil (r : Ring) : r.edits [] = r := rfl

theorem edits_concat (r : Ring) (es : List Edit) (e : Edit) :
    r.edits (es ++ [e]) = (r.edits es).edit e := by
  simp [edits]

/-! ## What a history says -/

/-- A member was asked for at some time. -/
def Added (es : List Edit) (id : String) : Prop := ∃ e ∈ es, ∃ address, e.Adds id address

/-- A member was asked for and has not been removed since. -/
def Active (es : List Edit) (id : String) : Prop :=
  ∃ before e after address, es = before ++ e :: after ∧ e.Adds id address ∧ .remove id ∉ after

/-- The edit that made a member active gave this address, and the member has stayed. -/
def Entered (es : List Edit) (id address : String) : Prop :=
  ∃ before e after, es = before ++ e :: after ∧ e.Adds id address ∧ ¬ Active before id ∧
    .remove id ∉ after

theorem not_active_nil (id : String) : ¬ Active [] id := by
  rintro ⟨before, e, after, address, h, _⟩
  simp at h

theorem not_entered_nil (id address : String) : ¬ Entered [] id address := by
  rintro ⟨before, e, after, h, _⟩
  simp at h

theorem added_concat_iff {es : List Edit} {e : Edit} {id : String} :
    Added (es ++ [e]) id ↔ Added es id ∨ ∃ address, e.Adds id address := by
  simp [Added, or_and_right, exists_or]

/-- The last edit adds the member, or an earlier one does and the last one does not remove it. -/
theorem active_concat_iff {es : List Edit} {e : Edit} {id : String} :
    Active (es ++ [e]) id ↔ (∃ address, e.Adds id address) ∨ Active es id ∧ e ≠ .remove id := by
  constructor
  · rintro ⟨before, x, after, address, hes, hx, hafter⟩
    rcases List.eq_nil_or_concat after with rfl | ⟨after, y, rfl⟩
    · obtain ⟨_, hex⟩ := List.append_inj' hes rfl
      obtain rfl : e = x := by simpa using hex
      exact Or.inl ⟨address, hx⟩
    · rw [List.concat_eq_append, ← List.cons_append, ← List.append_assoc] at hes
      obtain ⟨rfl, hey⟩ := List.append_inj' hes rfl
      obtain rfl : e = y := by simpa using hey
      simp only [List.concat_eq_append, List.mem_append, List.mem_singleton, not_or] at hafter
      exact Or.inr ⟨⟨before, x, after, address, rfl, hx, hafter.1⟩, Ne.symm hafter.2⟩
  · rintro (⟨address, he⟩ | ⟨⟨before, x, after, address, rfl, hx, hafter⟩, he⟩)
    · exact ⟨es, e, [], address, rfl, he, by simp⟩
    · refine ⟨before, x, after ++ [e], address, by simp, hx, ?_⟩
      simp only [List.mem_append, List.mem_singleton, not_or]
      exact ⟨hafter, Ne.symm he⟩

theorem entered_concat_iff {es : List Edit} {e : Edit} {id address : String} :
    Entered (es ++ [e]) id address ↔
      (¬ Active es id ∧ e.Adds id address) ∨ Entered es id address ∧ e ≠ .remove id := by
  constructor
  · rintro ⟨before, x, after, hes, hx, hbefore, hafter⟩
    rcases List.eq_nil_or_concat after with rfl | ⟨after, y, rfl⟩
    · obtain ⟨rfl, hex⟩ := List.append_inj' hes rfl
      obtain rfl : e = x := by simpa using hex
      exact Or.inl ⟨hbefore, hx⟩
    · rw [List.concat_eq_append, ← List.cons_append, ← List.append_assoc] at hes
      obtain ⟨rfl, hey⟩ := List.append_inj' hes rfl
      obtain rfl : e = y := by simpa using hey
      simp only [List.concat_eq_append, List.mem_append, List.mem_singleton, not_or] at hafter
      exact Or.inr ⟨⟨before, x, after, rfl, hx, hbefore, hafter.1⟩, Ne.symm hafter.2⟩
  · rintro (⟨hnone, he⟩ | ⟨⟨before, x, after, rfl, hx, hbefore, hafter⟩, he⟩)
    · exact ⟨es, e, [], rfl, he, hnone, by simp⟩
    · refine ⟨before, x, after ++ [e], by simp, hx, hbefore, ?_⟩
      simp only [List.mem_append, List.mem_singleton, not_or]
      exact ⟨hafter, Ne.symm he⟩

theorem Active.added {es : List Edit} {id : String} (h : Active es id) : Added es id := by
  obtain ⟨before, e, after, address, rfl, he, _⟩ := h
  exact ⟨e, by simp, address, he⟩

/-! ## One edit -/

section Edit

variable (r : Ring) (id address : String)

@[simp] theorem add_localId : (r.add id address).1.localId = r.localId := by
  rw [add]
  split_ifs <;> rfl

@[simp] theorem add_replicas : (r.add id address).1.replicas = r.replicas := by
  rw [add]
  split_ifs <;> rfl

@[simp] theorem remove_localId : (r.remove id).1.localId = r.localId := by
  rw [remove]
  split_ifs <;> rfl

@[simp] theorem remove_replicas : (r.remove id).1.replicas = r.replicas := by
  rw [remove]
  split_ifs <;> rfl

theorem contains_iff : r.contains id = true ↔ ∃ address, r.members[id]? = some address := by
  rw [contains, ← ExtTreeMap.mem_iff_contains, ExtTreeMap.mem_iff_isSome_getElem?,
    Option.isSome_iff_exists]

theorem contains_eq_false_iff : r.contains id = false ↔ r.members[id]? = none := by
  rw [← Bool.not_eq_true, contains_iff, Option.eq_none_iff_forall_ne_some, not_exists]

/-- A member that is there keeps its address. -/
theorem members_add (other : String) :
    (r.add id address).1.members[other]? =
      if other = id then some ((r.members[id]?).getD address) else r.members[other]? := by
  rw [add]
  by_cases hin : r.contains id = true
  · rw [if_pos hin]
    obtain ⟨old, hold⟩ := (r.contains_iff id).mp hin
    by_cases ho : other = id
    · rw [if_pos ho, ho, hold, Option.getD_some]
    · rw [if_neg ho]
  · rw [if_neg hin, lookup_insert]
    by_cases ho : other = id
    · rw [if_pos ho, if_pos ho, (r.contains_eq_false_iff id).mp (by simpa using hin),
        Option.getD_none]
    · rw [if_neg ho, if_neg ho]

theorem members_remove (other : String) :
    (r.remove id).1.members[other]? = if other = id then none else r.members[other]? := by
  rw [remove]
  by_cases hin : r.contains id = true
  · rw [if_pos hin, lookup_erase]
  · rw [if_neg hin]
    by_cases ho : other = id
    · rw [if_pos ho, ho, (r.contains_eq_false_iff id).mp (by simpa using hin)]
    · rw [if_neg ho]

theorem lookup_insertAll (ps : List UInt64) (held : ExtTreeMap UInt64 String) (q : UInt64) :
    (ps.foldl (fun held p => held.insert p id) held)[q]? =
      if q ∈ ps then some id else held[q]? := by
  induction ps generalizing held with
  | nil => simp
  | cons p ps ih =>
      rw [List.foldl_cons, ih, lookup_insert]
      by_cases hq : q ∈ ps
      · simp [hq]
      · by_cases hp : q = p <;> simp [hq, hp]

theorem lookup_release (held : ExtTreeMap UInt64 String) (p q : UInt64) :
    (release id held p)[q]? = if q = p ∧ held[q]? = some id then none else held[q]? := by
  rw [release]
  by_cases hp : held[p]? = some id
  · rw [if_pos hp, lookup_erase]
    by_cases hq : q = p
    · rw [if_pos hq, if_pos ⟨hq, hq ▸ hp⟩]
    · rw [if_neg hq, if_neg fun h => hq h.1]
  · rw [if_neg hp, if_neg]
    rintro ⟨rfl, h⟩
    exact hp h

theorem lookup_releaseAll (ps : List UInt64) (held : ExtTreeMap UInt64 String) (q : UInt64) :
    (ps.foldl (release id) held)[q]? =
      if q ∈ ps ∧ held[q]? = some id then none else held[q]? := by
  induction ps generalizing held with
  | nil => simp
  | cons p ps ih =>
      rw [List.foldl_cons, ih, lookup_release]
      by_cases hheld : held[q]? = some id
      · by_cases hp : q = p <;> simp [hheld, hp]
      · simp [hheld]

theorem mem_claims {p : UInt64} :
    p ∈ r.claims id ↔ ∃ i < r.replicas, p = place (positionLabel id i) := by
  simp [claims, eq_comm]

/-- A new member takes all the positions it claims. -/
theorem positions_add (p : UInt64) :
    (r.add id address).1.positions[p]? =
      if r.contains id = false ∧ p ∈ r.claims id then some id else r.positions[p]? := by
  rw [add]
  by_cases hin : r.contains id = true
  · rw [if_pos hin, if_neg (by simp [hin])]
  · rw [if_neg hin, lookup_insertAll]
    simp only [Bool.not_eq_true] at hin
    simp [hin]

/-- A member that leaves gives up those positions it claims that are still its own. -/
theorem positions_remove (p : UInt64) :
    (r.remove id).1.positions[p]? =
      if r.contains id = true ∧ p ∈ r.claims id ∧ r.positions[p]? = some id then none
      else r.positions[p]? := by
  rw [remove]
  by_cases hin : r.contains id = true
  · rw [if_pos hin, lookup_releaseAll]
    simp [hin]
  · rw [if_neg hin, if_neg fun h => hin h.1]

end Edit

/-! ## A whole history -/

variable {localId : String} {replicas : Nat} {es : List Edit}

@[simp] theorem edit_localId (r : Ring) (e : Edit) : (r.edit e).localId = r.localId := by
  cases e <;> simp [edit, addById]

@[simp] theorem edit_replicas (r : Ring) (e : Edit) : (r.edit e).replicas = r.replicas := by
  cases e <;> simp [edit, addById]

@[simp] theorem edits_localId (r : Ring) (es : List Edit) : (r.edits es).localId = r.localId := by
  induction es using List.reverseRecOn with
  | nil => rfl
  | append_singleton es e ih => rw [edits_concat, edit_localId, ih]

@[simp] theorem edits_replicas (r : Ring) (es : List Edit) :
    (r.edits es).replicas = r.replicas := by
  induction es using List.reverseRecOn with
  | nil => rfl
  | append_singleton es e ih => rw [edits_concat, edit_replicas, ih]

/-- What an edit does to the address of a member, whichever way it asks for it. -/
theorem members_edit (r : Ring) (e : Edit) (id address : String) :
    (r.edit e).members[id]? = some address ↔
      r.members[id]? = none ∧ e.Adds id address ∨
        r.members[id]? = some address ∧ e ≠ .remove id := by
  have hadd : ∀ other a : String, (r.add other a).1.members[id]? = some address ↔
      r.members[id]? = none ∧ (other = id ∧ a = address) ∨ r.members[id]? = some address := by
    intro other a
    rw [members_add]
    by_cases hid : id = other
    · subst hid
      rw [if_pos rfl]
      cases r.members[id]? <;> simp
    · rw [if_neg hid]
      simp [Ne.symm hid]
  cases e with
  | add other a => simpa [edit, Edit.Adds] using hadd other a
  | addById other =>
      rw [edit, addById, hadd]
      simp only [Edit.Adds, reduceCtorEq, Edit.addById.injEq, false_or, ne_eq, not_false_eq_true,
        and_true]
      constructor
      · rintro (⟨hnone, rfl, rfl⟩ | hsome)
        · exact Or.inl ⟨hnone, rfl, rfl⟩
        · exact Or.inr hsome
      · rintro (⟨hnone, rfl, rfl⟩ | hsome)
        · exact Or.inl ⟨hnone, rfl, rfl⟩
        · exact Or.inr hsome
  | remove other =>
      rw [edit, members_remove]
      by_cases hid : id = other
      · simp [hid, Edit.Adds]
      · simp [hid, Edit.Adds, Ne.symm hid]

theorem active_iff_exists_entered (es : List Edit) (id : String) :
    Active es id ↔ ∃ address, Entered es id address := by
  induction es using List.reverseRecOn with
  | nil => simp [not_active_nil, not_entered_nil]
  | append_singleton es e ih =>
      simp only [active_concat_iff, entered_concat_iff]
      by_cases hactive : Active es id
      · obtain ⟨address, hentered⟩ := ih.mp hactive
        by_cases hremove : e = .remove id
        · simp [hremove, Edit.Adds]
        · exact ⟨fun _ => ⟨address, Or.inr ⟨hentered, hremove⟩⟩,
            fun _ => Or.inr ⟨hactive, hremove⟩⟩
      · have hnone : ∀ address, ¬ Entered es id address := fun address h =>
          hactive (ih.mpr ⟨address, h⟩)
        simp [hactive, hnone]

/-- The members of a ring with their addresses are those of its history. -/
theorem members_edits (id address : String) :
    ((empty localId replicas).edits es).members[id]? = some address ↔ Entered es id address := by
  induction es using List.reverseRecOn generalizing address with
  | nil => simp [empty, not_entered_nil]
  | append_singleton es e ih =>
      have hnone : ((empty localId replicas).edits es).members[id]? = none ↔ ¬ Active es id := by
        rw [active_iff_exists_entered, Option.eq_none_iff_forall_ne_some, not_exists]
        exact forall_congr' fun a => not_congr (ih a)
      rw [edits_concat, members_edit, entered_concat_iff, hnone, ih]

theorem contains_edits (id : String) :
    ((empty localId replicas).edits es).contains id = true ↔ Active es id := by
  simp only [contains_iff, members_edits, active_iff_exists_entered]

theorem mem_ids (r : Ring) (id : String) : id ∈ r.ids ↔ r.contains id = true := by
  rw [ids, ExtTreeMap.mem_keys, contains, ExtTreeMap.mem_iff_contains]

theorem address?_eq_some {r : Ring} {id address : String} :
    r.address? id = some address ↔ r.members[id]? = some address ∧ address ≠ "" := by
  simp [address?, Option.filter_eq_some_iff]

/-! ## Positions that are apart -/

/-- No two of the members asked for claim the same position. -/
def Apart (replicas : Nat) (es : List Edit) : Prop :=
  ∀ id other, Added es id → Added es other → ∀ i < replicas, ∀ j < replicas,
    place (positionLabel id i) = place (positionLabel other j) → id = other

/-- All positions that the members asked for claim are different. -/
def Spread (replicas : Nat) (es : List Edit) : Prop :=
  ∀ id other, Added es id → Added es other → ∀ i < replicas, ∀ j < replicas,
    place (positionLabel id i) = place (positionLabel other j) → id = other ∧ i = j

theorem Spread.apart (h : Spread replicas es) : Apart replicas es :=
  fun id other hid hother i hi j hj heq => (h id other hid hother i hi j hj heq).1

theorem Apart.init {e : Edit} (h : Apart replicas (es ++ [e])) : Apart replicas es :=
  fun id other hid hother => h id other (added_concat_iff.mpr (Or.inl hid))
    (added_concat_iff.mpr (Or.inl hother))

/-- The positions held are those of the members, each held by its member. -/
theorem positions_edits (h : Apart (max 1 replicas) es) (p : UInt64) (id : String) :
    ((empty localId replicas).edits es).positions[p]? = some id ↔
      Active es id ∧ ∃ i < max 1 replicas, p = place (positionLabel id i) := by
  induction es using List.reverseRecOn generalizing id with
  | nil => simp [empty, not_active_nil]
  | append_singleton es e ih =>
      have hinit := h.init
      generalize hr : (empty localId replicas).edits es = r at ih
      have hreplicas : r.replicas = max 1 replicas := by simp [← hr, empty]
      have hcontains : ∀ id, r.contains id = true ↔ Active es id := by
        simp [← hr, contains_edits]
      have hclaims : ∀ id, p ∈ r.claims id ↔
          ∃ i < max 1 replicas, p = place (positionLabel id i) := by
        simp [mem_claims, hreplicas]
      -- A member that comes anew shares no position with one that was there.
      have hadd : ∀ other address : String, Added (es ++ [e]) other →
          ((r.add other address).1.positions[p]? = some id ↔
            (other = id ∨ Active es id) ∧
              ∃ i < max 1 replicas, p = place (positionLabel id i)) := by
        intro other address hother
        rw [positions_add]
        by_cases hnew : r.contains other = false ∧ p ∈ r.claims other
        · rw [if_pos hnew, Option.some.injEq]
          obtain ⟨i, hi, hp⟩ := (hclaims other).mp hnew.2
          constructor
          · rintro rfl
            exact ⟨Or.inl rfl, i, hi, hp⟩
          · rintro ⟨rfl | hactive, j, hj, hp'⟩
            · rfl
            · exact h other id hother (added_concat_iff.mpr (Or.inl hactive.added)) i hi j hj
                (hp.symm.trans hp')
        · rw [if_neg hnew, ih hinit]
          refine and_congr_left fun hp => ⟨Or.inr, ?_⟩
          rintro (rfl | hactive)
          · by_contra hgone
            have hfalse : r.contains other = false := by
              rw [← Bool.not_eq_true, hcontains]
              exact hgone
            exact hnew ⟨hfalse, (hclaims other).mpr hp⟩
          · exact hactive
      rw [edits_concat, hr, active_concat_iff]
      cases e with
      | add other address =>
          rw [edit, hadd other address (added_concat_iff.mpr (Or.inr ⟨address, Or.inl rfl⟩))]
          simp [Edit.Adds]
      | addById other =>
          rw [edit, addById,
            hadd other other (added_concat_iff.mpr (Or.inr ⟨other, Or.inr ⟨rfl, rfl⟩⟩))]
          simp [Edit.Adds]
      | remove other =>
          rw [edit, positions_remove]
          simp only [Edit.Adds, reduceCtorEq, false_and, or_false, exists_false, false_or, ne_eq,
            Edit.remove.injEq]
          by_cases hgone : r.contains other = true ∧ p ∈ r.claims other ∧
              r.positions[p]? = some other
          · rw [if_pos hgone]
            simp only [reduceCtorEq, false_iff, not_and, not_exists]
            rintro ⟨hactive, hne⟩ i hi hp
            obtain ⟨j, hj, hp'⟩ := (hclaims other).mp hgone.2.1
            have hother := ((ih hinit other).mp hgone.2.2).1
            exact hne (hinit other id hother.added hactive.added j hj i hi (hp'.symm.trans hp))
          · rw [if_neg hgone, ih hinit]
            refine and_congr_left fun hp => ⟨fun hactive => ⟨hactive, ?_⟩, fun h => h.1⟩
            rintro rfl
            exact hgone ⟨(hcontains other).mpr hactive, (hclaims other).mpr hp,
              (ih hinit other).mpr ⟨hactive, hp⟩⟩

end ClusterCache.Ring
