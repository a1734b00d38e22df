import ClusterCache.Proofs.Ring.Members

/-!
# Which keys move

A member that comes takes keys over and no key goes to anybody else; a member that goes leaves its
keys to others and no other key changes hands.  None of this depends on the positions of members
being apart: where two members claim one position the later one holds it, and whatever is held is
held by a member that claims it.
-/

namespace ClusterCache.Ring

open Std

/-- Where the search for the holder of a place ends, with the holder. -/
def first? (r : Ring) (start : UInt64) : Option (UInt64 × String) :=
  (r.positions.toList.find? fun p => start ≤ p.1).or r.positions.toList.head?

theorem holder?_eq (r : Ring) (start : UInt64) : r.holder? start = (r.first? start).map (·.2) :=
  rfl

/-- Every position is held by a member that claims it. -/
def Anchored (r : Ring) : Prop :=
  ∀ (p : UInt64) (id : String), r.positions[p]? = some id → r.contains id = true ∧ p ∈ r.claims id

section Owners

variable {r : Ring} {key : String}

theorem first?_owner (hne : r.positions ≠ ∅) (key : String) :
    ∃ q : UInt64, r.first? (place key) = some (q, r.owner key) ∧
      r.positions[q]? = some (r.owner key) ∧ ∀ (p : UInt64) (other : String),
        r.positions[p]? = some other → clockwise (place key) q ≤ clockwise (place key) p := by
  cases hfirst : r.first? (place key) with
  | none =>
      have hnone : r.holder? (place key) = none := by rw [holder?_eq, hfirst, Option.map_none]
      exact absurd (holder?_eq_none_iff.mp hnone) hne
  | some found =>
      obtain ⟨q, holder⟩ := found
      have howner : r.owner key = holder := by
        rw [owner, holder?_eq, hfirst, Option.map_some, Option.getD_some]
      obtain ⟨hmem, hle⟩ := clockwise_first_le r.toList_positions_up hfirst
      subst howner
      refine ⟨q, rfl, ExtTreeMap.mem_toList_iff_getElem?_eq_some.mp hmem, fun p other hp => ?_⟩
      exact hle (p, other) (ExtTreeMap.mem_toList_iff_getElem?_eq_some.mpr hp)

theorem ne_empty_of_held {p : UInt64} {id : String} (h : r.positions[p]? = some id) :
    r.positions ≠ ∅ := by
  intro hempty
  rw [hempty] at h
  simp at h

end Owners

section Add

variable (r : Ring) (id address : String)

theorem held_add {p : UInt64} {other : String} (h : r.positions[p]? = some other) :
    ∃ holder, (r.add id address).1.positions[p]? = some holder := by
  rw [positions_add]
  split_ifs
  · exact ⟨id, rfl⟩
  · exact ⟨other, h⟩

theorem held_before_add {p : UInt64} {other : String} (hother : other ≠ id)
    (h : (r.add id address).1.positions[p]? = some other) : r.positions[p]? = some other := by
  rw [positions_add] at h
  split_ifs at h
  · exact absurd (Option.some.inj h).symm hother
  · exact h

theorem held_of_add (hnew : r.contains id = false) {p : UInt64} (hclaim : p ∈ r.claims id) :
    (r.add id address).1.positions[p]? = some id := by
  rw [positions_add, if_pos ⟨hnew, hclaim⟩]

theorem owner_add (key : String) :
    (r.add id address).1.owner key = r.owner key ∨ (r.add id address).1.owner key = id := by
  by_cases hempty : (r.add id address).1.positions = ∅
  · -- Nothing is held afterwards, so that nothing was held before.
    have hbefore : r.positions = ∅ := by
      apply ExtTreeMap.ext_getElem?
      intro p
      rw [ExtTreeMap.getElem?_empty, Option.eq_none_iff_forall_ne_some]
      intro other hp
      obtain ⟨holder, hholder⟩ := r.held_add id address hp
      exact ne_empty_of_held hholder hempty
    left
    rw [owner_of_empty hempty, owner_of_empty hbefore, add_localId]
  · obtain ⟨p, hp, hleast⟩ := owner_spec hempty key
    rw [or_iff_not_imp_right]
    intro hother
    refine (owner_eq_of_nearest (r.held_before_add id address hother hp) ?_).symm
    intro q holder hq
    obtain ⟨later, hlater⟩ := r.held_add id address hq
    exact hleast q later hlater

theorem owner_add_eq_iff (hr : r.Anchored) (hnew : r.contains id = false) {key : String}
    {q : UInt64} (hq : r.positions[q]? = some (r.owner key))
    (hleast : ∀ (p : UInt64) (other : String), r.positions[p]? = some other →
      clockwise (place key) q ≤ clockwise (place key) p) :
    (r.add id address).1.owner key = id ↔
      ∃ i < r.replicas, clockwise (place key) (place (positionLabel id i)) ≤
        clockwise (place key) q := by
  obtain ⟨later, hlater⟩ := r.held_add id address hq
  obtain ⟨p, hp, hnearest⟩ := owner_spec (ne_empty_of_held hlater) key
  constructor
  · intro howner
    rw [howner, positions_add] at hp
    split_ifs at hp with hclaim
    · obtain ⟨i, hi, rfl⟩ := (r.mem_claims id).mp hclaim.2
      exact ⟨i, hi, hnearest q later hlater⟩
    · -- A newcomer holds nothing but what it claims.
      have hold := (hr p id hp).1
      rw [hnew] at hold
      cases hold
  · rintro ⟨i, hi, hle⟩
    have hclaim : place (positionLabel id i) ∈ r.claims id := (r.mem_claims id).mpr ⟨i, hi, rfl⟩
    by_contra hother
    have hbefore := r.held_before_add id address hother hp
    have hheld := r.held_of_add id address hnew hclaim
    have hpq : clockwise (place key) p ≤ clockwise (place key) q :=
      UInt64.le_trans (hnearest _ id hheld) hle
    have hqp := hleast p _ hbefore
    -- The nearest position is the one claimed, and the newcomer holds that.
    have hsame : p = place (positionLabel id i) := by
      apply clockwise_injective (place key)
      exact UInt64.le_antisymm (hnearest _ id hheld) (UInt64.le_trans hle hqp)
    rw [hsame, hheld] at hp
    exact hother (Option.some.inj hp).symm

end Add

section Remove

variable {r : Ring} {id : String}

theorem held_remove_iff (hr : r.Anchored) (p : UInt64) (other : String) :
    (r.remove id).1.positions[p]? = some other ↔ r.positions[p]? = some other ∧ other ≠ id := by
  rw [positions_remove]
  split_ifs with hgone
  · simp only [false_iff, not_and, not_not]
    intro hp
    exact Option.some.inj (hp.symm.trans hgone.2.2)
  · refine ⟨fun hp => ⟨hp, ?_⟩, And.left⟩
    rintro rfl
    obtain ⟨hcontains, hclaim⟩ := hr p other hp
    exact hgone ⟨hcontains, hclaim, hp⟩

theorem owner_remove_of_ne (hr : r.Anchored) {key : String} (hother : r.owner key ≠ id) :
    (r.remove id).1.owner key = r.owner key := by
  by_cases hempty : r.positions = ∅
  · have hafter : (r.remove id).1.positions = ∅ := by
      apply ExtTreeMap.ext_getElem?
      intro p
      rw [ExtTreeMap.getElem?_empty, Option.eq_none_iff_forall_ne_some]
      intro other hp
      exact ne_empty_of_held ((held_remove_iff hr p other).mp hp).1 hempty
    rw [owner_of_empty hempty, owner_of_empty hafter, remove_localId]
  · obtain ⟨p, hp, hleast⟩ := owner_spec hempty key
    apply owner_eq_of_nearest ((held_remove_iff hr p _).mpr ⟨hp, hother⟩)
    intro q other hq
    exact hleast q other ((held_remove_iff hr q other).mp hq).1

theorem owner_remove_mem (hr : r.Anchored) (hne : (r.remove id).1.positions ≠ ∅) (key : String) :
    (r.remove id).1.owner key ≠ id ∧ r.contains ((r.remove id).1.owner key) = true := by
  obtain ⟨p, hp, _⟩ := owner_spec hne key
  obtain ⟨hbefore, hother⟩ := (held_remove_iff hr p _).mp hp
  exact ⟨hother, (hr p _ hbefore).1⟩

end Remove

/-! ## Histories -/

theorem contains_add (r : Ring) (id address other : String) :
    (r.add id address).1.contains other = true ↔ other = id ∨ r.contains other = true := by
  simp only [contains_iff, members_add]
  by_cases ho : other = id <;> simp [ho]

theorem contains_remove (r : Ring) (id other : String) :
    (r.remove id).1.contains other = true ↔ other ≠ id ∧ r.contains other = true := by
  simp only [contains_iff, members_remove]
  by_cases ho : other = id <;> simp [ho]

theorem Anchored.add {r : Ring} (hr : r.Anchored) (id address : String) :
    (r.add id address).1.Anchored := by
  intro p other hp
  rw [positions_add] at hp
  rw [contains_add, claims, add_replicas, ← claims]
  split_ifs at hp with hnew
  · obtain rfl := Option.some.inj hp
    exact ⟨Or.inl rfl, hnew.2⟩
  · exact (hr p other hp).imp_left Or.inr

theorem Anchored.remove {r : Ring} (hr : r.Anchored) (id : String) : (r.remove id).1.Anchored := by
  intro p other hp
  obtain ⟨hbefore, hother⟩ := (held_remove_iff hr p other).mp hp
  obtain ⟨hcontains, hclaim⟩ := hr p other hbefore
  rw [contains_remove, claims, remove_replicas, ← claims]
  exact ⟨⟨hother, hcontains⟩, hclaim⟩

theorem Anchored.edit {r : Ring} (hr : r.Anchored) (e : Edit) : (r.edit e).Anchored := by
  cases e with
  | add id address => exact hr.add id address
  | addById id => exact hr.add id id
  | remove id => exact hr.remove id

theorem anchored_edits (localId : String) (replicas : Nat) (es : List Edit) :
    ((empty localId replicas).edits es).Anchored := by
  induction es using List.reverseRecOn with
  | nil => exact fun p id hp => by simp [empty] at hp
  | append_singleton es e ih =>
      rw [edits_concat]
      exact ih.edit e

theorem edit_of_adds {e : Edit} {id address : String} (h : e.Adds id address) (r : Ring) :
    r.edit e = (r.add id address).1 := by
  rcases h with rfl | ⟨rfl, rfl⟩ <;> rfl

/-- Who owns keys in a ring with a history, and what one more edit changes in that. -/
structure OwnersMove (localId : String) (replicas : Nat) (es : List Edit) (r : Ring) : Prop where
  held : ∀ (p : UInt64) (id : String), r.positions[p]? = some id →
    Active es id ∧ ∃ i < replicas, p = place (positionLabel id i)
  owner_active : r.positions ≠ ∅ → ∀ key, Active es (r.owner key)
  owner_alone : r.positions = ∅ → ∀ key, r.owner key = localId
  /-- A newcomer holds all its positions, those also that another member held before. -/
  add_holds : ∀ e id address, e.Adds id address → ¬ Active es id →
    ∀ i < replicas, (r.edit e).positions[place (positionLabel id i)]? = some id
  /-- A key stays where it is or goes to the member that comes. -/
  add_owner : ∀ e id address, e.Adds id address → ∀ key,
    (r.edit e).owner key = r.owner key ∨ (r.edit e).owner key = id
  /-- It goes there if the newcomer is at least as near as the position found before. -/
  add_takes : ∀ e id address, e.Adds id address → ¬ Active es id → r.positions ≠ ∅ → ∀ key,
    ∃ q, r.first? (place key) = some (q, r.owner key) ∧
      ((r.edit e).owner key = id ↔ ∃ i < replicas,
        clockwise (place key) (place (positionLabel id i)) ≤ clockwise (place key) q)
  remove_keeps : ∀ id key, r.owner key ≠ id → (r.edit (.remove id)).owner key = r.owner key
  remove_moves : ∀ id key, r.owner key = id → (r.edit (.remove id)).positions ≠ ∅ →
    (r.edit (.remove id)).owner key ≠ id ∧ Active es ((r.edit (.remove id)).owner key)
  remove_last : ∀ id key, r.owner key = id → (r.edit (.remove id)).positions = ∅ →
    (r.edit (.remove id)).owner key = localId

/-- However a ring has come about, an edit moves no key that it need not move. -/
theorem minimal_disruption (localId : String) (replicas : Nat) (es : List Edit) :
    OwnersMove localId (max 1 replicas) es ((empty localId replicas).edits es) := by
  have hr := anchored_edits localId replicas es
  have hactive : ∀ id, ((empty localId replicas).edits es).contains id = true ↔ Active es id :=
    fun id => contains_edits id
  have hlocal : ((empty localId replicas).edits es).localId = localId := edits_localId _ _
  have hreplicas : ((empty localId replicas).edits es).replicas = max 1 replicas :=
    edits_replicas _ _
  generalize (empty localId replicas).edits es = r at *
  have habsent : ∀ {id}, ¬ Active es id → r.contains id = false := by
    intro id hnew
    rw [← Bool.not_eq_true, hactive]
    exact hnew
  refine
    { held := fun p id hp => ?_
      owner_active := fun hne key => ?_
      owner_alone := fun hempty key => (owner_of_empty hempty key).trans hlocal
      add_holds := fun e id address he hnew i hi => ?_
      add_owner := fun e id address he key => ?_
      add_takes := fun e id address he hnew hne key => ?_
      remove_keeps := fun id key hother => owner_remove_of_ne hr hother
      remove_moves := fun id key _ hne => ?_
      remove_last := fun id key _ hempty => ?_ }
  · obtain ⟨hcontains, hclaim⟩ := hr p id hp
    rw [mem_claims, hreplicas] at hclaim
    exact ⟨(hactive id).mp hcontains, hclaim⟩
  · obtain ⟨p, hp, _⟩ := owner_spec hne key
    exact (hactive _).mp (hr p _ hp).1
  · rw [edit_of_adds he]
    apply r.held_of_add id address (habsent hnew)
    exact (r.mem_claims id).mpr ⟨i, hreplicas ▸ hi, rfl⟩
  · rw [edit_of_adds he]
    exact r.owner_add id address key
  · obtain ⟨q, hfirst, hq, hleast⟩ := first?_owner hne key
    refine ⟨q, hfirst, ?_⟩
    rw [edit_of_adds he, ← hreplicas]
    exact r.owner_add_eq_iff id address hr (habsent hnew) hq hleast
  · obtain ⟨hother, hcontains⟩ := owner_remove_mem hr hne key
    exact ⟨hother, (hactive _).mp hcontains⟩
  · apply (owner_of_empty hempty key).trans
    rw [edit_localId, hlocal]

end ClusterCache.Ring
