import ClusterCache.Proofs.Ring.Members

/-!
# Who owns a key

The owner of a key is the member with the position nearest to it.  With the positions of all
members different, the ring is determined by its members: its size, its owners and its addresses
can be told from them, and two histories that lead to the same members lead to the same owners.
-/

namespace ClusterCache.Ring

open Std

variable {localId : String} {replicas : Nat} {es : List Edit}

/-- A member has a position to which no position of any member is nearer. -/
def Nearest (replicas : Nat) (es : List Edit) (key id : String) : Prop :=
  Active es id ∧ ∃ i < replicas, ∀ other, Active es other → ∀ j < replicas,
    clockwise (place key) (place (positionLabel id i)) ≤
      clockwise (place key) (place (positionLabel other j))

/-- What can be told of a ring from its history. -/
structure Determined (localId : String) (replicas : Nat) (es : List Edit) (r : Ring) : Prop where
  position_iff : ∀ (p : UInt64) (id : String), r.positions[p]? = some id ↔
    Active es id ∧ ∃ i < replicas, p = place (positionLabel id i)
  ids_iff : ∀ id, id ∈ r.ids ↔ Active es id
  ids_nodup : r.ids.Nodup
  size_eq : r.size = replicas * r.ids.length
  isReady_iff : r.isReady = true ↔ ∃ id, Active es id
  owner_iff : (∃ id, Active es id) → ∀ key id, r.owner key = id ↔ Nearest replicas es key id
  owner_alone : (∀ id, ¬ Active es id) → ∀ key, r.owner key = localId
  address_iff : ∀ id address, r.address? id = some address ↔ Entered es id address ∧ address ≠ ""

theorem positions_eq_empty_iff (h : Apart (max 1 replicas) es) :
    ((empty localId replicas).edits es).positions = ∅ ↔ ∀ id, ¬ Active es id := by
  constructor
  · intro hempty id hactive
    have hheld : ((empty localId replicas).edits es).positions[place (positionLabel id 0)]? =
        some id := (positions_edits h _ id).mpr ⟨hactive, 0, by omega, rfl⟩
    rw [hempty] at hheld
    simp at hheld
  · intro hnone
    refine ExtTreeMap.ext_getElem? fun p => ?_
    rw [ExtTreeMap.getElem?_empty, Option.eq_none_iff_forall_ne_some]
    exact fun id hheld => hnone id ((positions_edits h p id).mp hheld).1

/-- The owner of a key is the member with the nearest position. -/
theorem nearest_owner (localId : String) (h : Apart (max 1 replicas) es)
    (hsome : ∃ id, Active es id) (key : String) :
    Nearest (max 1 replicas) es key (((empty localId replicas).edits es).owner key) := by
  obtain ⟨id, hid⟩ := hsome
  have hne : ((empty localId replicas).edits es).positions ≠ ∅ := fun hempty =>
    (positions_eq_empty_iff h).mp hempty id hid
  obtain ⟨p, hp, hleast⟩ := owner_spec hne key
  obtain ⟨hactive, i, hi, rfl⟩ := (positions_edits h p _).mp hp
  refine ⟨hactive, i, hi, fun other hother j hj => ?_⟩
  exact hleast _ other ((positions_edits h _ other).mpr ⟨hother, j, hj, rfl⟩)

theorem owner_of_nearest (h : Apart (max 1 replicas) es) {key id : String}
    (hnearest : Nearest (max 1 replicas) es key id) :
    ((empty localId replicas).edits es).owner key = id := by
  obtain ⟨hactive, i, hi, hleast⟩ := hnearest
  refine owner_eq_of_nearest ((positions_edits h _ id).mpr ⟨hactive, i, hi, rfl⟩) ?_
  intro q other hq
  obtain ⟨hother, j, hj, rfl⟩ := (positions_edits h q other).mp hq
  exact hleast other hother j hj

/-- Every member holds all its positions. -/
theorem size_edits (h : Spread (max 1 replicas) es) :
    ((empty localId replicas).edits es).size =
      max 1 replicas * ((empty localId replicas).edits es).ids.length := by
  generalize hr : (empty localId replicas).edits es = r
  have hreplicas : r.replicas = max 1 replicas := by simp [← hr, empty]
  have hids : ∀ id, id ∈ r.ids ↔ Active es id := by simp [← hr, mem_ids, contains_edits]
  -- The positions are those that the members claim, and no two claims are for the same one.
  have hnodup : (r.ids.flatMap r.claims).Nodup := by
    rw [List.nodup_flatMap]
    constructor
    · intro id hid
      refine List.Nodup.map_on (fun i hi j hj heq => ?_) List.nodup_range
      rw [List.mem_range, hreplicas] at hi hj
      have hadded := ((hids id).mp hid).added
      exact (h id id hadded hadded i hi j hj heq).2
    · refine (ExtTreeMap.nodup_keys (t := r.members)).pairwise_of_forall_ne ?_
      intro id hid other hother hne p hp hp'
      obtain ⟨i, hi, rfl⟩ := (r.mem_claims id).mp hp
      obtain ⟨j, hj, heq⟩ := (r.mem_claims other).mp hp'
      rw [hreplicas] at hi hj
      exact hne (h.apart id other ((hids id).mp hid).added ((hids other).mp hother).added
        i hi j hj heq)
  have hlength : (r.ids.flatMap r.claims).length = max 1 replicas * r.ids.length := by
    simp [claims, hreplicas, Nat.mul_comm]
  rw [← hlength]
  refine size_eq_length hnodup fun p => ?_
  rw [← ExtTreeMap.mem_iff_contains, ExtTreeMap.mem_iff_isSome_getElem?, Option.isSome_iff_exists,
    List.mem_flatMap]
  refine exists_congr fun id => ?_
  rw [← hr, positions_edits h.apart, hr, hids, mem_claims, hreplicas]

/-- The ring is determined by its history, and its owners by its members alone. -/
theorem determined_by_members (localId : String) (replicas : Nat) (es : List Edit)
    (h : Spread (max 1 replicas) es) :
    Determined localId (max 1 replicas) es ((empty localId replicas).edits es) ∧
      ∀ localId' replicas' es', max 1 replicas' = max 1 replicas →
        Spread (max 1 replicas') es' → (∀ id, Active es' id ↔ Active es id) →
        (∃ id, Active es id) ∨ localId' = localId →
        ∀ key, ((empty localId' replicas').edits es').owner key =
          ((empty localId replicas).edits es).owner key := by
  constructor
  · refine
      { position_iff := fun p id => positions_edits h.apart p id
        ids_iff := fun id => by rw [mem_ids, contains_edits]
        ids_nodup := ExtTreeMap.nodup_keys
        size_eq := size_edits h
        isReady_iff := ?_
        owner_iff := fun hsome key id => ⟨?_, owner_of_nearest h.apart⟩
        owner_alone := fun hnone key => ?_
        address_iff := fun id address => by rw [address?_eq_some, members_edits] }
    · rw [isReady, Bool.not_eq_true', ← Bool.not_eq_true, ExtTreeMap.isEmpty_iff,
        positions_eq_empty_iff h.apart]
      simp
    · rintro rfl
      exact nearest_owner localId h.apart hsome key
    · rw [owner_of_empty ((positions_eq_empty_iff h.apart).mpr hnone), edits_localId]
      rfl
  · intro localId' replicas' es' hreplicas h' hsame halone key
    by_cases hsome : ∃ id, Active es id
    · have hnearest := nearest_owner localId h.apart hsome key
      refine owner_of_nearest h'.apart ?_
      simpa only [Nearest, hsame, hreplicas] using hnearest
    · have hnone : ∀ id, ¬ Active es id := not_exists.mp hsome
      have hlocal := halone.resolve_left hsome
      rw [owner_of_empty ((positions_eq_empty_iff h.apart).mpr hnone),
        owner_of_empty ((positions_eq_empty_iff h'.apart).mpr fun id =>
          (hsame id).not.mpr (hnone id)), edits_localId, edits_localId, hlocal]
      rfl

/-- Two members that came by different ways, one of them after it had gone. -/
theorem determined_by_members_of_two :
    let es : List Edit := [.add "a" "x", .addById "b", .add "a" "y", .remove "b", .addById "b"]
    let es' : List Edit := [.addById "b", .remove "c", .add "a" "z"]
    Spread 2 es ∧ Spread 2 es' ∧ ((empty "a" 2).edits es).size = 4 ∧
      ((empty "a" 2).edits es).address? "a" = some "x" ∧
      ∀ key, ((empty "c" 2).edits es').owner key = ((empty "a" 2).edits es).owner key := by
  intro es es'
  have hplaces : ∀ id ∈ ["a", "b"], ∀ other ∈ ["a", "b"], ∀ i < 2, ∀ j < 2,
      place (positionLabel id i) = place (positionLabel other j) → id = other ∧ i = j := by
    decide +kernel
  have hadded : ∀ id, Added es id ∨ Added es' id → id ∈ ["a", "b"] := by
    intro id hid
    simp only [es, es', Added, Edit.Adds, List.mem_cons, List.not_mem_nil, or_false,
      exists_eq_or_imp, exists_eq_left] at hid
    grind
  have hspread : Spread 2 es := fun id other hid hother =>
    hplaces id (hadded id (Or.inl hid)) other (hadded other (Or.inl hother))
  have hspread' : Spread 2 es' := fun id other hid hother =>
    hplaces id (hadded id (Or.inr hid)) other (hadded other (Or.inr hother))
  obtain ⟨hdetermined, hall⟩ := determined_by_members "a" 2 es hspread
  obtain ⟨hdetermined', _⟩ := determined_by_members "c" 2 es' hspread'
  have hids : ((empty "c" 2).edits es').ids = ((empty "a" 2).edits es).ids := by decide +kernel
  refine ⟨hspread, hspread', hdetermined.size_eq.trans (by decide +kernel), ?_, ?_⟩
  · exact (hdetermined.address_iff "a" "x").mpr
      ⟨⟨[], .add "a" "x", _, rfl, Or.inl rfl, not_active_nil "a", by decide⟩, by decide⟩
  · refine hall "c" 2 es' rfl hspread' (fun id => ?_) (Or.inl ⟨"a", ?_⟩)
    · rw [← hdetermined.ids_iff, ← hdetermined'.ids_iff, hids]
    · exact (hdetermined.ids_iff "a").mp (by decide +kernel)

end ClusterCache.Ring
