import ClusterCache.Proofs.Ring.Nearest
import ClusterCache.Proofs.Ring.Members
import ClusterCache.Settings

/-!
# The ring of the settings

The ring of a node comes about by adding the members in its settings and then the node itself, which
has no effect if it is among them.  Nodes with the same members in their settings agree about the
owner of every key, even if positions of different members coincide.
-/

namespace ClusterCache

namespace Ring

/-- The ring of a list of members. -/
def ofMembers (localId : String) (replicas : Nat) (ms : List Member) : Ring :=
  (empty localId replicas).edits (ms.map fun m => .add m.id m.address)

variable {localId : String} {replicas : Nat} {ms : List Member}

theorem ofMembers_concat (m : Member) :
    ofMembers localId replicas (ms ++ [m]) =
      ((ofMembers localId replicas ms).add m.id m.address).1 := by
  rw [ofMembers, List.map_append, List.map_singleton, edits_concat]
  rfl

@[simp] theorem ofMembers_localId : (ofMembers localId replicas ms).localId = localId := by
  rw [ofMembers, edits_localId, empty]

/-- Whose view of the ring it is makes no difference to the positions and the addresses. -/
theorem ofMembers_eq (localId other : String) :
    ofMembers localId replicas ms = { ofMembers other replicas ms with localId } := by
  induction ms using List.reverseRecOn with
  | nil => rfl
  | append_singleton ms m ih =>
      rw [ofMembers_concat, ofMembers_concat, ih, add, add]
      by_cases hin : (ofMembers other replicas ms).contains m.id = true
      · rw [if_pos hin, if_pos (by exact hin)]
      · rw [if_neg hin, if_neg (by exact hin)]
        rfl

theorem contains_ofMembers (id : String) :
    (ofMembers localId replicas ms).contains id = true ↔ ∃ m ∈ ms, m.id = id := by
  induction ms using List.reverseRecOn with
  | nil => simp [ofMembers, empty, contains]
  | append_singleton ms m ih =>
      have hadd : ((ofMembers localId replicas ms).add m.id m.address).1.contains id = true ↔
          id = m.id ∨ (ofMembers localId replicas ms).contains id = true := by
        rw [contains_iff, contains_iff, members_add]
        by_cases hid : id = m.id <;> simp [hid]
      rw [ofMembers_concat, hadd, ih]
      simp only [List.mem_append, List.mem_singleton, or_and_right, exists_or, exists_eq_left]
      rw [or_comm, eq_comm]

theorem members_ofMembers (hids : (ms.map (·.id)).Nodup) {m : Member} (hm : m ∈ ms) :
    (ofMembers localId replicas ms).members[m.id]? = some m.address := by
  induction ms using List.reverseRecOn with
  | nil => cases hm
  | append_singleton ms last ih =>
      rw [List.map_append, List.nodup_append] at hids
      obtain ⟨hids, _, hapart⟩ := hids
      rw [ofMembers_concat, members_add]
      by_cases hlast : m.id = last.id
      · have hnew : m ∉ ms := fun hmem =>
          hapart m.id (List.mem_map_of_mem hmem) last.id (by simp) hlast
        obtain rfl : m = last := by simpa [hnew] using hm
        have hnone : (ofMembers localId replicas ms).contains m.id = false := by
          rw [← Bool.not_eq_true, contains_ofMembers]
          rintro ⟨m', hm', hid⟩
          exact hapart m'.id (List.mem_map_of_mem hm') m.id (by simp) hid
        rw [if_pos rfl, (contains_eq_false_iff _ _).mp hnone, Option.getD_none]
      · rw [if_neg hlast]
        refine ih hids ?_
        rcases List.mem_append.mp hm with hmem | hmem
        · exact hmem
        · exact absurd (congrArg Member.id (List.mem_singleton.mp hmem)) hlast

/-- A member has an address that the list gives it. -/
theorem mem_of_members_ofMembers {id address : String}
    (h : (ofMembers localId replicas ms).members[id]? = some address) : ⟨id, address⟩ ∈ ms := by
  induction ms using List.reverseRecOn with
  | nil => simp [ofMembers, empty] at h
  | append_singleton ms m ih =>
      rw [ofMembers_concat, members_add] at h
      split_ifs at h with hid
      · cases hbefore : (ofMembers localId replicas ms).members[m.id]? with
        | none =>
            rw [hbefore, Option.getD_none, Option.some.injEq] at h
            simp [hid, ← h]
        | some before =>
            rw [hbefore, Option.getD_some] at h
            exact List.mem_append_left _ (ih (hid ▸ hbefore.trans h))
      · exact List.mem_append_left _ (ih h)

/-- Positions are held by members of the list. -/
theorem mem_of_positions_ofMembers {p : UInt64} {id : String}
    (hp : (ofMembers localId replicas ms).positions[p]? = some id) : ∃ m ∈ ms, m.id = id := by
  induction ms using List.reverseRecOn with
  | nil => simp [ofMembers, empty] at hp
  | append_singleton ms m ih =>
      rw [ofMembers_concat, positions_add] at hp
      split_ifs at hp with hnew
      · exact ⟨m, by simp, Option.some.inj hp⟩
      · obtain ⟨m', hm', hid⟩ := ih hp
        exact ⟨m', List.mem_append_left _ hm', hid⟩

theorem positions_ofMembers_ne (hne : ms ≠ []) :
    (ofMembers localId replicas ms).positions ≠ ∅ := by
  induction ms using List.reverseRecOn with
  | nil => exact absurd rfl hne
  | append_singleton ms m ih =>
      intro hempty
      have hpositions := positions_add (ofMembers localId replicas ms) m.id m.address
      rw [← ofMembers_concat, hempty] at hpositions
      cases hin : (ofMembers localId replicas ms).contains m.id with
      | true =>
          obtain ⟨m', hm', _⟩ := (contains_ofMembers m.id).mp hin
          refine ih (List.ne_nil_of_mem hm') (Std.ExtTreeMap.ext_getElem? fun p => ?_)
          simpa [hin] using (hpositions p).symm
      | false =>
          have hclaim := (mem_claims (ofMembers localId replicas ms) m.id).mpr
            ⟨0, by simp only [ofMembers, edits_replicas, empty]; omega, rfl⟩
          have hheld := hpositions (place (positionLabel m.id 0))
          rw [if_pos ⟨hin, hclaim⟩] at hheld
          simp at hheld

/-- All nodes with the same list of members agree about the owner of a key, and it is one of
them. -/
theorem owner_ofMembers (hne : ms ≠ []) (key : String) :
    ∃ m ∈ ms, ∀ localId, (ofMembers localId replicas ms).owner key = m.id := by
  cases hholder : (ofMembers "" replicas ms).holder? (place key) with
  | none => exact absurd (holder?_eq_none_iff.mp hholder) (positions_ofMembers_ne hne)
  | some id =>
      obtain ⟨p, hp, _⟩ := holder?_eq_some hholder
      obtain ⟨m, hm, rfl⟩ := mem_of_positions_ofMembers hp
      refine ⟨m, hm, fun localId => ?_⟩
      rw [ofMembers_eq localId "", owner]
      exact congrArg (·.getD localId) hholder

end Ring

namespace Settings

open ClusterCache.Ring

variable (s : Settings)

/-- The additions that make up the ring of the settings. -/
def history : List Edit :=
  s.members.map (fun m => .add m.id m.address) ++
    [.add s.nodeId ("127.0.0.1:" ++ toString s.port)]

theorem listedRing_eq : s.listedRing = ofMembers s.nodeId s.replicas s.members := by
  rw [listedRing, ofMembers, edits, List.foldl_map]
  rfl

theorem ring_eq : s.ring = (Ring.empty s.nodeId s.replicas).edits s.history := by
  rw [history, edits_concat, ← ofMembers, ← listedRing_eq, ring, edit, add]
  split_ifs <;> rfl

/-- The ring of a node that is among the members in its settings. -/
theorem ring_eq_ofMembers {m : Member} (hm : m ∈ s.members) (hid : m.id = s.nodeId) :
    s.ring = ofMembers s.nodeId s.replicas s.members := by
  rw [ring, listedRing_eq]
  exact if_pos ((contains_ofMembers s.nodeId).mpr ⟨m, hm, hid⟩)

/-- The members are those of the settings and the node itself. -/
theorem contains_ring (id : String) :
    s.ring.contains id = true ↔ (∃ m ∈ s.members, m.id = id) ∨ id = s.nodeId := by
  rw [ring, listedRing_eq]
  split_ifs with hself
  · rw [contains_ofMembers, or_iff_left_of_imp]
    rintro rfl
    exact (contains_ofMembers _).mp hself
  · rw [contains_iff, members_add]
    split_ifs with hid
    · simp [hid]
    · rw [← contains_iff, contains_ofMembers, or_iff_left hid]

/-- The addresses of the members that are not the node itself are those of the settings. -/
theorem members_ring {id : String} (hid : id ≠ s.nodeId) :
    s.ring.members[id]? = (ofMembers s.nodeId s.replicas s.members).members[id]? := by
  rw [ring, listedRing_eq]
  split_ifs
  · rfl
  · rw [members_add, if_neg hid]

/-- A node that is not in its list has an address of its own making. -/
theorem members_ring_nodeId (hnone : ∀ m ∈ s.members, m.id ≠ s.nodeId) :
    s.ring.members[s.nodeId]? = some ("127.0.0.1:" ++ toString s.port) := by
  have habsent : (ofMembers s.nodeId s.replicas s.members).contains s.nodeId = false := by
    rw [← Bool.not_eq_true, contains_ofMembers]
    rintro ⟨m, hm, hid⟩
    exact hnone m hm hid
  rw [ring, listedRing_eq, habsent, if_neg Bool.false_ne_true, members_add, if_pos rfl,
    (contains_eq_false_iff _ _).mp habsent, Option.getD_none]

@[simp] theorem ring_localId : s.ring.localId = s.nodeId := by
  rw [ring_eq, edits_localId, Ring.empty]

/-- A node is a member of its own ring. -/
theorem active_nodeId : Active s.history s.nodeId :=
  active_concat_iff.mpr (Or.inl ⟨_, Or.inl rfl⟩)

end Settings

end ClusterCache
