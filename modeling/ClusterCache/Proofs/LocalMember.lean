import ClusterCache.Proofs.OwnKeys
import ClusterCache.Proofs.Roster
import ClusterCache.Proofs.Settings

/-!
# A node among its members

A node knows itself by the id in its environment, with the blanks that stand around it there, and the
other members by ids that have lost theirs.  If the id has no blanks around it the node finds itself
in its list, is nobody else's neighbour and never sends a request to itself.  If it has some, the node
joins its own ring a second time and sends requests to the address that the list gives for it.
-/

namespace ClusterCache.Settings

variable {env : String → Option String} {nodeId list : String}

theorem nodeId_ofEnvironment (hid : env "NODE_ID" = some nodeId)
    (hne : Text.trim nodeId.toList ≠ []) : (ofEnvironment env).nodeId = nodeId := by
  simp [ofEnvironment, hid, Option.filter_some, hne]

theorem members_ofEnvironment (hlist : env "CLUSTER_NODES" = some list)
    (hne : Member.parseList list ≠ []) : (ofEnvironment env).members = Member.parseList list := by
  simp [ofEnvironment, hlist, Option.filter_some, hne]

/-- A text with blanks around it is the id of no member of a list. -/
theorem id_ne_of_trim_ne {m : Member} (hm : m ∈ Member.parseList list)
    (htrim : Text.trim nodeId.toList ≠ nodeId.toList) : m.id ≠ nodeId := by
  rintro rfl
  exact htrim (Text.trim_eq_self (Member.listable_of_mem_parseList hm).id_trimmed)

variable {s : Settings}

/-- A node that is in its list hands nothing on to the address that is listed for it, as long as no
other member has the same address. -/
theorem address_of_handed_on {m : Member} (hm : m ∈ s.members) (hself : m.id = s.nodeId)
    (haddresses : (s.members.map (·.address)).Nodup) {shard shard' : Shard}
    (hring : shard.ring = s.ring) {now : UInt64} {ticket : Nat} {call : Call}
    (hwork : shard.work now = (shard', some (ticket, call))) : call.address ≠ m.address := by
  obtain ⟨hforeign, haddress⟩ := Shard.address_of_work hwork
  rw [hring, ring_localId] at hforeign
  rw [hring, Ring.address?_eq_some, members_ring s hforeign] at haddress
  have hcalled := Ring.mem_of_members_ofMembers haddress.1
  intro hsame
  have heq : m = ⟨shard.ring.owner call.request.key, call.address⟩ := by
    rw [hring]
    exact List.inj_on_of_nodup_map haddresses hm hcalled hsame.symm
  rw [hring] at heq
  exact hforeign (by rw [← hself, heq])

/-- A node whose id is in its list once the blanks around it are dropped.  Without such blanks the
members of its ring are those of the list, it is one of them, and in no run does it send a request to
the address that is listed for it.  With such blanks it is not in the list, its ring has it as one
more member at an address of its own making, and it sends the requests for the keys of the member that
is listed for it to the address listed there. -/
theorem local_member (env : String → Option String) {nodeId list : String} {m : Member}
    (hid : env "NODE_ID" = some nodeId) (hlist : env "CLUSTER_NODES" = some list)
    (hm : m ∈ Member.parseList list) (htrim : m.id.toList = Text.trim nodeId.toList) :
    let s := ofEnvironment env
    let listed := Member.parseList list
    s.ring.localId = nodeId ∧
      (Text.trim nodeId.toList = nodeId.toList →
        m.id = s.ring.localId ∧ (∀ id, id ∈ s.ring.ids ↔ ∃ m' ∈ listed, m'.id = id) ∧
        ((listed.map (·.address)).Nodup → ∀ senders pollMs acts,
          (∀ a ∈ acts, Act.keepsMembers a = true) → ∀ now ticket call,
            (((Node.make s s.ring senders pollMs).run acts).shard.work now).2 =
              some (ticket, call) → call.address ≠ m.address)) ∧
      (Text.trim nodeId.toList ≠ nodeId.toList →
        (∀ m' ∈ listed, m'.id ≠ s.ring.localId) ∧
        (∀ id, id ∈ s.ring.ids ↔ (∃ m' ∈ listed, m'.id = id) ∨ id = nodeId) ∧
        s.ring.address? nodeId = some ("127.0.0.1:" ++ toString s.port) ∧
        ((listed.map (·.id)).Nodup → m.address ≠ "" → ∀ (shard : Shard) ticket r rest now,
          shard.ring = s.ring → shard.queue = (ticket, r) :: rest → s.ring.owner r.key = m.id →
            (shard.work now).2 = some (ticket, ⟨m.address, r⟩))) := by
  intro s listed
  have hmemberId := (Member.listable_of_mem_parseList hm).id_ne
  have hnodeId : s.nodeId = nodeId := nodeId_ofEnvironment hid (by simpa [← htrim] using hmemberId)
  have hmembers : s.members = listed := members_ofEnvironment hlist (List.ne_nil_of_mem hm)
  have hms : m ∈ s.members := hmembers ▸ hm
  have hids : ∀ id, id ∈ s.ring.ids ↔ (∃ m' ∈ listed, m'.id = id) ∨ id = nodeId := by
    intro id
    rw [Ring.mem_ids, contains_ring, hmembers, hnodeId]
  refine ⟨by rw [ring_localId, hnodeId], fun hbare => ?_, fun hpadded => ?_⟩
  · have hself : m.id = nodeId := String.toList_injective (htrim.trans hbare)
    refine ⟨by rw [ring_localId, hnodeId, hself], fun id => ?_, ?_⟩
    · rw [hids, or_iff_left_of_imp]
      rintro rfl
      exact ⟨m, hm, hself⟩
    · intro haddresses senders pollMs acts hkeeps now ticket call hcall
      rw [← hmembers] at haddresses
      exact address_of_handed_on hms (hself.trans hnodeId.symm) haddresses (Node.ring_run hkeeps)
        (Prod.ext rfl hcall)
  · have hother : ∀ m' ∈ s.members, m'.id ≠ s.nodeId := by
      rw [hmembers, hnodeId]
      exact fun m' hm' => id_ne_of_trim_ne hm' hpadded
    refine ⟨by rwa [ring_localId, ← hmembers], hids, ?_, ?_⟩
    · rw [← hnodeId, Ring.address?_eq_some]
      exact ⟨members_ring_nodeId s hother, by simp⟩
    · intro hnodup haddress shard ticket r rest now hring hqueue howner
      have hknown : shard.ring.address? (shard.ring.owner r.key) = some m.address := by
        rw [hring, howner, Ring.address?_eq_some, members_ring s (hother m hms)]
        exact ⟨Ring.members_ofMembers (hmembers ▸ hnodup) hms, haddress⟩
      have hforeign : shard.ring.isLocal r.key = false := by
        rw [hring, Ring.isLocal, howner, ring_localId]
        exact decide_eq_false (hother m hms)
      rw [Shard.work_of_known hqueue hforeign hknown]

/-- A node whose id stands in its list, and one with a blank before its id. -/
def bareEnvironment (name : String) : Option String :=
  [("NODE_ID", "b"), ("CLUSTER_NODES", "a=A, b = B")].lookup name

def paddedEnvironment (name : String) : Option String :=
  [("NODE_ID", " a"), ("CLUSTER_NODES", "a=A"), ("VIRTUAL_NODES", "1")].lookup name

theorem local_member_of_two :
    (∀ acts, (∀ a ∈ acts, Act.keepsMembers a = true) → ∀ now ticket call,
      (((Node.make (ofEnvironment bareEnvironment) (ofEnvironment bareEnvironment).ring 1 0).run
        acts).shard.work now).2 = some (ticket, call) → call.address ≠ "B") ∧
    (ofEnvironment paddedEnvironment).ring.address? " a" = some "127.0.0.1:3000" := by
  obtain ⟨_, hbare, _⟩ := local_member bareEnvironment (m := ⟨"b", "B"⟩) rfl rfl (by decide)
    (by decide)
  obtain ⟨_, _, hpadded⟩ := local_member paddedEnvironment (m := ⟨"a", "A"⟩) rfl rfl (by decide)
    (by decide)
  exact ⟨(hbare (by decide)).2.2 (by decide) 1 0, (hpadded (by decide)).2.2.1⟩

/-- A node does not find itself in its list, has two members in its ring instead of one, and sends a
request to the address that is listed for it. -/
theorem padded_id_joins_twice :
    let s := ofEnvironment paddedEnvironment
    (Text.trim " a".toList = "a".toList ∧ Member.parseList "a=A" = [⟨"a", "A"⟩]) ∧
      s.ring.localId = " a" ∧ s.ring.ids = [" a", "a"] ∧
      (((Node.make s s.ring 1 0).act (.submit ⟨"b", .get⟩)).shard.work 0).2 =
        some (0, ⟨"A", "b", .get⟩) := by
  decide +kernel

end ClusterCache.Settings
