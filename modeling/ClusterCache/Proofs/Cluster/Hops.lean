import ClusterCache.Proofs.Cluster.Basic
import ClusterCache.Proofs.Ring.Ownership
import ClusterCache.Proofs.Settings
import Mathlib.Data.List.Chain

/-!
# Requests on their way

Every host decides by its own ring where a request goes next, and the rings may tell of different
members.  A request still comes to an end: whoever passes it on passes it to a host with a position
nearer to the key than all of its own.
-/

namespace ClusterCache

namespace Ring

/-- How far it is from a key up to the nearest position of the local node. -/
def gap (r : Ring) (key : String) : Nat :=
  ((r.claims r.localId).map fun p => (clockwise (place key) p).toNat).min?.getD 0

theorem gap_le {r : Ring} (key : String) {i : Nat} (hi : i < r.replicas) :
    r.gap key ≤ (clockwise (place key) (place (positionLabel r.localId i))).toNat :=
  List.min?_getD_le_of_mem (List.mem_map_of_mem ((r.mem_claims r.localId).mpr ⟨i, hi, rfl⟩))

theorem exists_gap_eq {r : Ring} (key : String) (hpos : 0 < r.replicas) :
    ∃ i < r.replicas,
      r.gap key = (clockwise (place key) (place (positionLabel r.localId i))).toNat := by
  have hclaim : place (positionLabel r.localId 0) ∈ r.claims r.localId :=
    (r.mem_claims r.localId).mpr ⟨0, hpos, rfl⟩
  obtain ⟨least, hleast⟩ := Option.isSome_iff_exists.mp
    (List.isSome_min?_iff.mpr (List.ne_nil_of_mem (List.mem_map_of_mem
      (f := fun p => (clockwise (place key) p).toNat) hclaim)))
  obtain ⟨p, hp, rfl⟩ := List.mem_map.mp (List.min?_mem hleast)
  obtain ⟨i, hi, rfl⟩ := (r.mem_claims r.localId).mp hp
  exact ⟨i, hi, by rw [gap, hleast, Option.getD_some]⟩

variable {localId : String} {replicas : Nat} {es : List Edit}

/-- The owner of a key is nearer to it than the node that looks for the owner. -/
theorem gap_lt (hapart : Apart (max 1 replicas) es) (hactive : Active es localId) {key : String}
    (howner : ((empty localId replicas).edits es).owner key ≠ localId) {r : Ring}
    (hlocal : r.localId = ((empty localId replicas).edits es).owner key)
    (hreplicas : r.replicas = max 1 replicas) :
    r.gap key < ((empty localId replicas).edits es).gap key := by
  obtain ⟨hother, i, hi, hnearest⟩ := nearest_owner localId hapart ⟨localId, hactive⟩ key
  obtain ⟨j, hj, hgap⟩ := exists_gap_eq (r := (empty localId replicas).edits es) key
    (by simp [empty])
  rw [edits_replicas] at hj
  rw [edits_localId] at hgap
  have hle : r.gap key ≤ (clockwise (place key) (place (positionLabel r.localId i))).toNat :=
    gap_le key (by omega)
  have hnear := UInt64.le_iff_toNat_le.mp (hnearest localId hactive j hj)
  rw [← hlocal] at hnear
  -- Two positions at the same distance are the same, and these belong to different members.
  have hne : (clockwise (place key) (place (positionLabel r.localId i))).toNat ≠
      (clockwise (place key) (place (positionLabel localId j))).toNat := by
    intro heq
    have hsame := clockwise_injective _ (UInt64.toNat_inj.mp heq)
    rw [hlocal] at hsame
    exact howner (hapart _ localId hother.added hactive.added i hi j hj hsame)
  have hstart : (empty localId replicas).localId = localId := rfl
  rw [hgap, hstart]
  omega

end Ring

namespace Cluster

/-- Where a request for a key goes from a host. -/
inductive Way where
  /-- The host executes it. -/
  | execute
  /-- The owner has no address. -/
  | unknown (owner : String)
  /-- Nobody listens at the address of the owner. -/
  | lost (address : String)
  /-- The host that listens at the address of the owner receives it. -/
  | pass (address : String) (host : Nat)
deriving DecidableEq, Repr

/-- The host that receives the request, if one does. -/
def Way.next? : Way → Option Nat
  | .pass _ j => some j
  | _ => none

/-- The host that receives calls to an address. -/
def receiver? (c : Cluster) (address : String) : Option Nat :=
  if (c.script? address).isSome then none else c.listener? address

/-- The way of a key by the ring of a host. -/
def way (c : Cluster) (h : Host) (key : String) : Way :=
  if h.shard.ring.isLocal key then .execute
  else
    match h.shard.ring.address? (h.shard.ring.owner key) with
    | none => .unknown (h.shard.ring.owner key)
    | some address => (c.receiver? address).elim (.lost address) (.pass address)

/-- A request for a key goes from one host to another. -/
def Hop (c : Cluster) (key : String) (i j : Nat) : Prop :=
  ∃ h, c.host? i = some h ∧ (c.way h key).next? = some j

/-- A request for a key that comes to a host visits these hosts and ends this way. -/
inductive Trail (c : Cluster) (key : String) : Nat → List Nat → Way → Prop where
  | stop {i : Nat} (h : Host) (hi : c.host? i = some h) (hstop : (c.way h key).next? = none) :
      Trail c key i [i] (c.way h key)
  | hop {i j : Nat} {path : List Nat} {final : Way} (hhop : c.Hop key i j)
      (hrest : Trail c key j path final) : Trail c key i (i :: path) final

/-- What the worker of a host does with the request at the front of its queue, and what becomes of
a call it makes, by the way of the key. -/
def Taken (c : Cluster) (h : Host) (now : UInt64) (ticket : Nat) (r : Request)
    (rest : List (Nat × Request)) : Way → Prop
  | .execute => h.shard.work now = (Shard.execute { h.shard with queue := rest } now ticket r, none)
  | .unknown owner => h.shard.work now =
      (Shard.answer { h.shard with queue := rest } ticket (.failed (.addressUnknown owner)), none)
  | .lost address =>
      h.shard.work now = ({ h.shard with queue := rest }, some (ticket, ⟨address, r⟩)) ∧
        (c.launch ⟨address, r⟩).1 = c
  | .pass address j =>
      h.shard.work now = ({ h.shard with queue := rest }, some (ticket, ⟨address, r⟩)) ∧
        (r.wireSize ≤ Service.bodyLimit →
          (c.launch ⟨address, r⟩).1 = c.modifyShard j fun s => (s.submit r).1)

/-- Hosts with as many positions each that know themselves, and whom else they like, at addresses
that lead to whom they are said to lead to. -/
structure Federation (c : Cluster) (replicas : Nat) (histories : Nat → List Ring.Edit) : Prop where
  ring_eq : ∀ i h, c.host? i = some h →
    h.shard.ring = (Ring.empty h.shard.ring.localId replicas).edits (histories i)
  knows_itself : ∀ i h, c.host? i = some h → Ring.Active (histories i) h.shard.ring.localId
  apart : ∀ i < c.hosts.length, Ring.Apart (max 1 replicas) (histories i)
  leads : ∀ i h id address j h', c.host? i = some h → h.shard.ring.address? id = some address →
    c.receiver? address = some j → c.host? j = some h' → h'.shard.ring.localId = id

/-- How far a host is from a key. -/
def gap (c : Cluster) (key : String) (i : Nat) : Nat :=
  (c.host? i).elim 0 fun h => h.shard.ring.gap key

section Federation

variable {c : Cluster} {replicas : Nat} {histories : Nat → List Ring.Edit} {key : String}

theorem way_eq_pass {h : Host} {address : String} {j : Nat} (hway : c.way h key = .pass address j) :
    h.shard.ring.owner key ≠ h.shard.ring.localId ∧
      h.shard.ring.address? (h.shard.ring.owner key) = some address ∧
      c.receiver? address = some j := by
  rw [way] at hway
  split_ifs at hway with hlocal
  refine ⟨by simpa [Ring.isLocal] using hlocal, ?_⟩
  split at hway
  · cases hway
  · rename_i found haddress
    cases hreceiver : c.receiver? found with
    | none => simp [hreceiver] at hway
    | some k =>
        obtain ⟨rfl, rfl⟩ : found = address ∧ k = j := by simpa [hreceiver] using hway
        exact ⟨haddress, hreceiver⟩

theorem way_of_next? {w : Way} {j : Nat} (h : w.next? = some j) :
    ∃ address, w = .pass address j := by
  cases w with
  | pass address k =>
      obtain rfl : k = j := by simpa [Way.next?] using h
      exact ⟨address, rfl⟩
  | _ => cases h

theorem host?_of_receiver? {address : String} {j : Nat} (hj : c.receiver? address = some j) :
    c.script? address = none ∧ c.listener? address = some j ∧ ∃ h, c.host? j = some h := by
  rw [receiver?] at hj
  split_ifs at hj with hscript
  obtain ⟨h, hhost, _⟩ := host?_of_listener? hj
  exact ⟨by simpa using hscript, hj, h, hhost⟩

theorem Hop.exists_host {i j : Nat} (hhop : c.Hop key i j) : ∃ h, c.host? j = some h := by
  obtain ⟨h, _, hnext⟩ := hhop
  obtain ⟨address, hway⟩ := way_of_next? hnext
  exact (host?_of_receiver? (way_eq_pass hway).2.2).2.2

/-- Every hop comes nearer to the key. -/
theorem Federation.gap_lt (hfed : c.Federation replicas histories) {i j : Nat}
    (hhop : c.Hop key i j) : c.gap key j < c.gap key i := by
  obtain ⟨h', hj⟩ := hhop.exists_host
  obtain ⟨h, hi, hnext⟩ := hhop
  obtain ⟨address, hway⟩ := way_of_next? hnext
  obtain ⟨howner, haddress, hreceiver⟩ := way_eq_pass hway
  have hlocal := hfed.leads i h _ address j h' hi haddress hreceiver hj
  have hgap : ∀ {k : Nat} {x : Host}, c.host? k = some x → c.gap key k = x.shard.ring.gap key :=
    fun hk => by rw [gap, hk, Option.elim_some]
  rw [hgap hi, hgap hj]
  have hring := hfed.ring_eq i h hi
  have hreplicas : h'.shard.ring.replicas = max 1 replicas := by
    rw [hfed.ring_eq j h' hj, Ring.edits_replicas, Ring.empty]
  rw [hring]
  refine Ring.gap_lt (hfed.apart i (lt_of_host? hi)) (hfed.knows_itself i h hi) ?_ ?_ hreplicas
  · rwa [← hring]
  · rwa [← hring]

/-- No host is visited twice on any way. -/
theorem Federation.nodup (hfed : c.Federation replicas histories) {path : List Nat}
    (hpath : path.IsChain (c.Hop key)) : path.Nodup := by
  have hdown : path.IsChain fun i j => c.gap key j < c.gap key i :=
    hpath.imp fun i j hhop => hfed.gap_lt hhop
  have htrans : Trans (fun i j => c.gap key j < c.gap key i)
      (fun i j => c.gap key j < c.gap key i) (fun i j => c.gap key j < c.gap key i) :=
    ⟨fun hij hjk => Nat.lt_trans hjk hij⟩
  refine hdown.pairwise.imp fun {i j} hlt heq => ?_
  rw [heq] at hlt
  exact Nat.lt_irrefl _ hlt

theorem Trail.isChain {i : Nat} {path : List Nat} {final : Way} (h : c.Trail key i path final) :
    path.IsChain (c.Hop key) ∧ path.head? = some i ∧ final.next? = none ∧
      ∀ j ∈ path, j < c.hosts.length := by
  induction h with
  | stop h hi hstop => exact ⟨.singleton _, rfl, hstop, by simpa using lt_of_host? hi⟩
  | @hop i j path final hhop hrest ih =>
      obtain ⟨hchain, hhead, hfinal, hlt⟩ := ih
      refine ⟨List.isChain_cons.mpr ⟨fun k hk => ?_, hchain⟩, rfl, hfinal, fun k hk => ?_⟩
      · rw [hhead] at hk
        obtain rfl : j = k := by simpa using hk
        exact hhop
      · rcases List.mem_cons.mp hk with rfl | hk
        · obtain ⟨h, hi, _⟩ := hhop
          exact lt_of_host? hi
        · exact hlt k hk

theorem Trail.unique {i : Nat} {path path' : List Nat} {final final' : Way}
    (h : c.Trail key i path final) (h' : c.Trail key i path' final') :
    path' = path ∧ final' = final := by
  induction h generalizing path' final' with
  | stop h hi hstop =>
      cases h' with
      | stop h₂ hi₂ _ =>
          obtain rfl : h = h₂ := Option.some.inj (hi.symm.trans hi₂)
          exact ⟨rfl, rfl⟩
      | hop hhop _ =>
          obtain ⟨h₂, hi₂, hnext⟩ := hhop
          obtain rfl : h = h₂ := Option.some.inj (hi.symm.trans hi₂)
          rw [hstop] at hnext
          cases hnext
  | @hop i j path final hhop hrest ih =>
      obtain ⟨h, hi, hnext⟩ := hhop
      cases h' with
      | stop h₂ hi₂ hstop =>
          obtain rfl : h = h₂ := Option.some.inj (hi.symm.trans hi₂)
          rw [hstop] at hnext
          cases hnext
      | hop hhop' hrest' =>
          obtain ⟨h₂, hi₂, hnext'⟩ := hhop'
          obtain rfl : h = h₂ := Option.some.inj (hi.symm.trans hi₂)
          rw [hnext] at hnext'
          obtain rfl := Option.some.inj hnext'
          obtain ⟨rfl, rfl⟩ := ih hrest'
          exact ⟨rfl, rfl⟩

/-- From every host a request comes to an end. -/
theorem Federation.exists_trail (hfed : c.Federation replicas histories) {i : Nat}
    (hi : i < c.hosts.length) : ∃ path final, c.Trail key i path final := by
  induction hgap : c.gap key i using Nat.strong_induction_on generalizing i with
  | _ n ih =>
      obtain ⟨h, hhost⟩ := exists_host? hi
      cases hnext : (c.way h key).next? with
      | none => exact ⟨[i], c.way h key, .stop h hhost hnext⟩
      | some j =>
          have hhop : c.Hop key i j := ⟨h, hhost, hnext⟩
          obtain ⟨h', hhost'⟩ := hhop.exists_host
          obtain ⟨path, final, htrail⟩ :=
            ih _ (hgap ▸ hfed.gap_lt hhop) (lt_of_host? hhost') rfl
          exact ⟨i :: path, final, .hop hhop htrail⟩

end Federation

/-! ## What hosts do -/

/-- A call that reaches a host is submitted there. -/
theorem launch_of_receiver {c : Cluster} {call : Call} {j : Nat}
    (hj : c.receiver? call.address = some j) (hlimit : call.request.wireSize ≤ Service.bodyLimit) :
    (c.launch call).1 = c.modifyShard j fun s => (s.submit call.request).1 := by
  obtain ⟨hscript, hlistener, h, hhost⟩ := host?_of_receiver? hj
  have hreceive : (c.receive j call).1 = c.modifyShard j fun s => (s.submit call.request).1 := by
    rw [receive, hhost, Service.read_toHttp call hlimit]
    simp only
    rcases hsubmit : h.shard.submit call.request with ⟨s, _ | ticket⟩
    · have hsame : s = h.shard := by
        rw [Shard.submit_eq] at hsubmit
        cases hrefusal : h.shard.refusal? call.request <;> simp_all
      rw [modifyShard_congr hhost (g := fun s => s) (by rw [hsubmit, hsame]), modifyShard_id]
    · exact modifyShard_congr hhost (f := fun _ => s) (by rw [hsubmit])
  rw [launch, hscript, hlistener]
  simp only
  rw [← hreceive]
  rcases c.receive j call with ⟨c', reply | ticket⟩
  · rfl
  · split_ifs <;> rfl

theorem launch_of_lost {c : Cluster} {call : Call} (hlost : c.receiver? call.address = none) :
    (c.launch call).1 = c := by
  rw [receiver?] at hlost
  rw [launch]
  cases hscript : c.script? call.address with
  | some script =>
      obtain ⟨delay, ending⟩ := script
      cases ending <;> rfl
  | none =>
      have hlistener : c.listener? call.address = none := by simpa [hscript] using hlost
      rw [hlistener]

/-- The worker does with a request what the way of its key says. -/
theorem taken_way (c : Cluster) {h : Host} (now : UInt64) {ticket : Nat} {r : Request}
    {rest : List (Nat × Request)} (hqueue : h.shard.queue = (ticket, r) :: rest) :
    c.Taken h now ticket r rest (c.way h r.key) := by
  rw [way]
  cases hlocal : h.shard.ring.isLocal r.key with
  | true => exact Shard.work_of_local hqueue hlocal
  | false =>
      simp only [Bool.false_eq_true, if_false]
      cases haddress : h.shard.ring.address? (h.shard.ring.owner r.key) with
      | none => exact Shard.work_of_unknown hqueue hlocal haddress
      | some address =>
          have hwork : h.shard.work now =
              ({ h.shard with queue := rest }, some (ticket, ⟨address, r⟩)) :=
            Shard.work_of_known hqueue hlocal haddress
          simp only
          cases hreceiver : c.receiver? address with
          | none => exact ⟨hwork, launch_of_lost hreceiver⟩
          | some j =>
              refine ⟨hwork, fun hlimit => ?_⟩
              exact launch_of_receiver (c := c) hreceiver hlimit

/-- Hosts that disagree about their members still pass no request round in a circle. -/
theorem forwarding_ends (c : Cluster) (replicas : Nat) (histories : Nat → List Ring.Edit)
    (hfed : c.Federation replicas histories) (key : String) :
    (∀ i j, c.Hop key i j → c.gap key j < c.gap key i) ∧
      (∀ path : List Nat, path.IsChain (c.Hop key) → path.Nodup) ∧
      (∀ i < c.hosts.length, ∃ path final, c.Trail key i path final ∧ final.next? = none ∧
        path.Nodup ∧ path.length ≤ c.hosts.length ∧
        ∀ path' final', c.Trail key i path' final' → path' = path ∧ final' = final) ∧
      ∀ i h now ticket r rest, c.host? i = some h → h.shard.queue = (ticket, r) :: rest →
        c.Taken h now ticket r rest (c.way h r.key) := by
  refine ⟨fun i j => hfed.gap_lt, fun path => hfed.nodup, fun i hi => ?_,
    fun i h now ticket r rest _ hqueue => c.taken_way now hqueue⟩
  obtain ⟨path, final, htrail⟩ := hfed.exists_trail hi
  obtain ⟨hchain, _, hfinal, hlt⟩ := htrail.isChain
  have hnodup := hfed.nodup hchain
  have hlength : path.length ≤ (List.range c.hosts.length).length :=
    (hnodup.subperm fun j hj => List.mem_range.mpr (hlt j hj)).length_le
  rw [List.length_range] at hlength
  exact ⟨path, final, htrail, hfinal, hnodup, hlength, fun _ _ => htrail.unique⟩

/-- Three hosts of which each knows itself, and two of them one more. -/
def acquainted : List (Settings × String) :=
  [({ nodeId := "a", replicas := 1, members := [⟨"b", "B"⟩] }, "A"),
    ({ nodeId := "b", replicas := 1, members := [⟨"c", "C"⟩, ⟨"b", "Y"⟩] }, "B"),
    ({ nodeId := "c", replicas := 1, members := [] }, "C")]

/-- A request goes from the first host to the last, whom the first does not know. -/
theorem forwarding_ends_after_two_hops :
    let c : Cluster :=
      { hosts := acquainted.map fun (s, address) =>
          { Host.make s s.ring 1 none with address := some address }
        clock := ⟨0, 0⟩ }
    let histories (i : Nat) : List Ring.Edit := (acquainted[i]?).elim [] fun (s, _) => s.history
    c.Federation 1 histories ∧ c.Trail "k" 0 [0, 1, 2] .execute ∧
      c.gap "k" 2 < c.gap "k" 1 ∧ c.gap "k" 1 < c.gap "k" 0 := by
  intro c histories
  have hhost : ∀ i h, c.host? i = some h →
      ∃ p ∈ acquainted, h.shard.ring = p.1.ring ∧ histories i = p.1.history := by
    intro i h hi
    rw [host?, List.getElem?_map, Option.map_eq_some_iff] at hi
    obtain ⟨p, hp, rfl⟩ := hi
    exact ⟨p, List.mem_of_getElem? hp, rfl, by simp [histories, hp]⟩
  have hreplicas : ∀ p ∈ acquainted, p.1.replicas = 1 := by decide
  have hplaces : ∀ id ∈ ["a", "b", "c"], ∀ other ∈ ["a", "b", "c"],
      place (positionLabel id 0) = place (positionLabel other 0) → id = other := by
    decide +kernel
  have hadded : ∀ p ∈ acquainted, ∀ id, Ring.Added p.1.history id → id ∈ ["a", "b", "c"] := by
    intro p hp id hid
    simp only [acquainted, List.mem_cons, List.not_mem_nil, or_false] at hp
    obtain rfl | rfl | rfl := hp <;>
      simp [Settings.history, Ring.Added, Ring.Edit.Adds] at hid ⊢ <;> grind
  have hleads : ∀ p ∈ acquainted, ∀ id ∈ p.1.ring.ids, ∀ address ∈ p.1.ring.address? id,
      ∀ j ∈ c.receiver? address, ∀ h' ∈ c.host? j, h'.shard.ring.localId = id := by
    decide +kernel
  have hfed : c.Federation 1 histories := by
    refine ⟨fun i h hi => ?_, fun i h hi => ?_, fun i hi => ?_, fun i h id address j h' hi => ?_⟩
    · obtain ⟨p, hp, hring, hhistory⟩ := hhost i h hi
      rw [hring, hhistory, Settings.ring_localId, ← hreplicas p hp, Settings.ring_eq]
    · obtain ⟨p, hp, hring, hhistory⟩ := hhost i h hi
      rw [hring, hhistory, Settings.ring_localId]
      exact p.1.active_nodeId
    · obtain ⟨h, hi⟩ := exists_host? hi
      obtain ⟨p, hp, hring, hhistory⟩ := hhost i h hi
      rw [hhistory]
      intro id other hid hother m hm n hn
      obtain ⟨rfl, rfl⟩ : m = 0 ∧ n = 0 := by omega
      exact hplaces id (hadded p hp id hid) other (hadded p hp other hother)
    · obtain ⟨p, hp, hring, hhistory⟩ := hhost i h hi
      rw [hring]
      intro haddress hj hj'
      have hid : id ∈ p.1.ring.ids := by
        rw [Ring.mem_ids, Ring.contains_iff]
        exact ⟨address, (Ring.address?_eq_some.mp haddress).1⟩
      exact hleads p hp id hid address haddress j hj h' hj'
  obtain ⟨hnearer, _⟩ := forwarding_ends c 1 histories hfed "k"
  have hways : ∀ i < 2, ∀ h ∈ c.host? i, (c.way h "k").next? = some (i + 1) := by decide +kernel
  have hlast : ∀ h ∈ c.host? 2, c.way h "k" = .execute := by decide +kernel
  have hhop : ∀ i < 2, c.Hop "k" i (i + 1) := by
    intro i hi
    have hlt : i < c.hosts.length := Nat.lt_of_lt_of_le hi (by decide)
    obtain ⟨h, hh⟩ := exists_host? hlt
    exact ⟨h, hh, hways i hi h hh⟩
  have hfirst := hhop 0 (by decide)
  have hsecond := hhop 1 (by decide)
  have hlt : 2 < c.hosts.length := by decide
  obtain ⟨h, hh⟩ := exists_host? hlt
  have hstop : (c.way h "k").next? = none := by
    rw [hlast h hh]
    rfl
  have htrail : c.Trail "k" 0 [0, 1, 2] (c.way h "k") :=
    .hop hfirst (.hop hsecond (.stop h hh hstop))
  rw [hlast h hh] at htrail
  exact ⟨hfed, htrail, hnearer 1 2 hsecond, hnearer 0 1 hfirst⟩

end Cluster

end ClusterCache
