import ClusterCache.Proofs.Forwarding
import ClusterCache.Proofs.Shard

/-!
# Changes of single hosts

A change of one host leaves the others and the places at which hosts listen.
-/

namespace ClusterCache.Cluster

variable (c : Cluster)

theorem host?_modify (i j : Nat) (change : Host → Host) :
    (c.modify i change).host? j = if j = i then (c.host? i).map change else c.host? j := by
  rw [host?, modify, List.getElem?_modify]
  by_cases hij : i = j
  · simp [hij, host?]
  · rw [if_neg (Ne.symm hij)]
    simp [hij, host?]

theorem host?_modifyShard (i j : Nat) (change : Shard → Shard) :
    (c.modifyShard i change).host? j =
      (c.host? j).map fun h => if j = i then { h with shard := change h.shard } else h := by
  rw [modifyShard, host?_modify]
  by_cases hij : j = i
  · simp [hij]
  · cases c.host? j <;> simp [hij]

@[simp] theorem length_modify (i : Nat) (change : Host → Host) :
    (c.modify i change).hosts.length = c.hosts.length := by
  simp [modify]

@[simp] theorem length_modifyShard (i : Nat) (change : Shard → Shard) :
    (c.modifyShard i change).hosts.length = c.hosts.length :=
  c.length_modify i _

/-- Two changes of one host are one change. -/
theorem modifyShard_modifyShard (i : Nat) (f g : Shard → Shard) :
    (c.modifyShard i f).modifyShard i g = c.modifyShard i fun s => g (f s) := by
  simp only [modifyShard, modify, List.modify_modify_eq]
  rfl

variable {c}

theorem host?_modifyShard_self {i : Nat} {h : Host} (hi : c.host? i = some h)
    (change : Shard → Shard) :
    (c.modifyShard i change).host? i = some { h with shard := change h.shard } := by
  rw [host?_modifyShard, hi, Option.map_some, if_pos rfl]

theorem host?_modifyShard_of_ne {i j : Nat} (hij : j ≠ i) (change : Shard → Shard) :
    (c.modifyShard i change).host? j = c.host? j := by
  rw [modifyShard, host?_modify, if_neg hij]

/-- Only what a change makes of the host itself counts. -/
theorem modify_congr {i : Nat} {h : Host} {f g : Host → Host} (hi : c.host? i = some h)
    (heq : f h = g h) : c.modify i f = c.modify i g := by
  have hhosts : c.hosts.modify i f = c.hosts.modify i g := by
    refine List.ext_getElem? fun j => ?_
    rw [List.getElem?_modify, List.getElem?_modify]
    by_cases hij : i = j
    · subst hij
      have hget : c.hosts[i]? = some h := hi
      simp [hget, heq]
    · simp [hij]
  rw [modify, modify, hhosts]

theorem modifyShard_congr {i : Nat} {h : Host} {f g : Shard → Shard} (hi : c.host? i = some h)
    (heq : f h.shard = g h.shard) : c.modifyShard i f = c.modifyShard i g :=
  modify_congr hi (by rw [heq])

@[simp] theorem modifyShard_id (c : Cluster) (i : Nat) : c.modifyShard i (fun s => s) = c := by
  have hid : (fun h : Host => { h with shard := h.shard }) = id := rfl
  rw [modifyShard, modify, hid, List.modify_id]

theorem lt_of_host? {i : Nat} {h : Host} (hi : c.host? i = some h) : i < c.hosts.length :=
  (List.getElem?_eq_some_iff.mp hi).1

theorem exists_host? {i : Nat} (hi : i < c.hosts.length) : ∃ h, c.host? i = some h :=
  ⟨c.hosts[i], List.getElem?_eq_getElem hi⟩

/-- Whoever listens at an address is a host with that address. -/
theorem host?_of_listener? {address : String} {j : Nat} (hj : c.listener? address = some j) :
    ∃ h, c.host? j = some h ∧ h.address = some address := by
  rw [listener?, Option.map_eq_some_iff] at hj
  obtain ⟨⟨h, k⟩, hlast, rfl⟩ := hj
  obtain ⟨hmem, haddress⟩ := List.mem_filter.mp (List.mem_of_getLast? hlast)
  exact ⟨h, List.mem_zipIdx_iff_getElem?.mp hmem, by simpa using haddress⟩

/-- The only host with an address listens there. -/
theorem listener?_eq_some {address : String} {i : Nat} {h : Host} (hi : c.host? i = some h)
    (haddress : h.address = some address)
    (honly : ∀ j h', c.host? j = some h' → h'.address = some address → j = i) :
    c.listener? address = some i := by
  obtain ⟨j, hj⟩ : ∃ j, c.listener? address = some j := by
    rw [← Option.ne_none_iff_exists']
    intro hnone
    rw [listener?, Option.map_eq_none_iff, List.getLast?_eq_none_iff,
      List.filter_eq_nil_iff] at hnone
    exact hnone (h, i) (List.mem_zipIdx_iff_getElem?.mpr hi) (by simpa using haddress)
  obtain ⟨h', hhost, haddress'⟩ := host?_of_listener? hj
  rw [hj, honly j h' hhost haddress']

theorem listener?_eq (c : Cluster) (address : String) :
    c.listener? address = (((c.hosts.map (·.address)).zipIdx.filter
      fun p => p.1 = some address).getLast?).map (·.2) := by
  rw [listener?, List.zipIdx_map, List.filter_map, List.getLast?_map, Option.map_map]
  rfl

@[simp] theorem listener?_modifyShard (c : Cluster) (i : Nat) (change : Shard → Shard)
    (address : String) : (c.modifyShard i change).listener? address = c.listener? address := by
  have hsame : (c.modifyShard i change).hosts.map (·.address) = c.hosts.map (·.address) := by
    refine List.ext_getElem? fun k => ?_
    simp only [modifyShard, modify, List.getElem?_map, List.getElem?_modify]
    cases c.hosts[k]? with
    | none => rfl
    | some h => by_cases hk : i = k <;> simp [hk]
  rw [listener?_eq, listener?_eq, hsame]

theorem hasWork_iff {i : Nat} :
    c.hasWork i = true ↔ ∃ h, c.host? i = some h ∧ h.shard.queue ≠ [] := by
  rw [hasWork]
  cases c.host? i with
  | none => simp
  | some h => simp

end ClusterCache.Cluster
