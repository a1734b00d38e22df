import ClusterCache.Proofs.Eviction.Frequency

/-!
# Look-ups in a frequency chain

The operations on a chain pass over a bucket or a key that is not where an index says it is.  The
ones here stop there and say what is missing.  They never do: they go through every history and come
to the chain that the others come to, whose indexes name what is there and nothing else.
-/

namespace ClusterCache.FrequencyChain

open Levels Policy

/-- What is not where an index says it is: the bucket recorded for a key, the one after which a new
one is made, the one that a key joins or leaves, or the key in its bucket. -/
inductive Missing where
  | bucketOfKey
  | bucketBefore
  | bucketToJoin
  | bucketToLeave
  | keyInSlot
deriving DecidableEq, Repr

def tryJoin (c : FrequencyChain) (bucket : Nat) (key : String) : Except Missing FrequencyChain :=
  match c.buckets.get? bucket with
  | none => .error .bucketToJoin
  | some _ => .ok (c.join bucket key)

def tryLeave (c : FrequencyChain) (spot : Spot) (key : String) : Except Missing FrequencyChain :=
  match c.buckets.get? spot.bucket with
  | none => .error .bucketToLeave
  | some b => if b.keys.get? spot.slot = some key then .ok (c.leave spot) else .error .keyInSlot

def tryEnter (c : FrequencyChain) (key : String) : Except Missing FrequencyChain :=
  match c.byFrequency[1]? with
  | some bucket => c.tryJoin bucket key
  | none =>
    let (buckets, bucket) := c.buckets.pushFront { frequency := 1 }
    { c with buckets, byFrequency := c.byFrequency.insert 1 bucket }.tryJoin bucket key

def tryPromote (c : FrequencyChain) (key : String) (spot : Spot) :
    Except Missing FrequencyChain :=
  match c.buckets.get? spot.bucket with
  | none => .error .bucketOfKey
  | some b =>
    match c.withBucket? spot.bucket (b.frequency + 1) with
    | none => .error .bucketBefore
    | some (c, bucket) => do
      let c ← c.tryLeave spot key
      c.tryJoin bucket key

def tryAccess (c : FrequencyChain) (key : String) : Except Missing FrequencyChain :=
  match c.spots[key]? with
  | none => c.tryEnter key
  | some spot => c.tryPromote key spot

def tryRemove (c : FrequencyChain) (key : String) : Except Missing FrequencyChain :=
  match c.spots[key]? with
  | none => .ok c
  | some spot => { c with spots := c.spots.erase key }.tryLeave spot key

def tryNote (c : FrequencyChain) : Notice → Except Missing FrequencyChain
  | .put key => c.tryAccess key
  | .get key => c.tryAccess key
  | .delete key => c.tryRemove key

/-! ## Sound chains -/

section Found

variable {c : FrequencyChain} {rows : List (Nat × Bucket)} {key : String} {spot : Spot}

theorem tryJoin_eq {bucket : Nat} {b : Bucket} (h : c.buckets.get? bucket = some b)
    (key : String) : c.tryJoin bucket key = .ok (c.join bucket key) := by
  rw [tryJoin, h]

theorem tryLeave_eq {b : Bucket} (h : c.buckets.get? spot.bucket = some b)
    (hkey : b.keys.get? spot.slot = some key) : c.tryLeave spot key = .ok (c.leave spot) := by
  rw [tryLeave, h]
  exact if_pos hkey

theorem Framed.tryEnter_eq (h : c.Framed rows) (key : String) :
    c.tryEnter key = .ok (c.enter key) := by
  cases hf : c.byFrequency[1]? with
  | some bucket =>
      obtain ⟨b, hb, _⟩ := (h.byFrequency 1 bucket).mp hf
      simp only [tryEnter, enter, hf]
      exact tryJoin_eq ((SlotList.get?_eq_some_iff h.buckets).mpr hb) key
  | none =>
      have hpush := SlotList.holds_pushFront h.buckets ({ frequency := 1 } : Bucket)
      simp only [tryEnter, enter, hf]
      apply tryJoin_eq (b := { frequency := 1 })
      exact (SlotList.get?_eq_some_iff hpush).mpr List.mem_cons_self

theorem Framed.tryPromote_eq (h : c.Framed rows) (hs : c.spots[key]? = some spot) :
    c.tryPromote key spot = .ok (c.promote key spot) := by
  obtain ⟨b, hb, hget⟩ := (h.spots key spot).mp hs
  obtain ⟨xs, ys, rfl⟩ := List.append_of_mem hb
  obtain ⟨c', s', b', zs, hwith, _, hframed, _⟩ := withBucket?_spec h key
  obtain ⟨ms, hms, _⟩ := leave_spec hframed hget
  rw [← List.append_assoc] at hms
  -- The next bucket is still there when the key has left the present one.
  have hleave : c'.tryLeave spot key = .ok (c'.leave spot) := tryLeave_eq hframed.get?_bucket hget
  have hjoin : (c'.leave spot).tryJoin s' key = .ok ((c'.leave spot).join s' key) :=
    tryJoin_eq hms.get?_leave key
  simp only [tryPromote, promote, h.get?_bucket, hwith, hleave]
  exact hjoin

theorem Sound.tryAccess_eq (h : c.Sound) (key : String) :
    c.tryAccess key = .ok (c.access key) := by
  obtain ⟨rows, hrows, _⟩ := h
  cases hs : c.spots[key]? with
  | none =>
      simp only [tryAccess, FrequencyChain.access, hs]
      exact hrows.tryEnter_eq key
  | some spot =>
      simp only [tryAccess, FrequencyChain.access, hs]
      exact hrows.tryPromote_eq hs

theorem Sound.tryRemove_eq (h : c.Sound) (key : String) :
    c.tryRemove key = .ok (c.remove key) := by
  obtain ⟨rows, hrows, _⟩ := h
  cases hs : c.spots[key]? with
  | none => simp only [tryRemove, FrequencyChain.remove, hs]
  | some spot =>
      obtain ⟨b, hb, hget⟩ := (hrows.spots key spot).mp hs
      simp only [tryRemove, FrequencyChain.remove, hs]
      apply tryLeave_eq (b := b) _ hget
      exact (SlotList.get?_eq_some_iff hrows.buckets).mpr hb

/-- A sound chain has everything that a notice makes it look for. -/
theorem Sound.tryNote_eq (h : c.Sound) (n : Notice) :
    ∃ d, c.tryNote n = .ok d ∧ (Policy.lfu c).note n = .lfu d := by
  cases n with
  | put key => exact ⟨_, h.tryAccess_eq key, rfl⟩
  | get key => exact ⟨_, h.tryAccess_eq key, rfl⟩
  | delete key => exact ⟨_, h.tryRemove_eq key, rfl⟩

/-- The rows of a sound chain are what is read by following its links. -/
theorem Sound.framed_entries (h : c.Sound) : c.Framed c.buckets.entries ∧
    ∀ r ∈ c.buckets.entries, r.2.keys.isEmpty = false ∧ 1 ≤ r.2.frequency := by
  obtain ⟨rows, hrows, hfull⟩ := h
  rw [SlotList.entries_eq hrows.buckets]
  exact ⟨hrows, hfull⟩

theorem Sound.exists_at (h : c.Sound) {r : Nat × Bucket} (hr : r ∈ c.buckets.entries) :
    ∃ key, At c.chain r.2.frequency key := by
  obtain ⟨hframed, hfull⟩ := h.framed_entries
  obtain ⟨xs, hxs⟩ := hframed.keys r hr
  obtain ⟨key, hkey⟩ := List.exists_mem_of_ne_nil _ ((isEmpty_eq_false_iff hxs).mp (hfull r hr).1)
  refine ⟨key, (r.2.frequency, r.2.keys.toList), ?_, rfl, hkey⟩
  rw [hframed.chain_eq]
  exact List.mem_map.mpr ⟨r, hr, rfl⟩

end Found

/-! ## Whole histories -/

theorem exists_run (history : List Notice) :
    ∃ c, after .lfu history = .lfu c ∧ history.foldlM tryNote empty = .ok c := by
  induction history using List.reverseRecOn with
  | nil => exact ⟨_, rfl, rfl⟩
  | append_singleton history n ih =>
      obtain ⟨c, hc, hrun⟩ := ih
      have hsound : c.Sound := by
        have hafter := sound_after .lfu history
        rwa [hc] at hafter
      obtain ⟨d, hd, hnote⟩ := hsound.tryNote_eq n
      refine ⟨d, ?_, ?_⟩
      · rw [after_concat, hc, hnote]
      · rw [List.foldlM_append, hrun]
        change [n].foldlM tryNote c = .ok d
        rw [List.foldlM_cons, hd]
        rfl

/-- Whatever a policy was told, nothing was missing on the way, and its chain is in order.  The
buckets go up from one and none of them is empty, and the indexes name the buckets and the keys that
are there and nothing else.  No bucket counts more than all accesses together, so that a word holds
every count as long as there are fewer than `2 ^ 64` accesses. -/
theorem nothing_missing_after (history : List Notice) :
    ∃ c, after .lfu history = .lfu c ∧ history.foldlM tryNote empty = .ok c ∧
      c.Framed c.buckets.entries ∧
      ∀ r ∈ c.buckets.entries, r.2.keys.isEmpty = false ∧ 1 ≤ r.2.frequency ∧
        r.2.frequency ≤ history.countP Notice.isAccess := by
  obtain ⟨c, hc, hrun⟩ := exists_run history
  obtain ⟨d, hd, hcounts⟩ := counts_lfu history
  obtain rfl : c = d := Policy.lfu.inj (hc.symm.trans hd)
  obtain ⟨hframed, hfull⟩ := hcounts.sound.framed_entries
  refine ⟨c, hc, hrun, hframed, ?_⟩
  intro r hr
  obtain ⟨key, hat⟩ := hcounts.sound.exists_at hr
  have hbound := accessCount_le key history
  rw [(hcounts.count_of_at hat).2] at hbound
  exact ⟨(hfull r hr).1, (hfull r hr).2, hbound⟩

-- The bucket of the keys accessed once is made anew in the slot that it had before.
example : (([.put "a", .get "a", .put "b"] : List Notice).foldlM tryNote empty).toOption.map
    (fun c => c.buckets.entries.map fun r => (r.1, r.2.frequency)) = some [(0, 1), (1, 2)] := by
  decide +kernel

end ClusterCache.FrequencyChain
