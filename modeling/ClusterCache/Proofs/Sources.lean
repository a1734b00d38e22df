import ClusterCache.Proofs.Findings

/-!
# Where entries come from

An entry that a read finds expired or that a deletion finds was made by a put that was executed
before, and no two of them were made by the same put.
-/

namespace ClusterCache

open Std

/-- An execution is the put that made an entry of a key. -/
def Execution.Makes (x : Execution) (key : String) (e : Entry) : Prop :=
  ∃ value ttl, x.request = ⟨key, .put value ttl⟩ ∧ e = Entry.make value x.now ttl

namespace Finding

/-- Whether the entry found is taken away. -/
def takes (f : Finding) : Bool := f.isLapse || f.isRemoval

def ComesFrom (f : Finding) (x : Execution) : Prop :=
  ∃ e, f.entry = some e ∧ x.Makes f.execution.request.key e

variable {f : Finding}

theorem exists_entry_of_takes (h : f.takes = true) : ∃ e, f.entry = some e := by
  apply Option.isSome_iff_exists.mp
  rw [takes, Bool.or_eq_true, isLapse, isRemoval, Bool.and_eq_true, Bool.and_eq_true] at h
  rcases h with ⟨_, hlapse⟩ | ⟨_, hsome⟩
  · cases hentry : f.entry with
    | none => simp [hentry] at hlapse
    | some e => rfl
  · exact hsome

theorem leaves_of_takes (h : f.takes = true) :
    f.command.leaves f.execution.now f.entry = none := by
  rw [takes, isLapse, isRemoval] at h
  cases hcommand : f.command with
  | put value ttl => simp [hcommand, Command.isGet, Command.isDelete] at h
  | delete => rfl
  | get =>
      cases hentry : f.entry with
      | none => rfl
      | some e =>
          apply Command.leaves_get_of_expired
          simpa [hcommand, hentry, Command.isGet, Command.isDelete] using h

/-- What is left is the entry that was found, unless the execution is the put that made it. -/
theorem entry_or_makes_of_leaves {e : Entry}
    (hleaves : f.command.leaves f.execution.now f.entry = some e) :
    f.entry = some e ∨ f.execution.Makes f.execution.request.key e := by
  cases hcommand : f.command with
  | put value ttl =>
      refine Or.inr ⟨value, ttl, ?_, ?_⟩
      · rw [← hcommand]
        rfl
      · rw [hcommand] at hleaves
        exact (Option.some.inj hleaves).symm
  | delete =>
      rw [hcommand] at hleaves
      cases hleaves
  | get =>
      rw [hcommand] at hleaves
      exact Or.inl (Option.filter_eq_some_iff.mp hleaves).1

end Finding

namespace Node

open Journal

variable {n n' : Node} {fs : List Finding} {j rs : Journal} {sources : List Execution}

/-- The puts that made the entries taken away, and that the entries still stored were made by
others. -/
structure Sourced (n : Node) (fs : List Finding) (j : Journal) (sources : List Execution) :
    Prop where
  nodup : sources.Nodup
  executed : sources ⊆ executed j
  taken : List.Forall₂ Finding.ComesFrom (fs.filter Finding.takes) sources
  held : n.shard.alive = true → ∀ key e, n.shard.store[key]? = some e →
    ∃ x ∈ Journal.executed j, x ∉ sources ∧ x.Makes key e

theorem Sourced.execute (hj : n.Sourced fs j sources) (halive : n.shard.alive = true)
    {x : Execution} (hexecuted : Journal.executed rs = [x]) (hfresh : x ∉ Journal.executed j)
    (hstore : ∀ key, n'.shard.store[key]? = if key = x.request.key
      then x.request.command.leaves x.now n.shard.store[x.request.key]?
      else n.shard.store[key]?) :
    ∃ sources', n'.Sourced (fs ++ [n.shard.store.finding x]) (j ++ rs) sources' := by
  generalize hf : n.shard.store.finding x = f
  have hsub : Journal.executed j ⊆ Journal.executed (j ++ rs) := by
    rw [executed_append]
    exact List.subset_append_left _ _
  have hleaves : n'.shard.store[x.request.key]? = f.command.leaves f.execution.now f.entry := by
    rw [hstore, if_pos rfl, ← hf]
    rfl
  cases htakes : f.takes with
  | true =>
      obtain ⟨e, he⟩ := Finding.exists_entry_of_takes htakes
      have hslot : n.shard.store[x.request.key]? = some e := by
        rw [← he, ← hf, Store.finding_entry]
      -- The put that made the entry joins the sources, and no other entry was made by it, as it was
      -- a put of this key.
      obtain ⟨y, hy, hnew, hmakes⟩ := hj.held halive _ e hslot
      refine ⟨sources ++ [y], ?_, ?_, ?_, fun _ key e' hkey => ?_⟩
      · exact hj.nodup.append (List.nodup_singleton y) (List.disjoint_singleton.mpr hnew)
      · exact List.append_subset.mpr ⟨List.Subset.trans hj.executed hsub, by simpa using hsub hy⟩
      · rw [List.filter_append, List.filter_cons_of_pos htakes, List.filter_nil]
        apply List.rel_append hj.taken
        exact .cons ⟨e, he, by rw [← hf]; exact hmakes⟩ .nil
      · have hother : key ≠ x.request.key := by
          rintro rfl
          rw [hleaves, Finding.leaves_of_takes htakes] at hkey
          cases hkey
        rw [hstore, if_neg hother] at hkey
        obtain ⟨z, hz, hzs, hzm⟩ := hj.held halive key e' hkey
        refine ⟨z, hsub hz, ?_, hzm⟩
        rw [List.mem_append, List.mem_singleton, not_or]
        refine ⟨hzs, ?_⟩
        rintro rfl
        obtain ⟨_, _, hzkey, _⟩ := hzm
        obtain ⟨_, _, hykey, _⟩ := hmakes
        rw [hzkey] at hykey
        exact hother (Request.mk.inj hykey).1
  | false =>
      refine ⟨sources, hj.nodup, List.Subset.trans hj.executed hsub, ?_, fun _ key e hkey => ?_⟩
      · rw [List.filter_append, List.filter_cons_of_neg (by simp [htakes]), List.filter_nil,
          List.append_nil]
        exact hj.taken
      · have hold : n.shard.store[key]? = some e →
            ∃ y ∈ Journal.executed (j ++ rs), y ∉ sources ∧ y.Makes key e := fun hslot =>
          have ⟨y, hy, hys, hym⟩ := hj.held halive key e hslot
          ⟨y, hsub hy, hys, hym⟩
        by_cases hsame : key = x.request.key
        · subst hsame
          rw [hleaves] at hkey
          rcases Finding.entry_or_makes_of_leaves hkey with hentry | hmakes
          · apply hold
            rw [← hentry, ← hf, Store.finding_entry]
          · rw [← hf] at hmakes
            refine ⟨x, by simp [hexecuted], fun hmem => ?_, hmakes⟩
            exact hfresh (hj.executed hmem)
        · rw [hstore, if_neg hsame] at hkey
          exact hold hkey

theorem Sourced.step (hj : n.Sourced fs j sources) (horderly : n.Orderly j) (h : n.Deed rs n') :
    ∃ sources', n'.Sourced (fs ++ (Journal.executed rs).map n.shard.store.finding) (j ++ rs)
      sources' := by
  have hframe : Journal.executed rs = [] →
      (n'.shard.alive = true → n.shard.alive = true ∧ n'.shard.store = n.shard.store) →
      n'.Sourced (fs ++ (Journal.executed rs).map n.shard.store.finding) (j ++ rs) sources := by
    intro hnone hstore
    rw [hnone, List.map_nil, List.append_nil]
    refine ⟨hj.nodup, ?_, hj.taken, fun halive => ?_⟩
    · rw [executed_append, hnone, List.append_nil]
      exact hj.executed
    · obtain ⟨hbefore, hsame⟩ := hstore halive
      rw [executed_append, hnone, List.append_nil, hsame]
      exact hj.held hbefore
  cases h with
  | execute now ticket r rest hqueue hlocal =>
      have halive := horderly.alive_of_queue (hqueue ▸ List.mem_cons_self)
      have hexecuted := executed_execution ⟨now, ticket, r⟩
        (r.command.tells now n.shard.store[r.key]?) (Event.mk r.key)
        fun change => (n.shard.events.offer ⟨r.key, change⟩).2
      rw [hexecuted]
      apply hj.execute halive hexecuted
      · intro hmem
        exact horderly.ne_of_executed hmem (hqueue ▸ List.mem_cons_self) rfl
      · exact fun key => Shard.lookup_execute { n.shard with queue := rest } now ticket r key
  | expire key keeper hnone => exact ⟨sources, hframe rfl fun halive => ⟨halive, rfl⟩⟩
  | evict key keeper hnone => exact ⟨sources, hframe rfl fun halive => ⟨halive, rfl⟩⟩
  | other rs n' hexecuted hoffered hswept hcounters hsize hstore =>
      exact ⟨sources, hframe hexecuted hstore⟩

/-- Every entry taken away was made by a put of its own. -/
theorem sourced_run (settings : Settings) (ring : Ring) (senders pollMs : Nat)
    (acts : List Act) : ∃ sources,
      ((make settings ring senders pollMs).run acts).Sourced
        ((make settings ring senders pollMs).findings acts)
        ((make settings ring senders pollMs).journal acts) sources := by
  induction acts using List.reverseRecOn with
  | nil =>
      refine ⟨[], List.nodup_nil, List.nil_subset _, .nil, fun _ key e hkey => ?_⟩
      cases (ExtTreeMap.getElem?_empty (a := key)).symm.trans hkey
  | append_singleton acts a ih =>
      obtain ⟨sources, hj⟩ := ih
      rw [run_concat, journal_concat, findings_concat]
      exact hj.step (orderly_run settings ring senders pollMs acts).1 (deed_act _ a)

end Node

end ClusterCache
