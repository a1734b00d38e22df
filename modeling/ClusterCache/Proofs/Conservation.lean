import ClusterCache.Proofs.Findings

/-!
# What the counters add up to

The worker counts what it finds, the keeper what it gets the worker to delete, and whoever offers
an event counts it if there is no room.  So the counters of a node, its size and its journal are
tied to each other by a few sums, whatever order things happen in.
-/

namespace ClusterCache

open Std

namespace Finding

def isMiss (f : Finding) : Bool :=
  f.command.isGet && !f.entry.any fun e => !e.isExpired f.execution.now

theorem hit_add_miss (f : Finding) : f.isHit.toNat + f.isMiss.toNat = f.command.isGet.toNat := by
  rw [isHit, isMiss]
  cases f.command.isGet with
  | false => rfl
  | true => cases f.entry.any fun e => !e.isExpired f.execution.now <;> rfl

theorem countP_isHit_add_isMiss (fs : List Finding) :
    fs.countP isHit + fs.countP isMiss = fs.countP (·.command.isGet) := by
  induction fs using List.reverseRecOn with
  | nil => rfl
  | append_singleton fs f ih =>
      have hread := f.hit_add_miss
      simp only [countP_concat]
      omega

end Finding

/-- The counters after the worker has found something. -/
def Counters.tally (c : Counters) (f : Finding) : Counters :=
  { c with
    hits := c.hits + f.isHit.toNat
    misses := c.misses + f.isMiss.toNat
    puts := c.puts + f.command.isPut.toNat
    removes := c.removes + f.isRemoval.toNat
    expirations := c.expirations + f.isLapse.toNat }

theorem Store.size_insert_add (s : Store) (key : String) (e : Entry) :
    (s.insert key e).size + s[key]?.isSome.toNat = s.size + 1 := by
  rw [ExtTreeMap.size_insert, ← ExtTreeMap.contains_eq_isSome_getElem?]
  cases s.contains key <;> rfl

theorem Store.size_erase_add (s : Store) (key : String) :
    (s.erase key).size + s[key]?.isSome.toNat = s.size := by
  rw [ExtTreeMap.size_erase, ← ExtTreeMap.contains_eq_isSome_getElem?]
  cases hstored : s.contains key with
  | false => rfl
  | true =>
      apply Nat.sub_add_cancel
      rw [Nat.one_le_iff_ne_zero]
      intro hzero
      rw [← ExtTreeMap.eq_empty_iff_size_eq_zero] at hzero
      rw [hzero, ExtTreeMap.contains_empty] at hstored
      cases hstored

section Execute

variable (s : Store) (c : Counters) (x : Execution)

theorem Store.counters_execute :
    (s.execute c x.now x.request).counters = c.tally (s.finding x) := by
  rw [finding]
  obtain ⟨now, ticket, key, command⟩ := x
  cases command with
  | put value ttl => rfl
  | get =>
      simp only [execute, get]
      cases hs : s[key]? with
      | none => rfl
      | some e => cases he : e.isExpired now <;> simp [he, Counters.tally, Finding.isHit,
          Finding.isMiss, Finding.isLapse, Finding.isRemoval, Finding.command, Command.isGet,
          Command.isPut, Command.isDelete, Counters.hit, Counters.miss, Counters.expire]
  | delete =>
      simp only [execute, delete, ExtTreeMap.contains_eq_isSome_getElem?]
      cases hs : s[key]? <;> rfl

/-- A put makes the store one larger unless it replaces an entry, and an entry that is taken away
makes it one smaller. -/
theorem Store.size_execute :
    (s.execute c x.now x.request).store.size + (s.finding x).isRemoval.toNat +
        (s.finding x).isReplacement.toNat + (s.finding x).isLapse.toNat =
      s.size + x.request.command.isPut.toNat := by
  simp only [finding]
  have herase := s.size_erase_add x.request.key
  have hinsert := s.size_insert_add x.request.key
  obtain ⟨now, ticket, key, command⟩ := x
  cases command with
  | put value ttl => exact hinsert (Entry.make value now ttl)
  | delete => exact herase
  | get =>
      simp only [execute, get]
      cases hs : s[key]? with
      | none => rfl
      | some e =>
          cases he : e.isExpired now with
          | false => simp [he, Finding.isRemoval, Finding.isReplacement, Finding.isLapse,
              Finding.command, Command.isGet, Command.isPut, Command.isDelete]
          | true =>
              rw [hs] at herase
              simpa [he, Finding.isRemoval, Finding.isReplacement, Finding.isLapse,
                Finding.command, Command.isGet, Command.isPut, Command.isDelete] using herase

end Execute

def Record.isAcceptedFrom (origin : Origin) : Record → Bool
  | accepted o _ _ => o = origin
  | _ => false

namespace Journal

theorem length_swept (j : Journal) :
    (swept j).length =
      j.countP (Record.isAcceptedFrom .expiry) + j.countP (Record.isAcceptedFrom .eviction) := by
  induction j with
  | nil => rfl
  | cons record j ih =>
      rw [swept] at ih ⊢
      cases record with
      | accepted origin ticket r =>
          cases origin <;>
            simp [Record.swept?, Origin.isSweep, Record.isAcceptedFrom, ih] <;> omega
      | _ => simpa [Record.swept?, Record.isAcceptedFrom]

/-- An event offered is accepted, or lost for want of room, or nobody will ever hear it. -/
theorem length_offered (j : Journal) :
    (offered j).length =
      (told j).length + (offered j).countP (·.2 = .full) +
        (offered j).countP (·.2 = .closed) := by
  rw [told]
  generalize offered j = events
  induction events with
  | nil => rfl
  | cons p events ih =>
      obtain ⟨e, outcome⟩ := p
      cases outcome <;> simp [ih] <;> omega

end Journal

namespace Node

open Journal

variable {n n' : Node} {fs : List Finding} {j rs : Journal}

/-- What the counters, the size and the events offered are, given what the worker has found. -/
structure Balance (n : Node) (fs : List Finding) (j : Journal) : Prop where
  hits : n.shard.counters.hits = fs.countP Finding.isHit
  misses : n.shard.counters.misses = fs.countP Finding.isMiss
  puts : n.shard.counters.puts = fs.countP (·.command.isPut)
  removes : n.shard.counters.removes = fs.countP Finding.isRemoval
  expirations : n.shard.counters.expirations =
    fs.countP Finding.isLapse + j.countP (Record.isAcceptedFrom .expiry)
  evictions : n.shard.counters.evictions = j.countP (Record.isAcceptedFrom .eviction)
  dropped : n.shard.counters.droppedEvents = (offered j).countP (·.2 = .full)
  size : n.shard.alive = true → n.shard.size = n.shard.store.size
  entries : n.shard.size + fs.countP Finding.isRemoval + fs.countP Finding.isReplacement +
    fs.countP Finding.isLapse = fs.countP (·.command.isPut)
  events : (offered j).length = fs.countP (·.command.isPut) + fs.countP Finding.isHit +
    fs.countP Finding.isLapse + fs.countP (·.command.isDelete)

/-- An event is offered of every request but a read that finds nothing. -/
theorem length_tells (f : Finding) :
    (f.command.tells f.execution.now f.entry).toList.length =
      f.command.isPut.toNat + f.isHit.toNat + f.isLapse.toNat + f.command.isDelete.toNat := by
  rw [Finding.isHit, Finding.isLapse]
  cases f.command with
  | put value ttl => rfl
  | delete => rfl
  | get =>
      cases f.entry with
      | none => rfl
      | some e => cases he : e.isExpired f.execution.now <;> simp [he, Command.tells, Command.isGet,
          Command.isPut, Command.isDelete]

theorem Balance.find (hj : n.Balance fs j) (f : Finding) (halive : n.shard.alive = true)
    (hswept : swept rs = [])
    (hoffered : (offered rs).length =
      f.command.isPut.toNat + f.isHit.toNat + f.isLapse.toNat + f.command.isDelete.toNat)
    (hcounters : n'.shard.counters =
      { n.shard.counters.tally f with
        droppedEvents := n.shard.counters.droppedEvents +
          (offered rs).countP (·.2 = .full) })
    (hsize : n'.shard.size = n'.shard.store.size)
    (hstore : n'.shard.store.size + f.isRemoval.toNat + f.isReplacement.toNat +
      f.isLapse.toNat = n.shard.store.size + f.command.isPut.toNat) :
    n'.Balance (fs ++ [f]) (j ++ rs) := by
  -- The sweeps have no part in it, so that the expirations are those of reads.
  have hsweeps := length_swept rs
  rw [hswept, List.length_nil] at hsweeps
  constructor
  · rw [countP_concat, ← hj.hits, hcounters]
    rfl
  · rw [countP_concat, ← hj.misses, hcounters]
    rfl
  · rw [countP_concat, ← hj.puts, hcounters]
    rfl
  · rw [countP_concat, ← hj.removes, hcounters]
    rfl
  · have hexpirations := hj.expirations
    rw [hcounters, countP_concat, List.countP_append]
    simp only [Counters.tally]
    omega
  · have hevictions := hj.evictions
    rw [hcounters, List.countP_append]
    simp only [Counters.tally]
    omega
  · rw [hcounters, hj.dropped, offered_append, List.countP_append]
  · exact fun _ => hsize
  · have hentries := hj.entries
    have hbefore := hj.size halive
    simp only [countP_concat]
    omega
  · have hevents := hj.events
    rw [offered_append, List.length_append]
    simp only [countP_concat]
    omega

/-- The worker has found nothing, but a sweep may have got a deletion accepted. -/
theorem Balance.frame (hj : n.Balance fs j) (hoffered : offered rs = [])
    (hcounters : n'.shard.counters =
      { n.shard.counters with
        expirations := n.shard.counters.expirations + rs.countP (Record.isAcceptedFrom .expiry)
        evictions := n.shard.counters.evictions + rs.countP (Record.isAcceptedFrom .eviction) })
    (hsize : n'.shard.size = n.shard.size)
    (hstore : n'.shard.alive = true → n.shard.alive = true ∧ n'.shard.store = n.shard.store) :
    n'.Balance fs (j ++ rs) := by
  constructor
  · rw [hcounters]
    exact hj.hits
  · rw [hcounters]
    exact hj.misses
  · rw [hcounters]
    exact hj.puts
  · rw [hcounters]
    exact hj.removes
  · rw [hcounters, hj.expirations, List.countP_append, Nat.add_assoc]
  · rw [hcounters, hj.evictions, List.countP_append]
  · rw [hcounters, hj.dropped, offered_append, hoffered, List.append_nil]
  · intro halive
    obtain ⟨hbefore, hsame⟩ := hstore halive
    rw [hsize, hsame, hj.size hbefore]
  · rw [hsize]
    exact hj.entries
  · rw [offered_append, hoffered, List.append_nil]
    exact hj.events

theorem counters_execute (s : Shard) (x : Execution) :
    (s.execute x.now x.ticket x.request).counters =
      { s.counters.tally (s.store.finding x) with
        droppedEvents := s.counters.droppedEvents +
          ((x.request.command.tells x.now s.store[x.request.key]?).map fun change =>
            ((⟨x.request.key, change⟩ : Event),
              (s.events.offer ⟨x.request.key, change⟩).2)).toList.countP (·.2 = .full) } := by
  rw [Shard.execute_eq, Store.counters_execute]
  cases x.request.command.tells x.now s.store[x.request.key]? with
  | none => rfl
  | some change =>
      simp only [Counters.noteOffer_eq, Counters.tally, Option.map_some, Option.elim_some,
        Option.toList_some, List.countP_singleton, decide_eq_true_eq]

theorem Balance.step (hj : n.Balance fs j) (horderly : n.Orderly j) (h : n.Deed rs n') :
    n'.Balance (fs ++ (executed rs).map n.shard.store.finding) (j ++ rs) := by
  cases h with
  | execute now ticket r rest hqueue hlocal =>
      rw [executed_execution]
      apply hj.find (n.shard.store.finding ⟨now, ticket, r⟩)
        (horderly.alive_of_queue (hqueue ▸ List.mem_cons_self)) (swept_execution _ _ _ _)
      · rw [offered_execution, Option.toList_map, List.length_map, ← length_tells]
        rfl
      · rw [offered_execution]
        exact counters_execute { n.shard with queue := rest } ⟨now, ticket, r⟩
      · rw [Shard.execute_eq]
      · rw [Shard.execute_eq]
        exact n.shard.store.size_execute n.shard.counters ⟨now, ticket, r⟩
  | expire key keeper hnone =>
      rw [executed_accepted, List.map_nil, List.append_nil]
      exact hj.frame rfl rfl rfl fun halive => ⟨halive, rfl⟩
  | evict key keeper hnone =>
      rw [executed_accepted, List.map_nil, List.append_nil]
      exact hj.frame rfl rfl rfl fun halive => ⟨halive, rfl⟩
  | other rs n' hexecuted hoffered hswept hcounters hsize hstore =>
      have hsweeps := length_swept rs
      rw [hswept, List.length_nil, eq_comm, Nat.add_eq_zero_iff] at hsweeps
      rw [hexecuted, List.map_nil, List.append_nil]
      apply hj.frame hoffered _ hsize hstore
      rw [hcounters, hsweeps.1, hsweeps.2]
      rfl

theorem balance_run (settings : Settings) (ring : Ring) (senders pollMs : Nat)
    (acts : List Act) :
    ((make settings ring senders pollMs).run acts).Balance
      ((make settings ring senders pollMs).findings acts)
      ((make settings ring senders pollMs).journal acts) := by
  induction acts using List.reverseRecOn with
  | nil => exact ⟨rfl, rfl, rfl, rfl, rfl, rfl, rfl, fun _ => rfl, rfl, rfl⟩
  | append_singleton acts a ih =>
      rw [run_concat, journal_concat, findings_concat]
      exact ih.step (orderly_run settings ring senders pollMs acts).1 (deed_act _ a)

structure Conserved (start : Node) (acts : List Act) : Prop where
  puts : (start.run acts).shard.counters.puts =
    (executed (start.journal acts)).countP (·.request.command.isPut)
  reads : (start.run acts).shard.counters.hits + (start.run acts).shard.counters.misses =
    (executed (start.journal acts)).countP (·.request.command.isGet)
  /-- The size that others see is the number of entries. -/
  size : (start.run acts).shard.alive = true →
    (start.run acts).shard.size = (start.run acts).shard.store.size
  /-- Every put either has its entry in the store still, or the entry was replaced, removed by a
  deletion or found expired by a read. -/
  entries : (start.run acts).shard.size + (start.run acts).shard.counters.removes +
      (start.findings acts).countP Finding.isReplacement +
      (start.findings acts).countP Finding.isLapse =
    (executed (start.journal acts)).countP (·.request.command.isPut)
  /-- An event is offered of every put, every deletion and every read that found an entry. -/
  events : (offered (start.journal acts)).length =
    (executed (start.journal acts)).countP (·.request.command.isPut) +
      (start.run acts).shard.counters.hits + (start.findings acts).countP Finding.isLapse +
      (executed (start.journal acts)).countP (·.request.command.isDelete)
  /-- An event offered is accepted, or counted as lost, or discarded as nobody will hear it. -/
  offers : (offered (start.journal acts)).length =
    (told (start.journal acts)).length + (start.run acts).shard.counters.droppedEvents +
      (offered (start.journal acts)).countP (·.2 = .closed)
  conveyed : (start.run acts).Conveyed (start.journal acts)
  expirations : (start.run acts).shard.counters.expirations =
    (start.findings acts).countP Finding.isLapse +
      (start.journal acts).countP (Record.isAcceptedFrom .expiry)
  evictions : (start.run acts).shard.counters.evictions =
    (start.journal acts).countP (Record.isAcceptedFrom .eviction)
  /-- Apart from the reads that found an expired entry, the deletions of the keeper that were taken
  into the queue are counted, and nothing else. -/
  sweeps : (start.run acts).shard.counters.evictions +
      (start.run acts).shard.counters.expirations -
      (start.findings acts).countP Finding.isLapse =
    (swept (start.journal acts)).length

theorem conserved_run (settings : Settings) (ring : Ring) (senders pollMs : Nat)
    (acts : List Act) : Conserved (make settings ring senders pollMs) acts := by
  have hj := balance_run settings ring senders pollMs acts
  have hconveyed := conveyed_run settings ring senders pollMs acts
  generalize make settings ring senders pollMs = start at *
  have hcount := start.countP_findings acts
  refine
    { puts := hj.puts.trans (hcount Command.isPut)
      reads := ?_
      size := hj.size
      entries := ?_
      events := ?_
      offers := ?_
      conveyed := hconveyed
      expirations := hj.expirations
      evictions := hj.evictions
      sweeps := ?_ }
  · rw [← hcount, hj.hits, hj.misses]
    exact Finding.countP_isHit_add_isMiss _
  · rw [← hcount, hj.removes]
    exact hj.entries
  · rw [← hcount, ← hcount, hj.hits]
    exact hj.events
  · rw [hj.dropped]
    exact length_offered _
  · have hexpirations := hj.expirations
    have hevictions := hj.evictions
    rw [length_swept]
    omega

end Node

end ClusterCache
