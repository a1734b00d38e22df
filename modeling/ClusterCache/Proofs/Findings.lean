import ClusterCache.Proofs.Sequential

/-!
# What the worker finds

When a request is executed, its key has an entry or not, and what the worker does to the store and
to the counters depends on that.  Apart from the worker only the two sweeps of the keeper count
anything, when a deletion of theirs is accepted.
-/

namespace ClusterCache

open Std

namespace Command

def isPut : Command → Bool
  | .put _ _ => true
  | _ => false

def isGet : Command → Bool
  | .get => true
  | _ => false

def isDelete : Command → Bool
  | .delete => true
  | _ => false

@[simp] theorem isDelete_iff {c : Command} : c.isDelete = true ↔ c = .delete := by
  cases c <;> simp [isDelete]

end Command

/-- A request that was executed, with the entry that its key had then. -/
structure Finding where
  execution : Execution
  entry : Option Entry
deriving DecidableEq, Repr

namespace Finding

def command (f : Finding) : Command := f.execution.request.command

/-- Whether a put found an entry and put another one in its place. -/
def isReplacement (f : Finding) : Bool := f.command.isPut && f.entry.isSome

/-- Whether a read found an entry in time. -/
def isHit (f : Finding) : Bool :=
  f.command.isGet && f.entry.any fun e => !e.isExpired f.execution.now

/-- Whether a read found an entry past its time. -/
def isLapse (f : Finding) : Bool :=
  f.command.isGet && f.entry.any fun e => e.isExpired f.execution.now

def isRemoval (f : Finding) : Bool := f.command.isDelete && f.entry.isSome

end Finding

theorem countP_concat {α : Type} (p : α → Bool) (l : List α) (a : α) :
    (l ++ [a]).countP p = l.countP p + (p a).toNat := by
  rw [List.countP_append, List.countP_singleton]
  cases p a <;> rfl

def Store.finding (s : Store) (x : Execution) : Finding := ⟨x, s[x.request.key]?⟩

@[simp] theorem Store.finding_execution (s : Store) (x : Execution) :
    (s.finding x).execution = x := rfl

@[simp] theorem Store.finding_entry (s : Store) (x : Execution) :
    (s.finding x).entry = s[x.request.key]? := rfl

@[simp] theorem Store.finding_command (s : Store) (x : Execution) :
    (s.finding x).command = x.request.command := rfl

def Origin.isSweep : Origin → Bool
  | .caller => false
  | .expiry | .eviction => true

def Record.swept? : Record → Option (Nat × Request)
  | accepted origin ticket r => if origin.isSweep then some (ticket, r) else none
  | _ => none

namespace Journal

/-- The deletions of the sweeps taken into the queue, with their tickets. -/
def swept (j : Journal) : List (Nat × Request) := j.filterMap Record.swept?

@[simp] theorem swept_append (i j : Journal) : swept (i ++ j) = swept i ++ swept j :=
  List.filterMap_append

theorem filterMap_sublist_filterMap {α β : Type} {f g : α → Option β}
    (h : ∀ a b, f a = some b → g a = some b) (l : List α) :
    (l.filterMap f).Sublist (l.filterMap g) := by
  induction l with
  | nil => exact List.Sublist.refl []
  | cons a l ih =>
      cases hf : f a with
      | some b =>
          rw [List.filterMap_cons_some hf, List.filterMap_cons_some (h a b hf)]
          exact ih.cons_cons b
      | none =>
          rw [List.filterMap_cons_none hf]
          cases hg : g a with
          | none => rwa [List.filterMap_cons_none hg]
          | some b =>
              rw [List.filterMap_cons_some hg]
              exact ih.cons b

theorem swept_sublist_accepted (j : Journal) : (swept j).Sublist (accepted j) := by
  apply filterMap_sublist_filterMap
  intro record p hrecord
  cases record with
  | accepted origin ticket r => exact (Option.ite_none_right_eq_some.mp hrecord).2
  | _ => cases hrecord

theorem exists_origin_of_accepted {j : Journal} {p : Nat × Request} (hp : p ∈ accepted j) :
    ∃ origin, .accepted origin p.1 p.2 ∈ j := by
  obtain ⟨record, hmem, hrecord⟩ := List.mem_filterMap.mp hp
  cases record with
  | accepted origin ticket r =>
      obtain rfl := Option.some.inj hrecord
      exact ⟨origin, hmem⟩
  | _ => cases hrecord

theorem exists_accepted_of_swept {j : Journal} {p : Nat × Request} (hp : p ∈ swept j) :
    ∃ origin, origin ≠ .caller ∧ .accepted origin p.1 p.2 ∈ j := by
  obtain ⟨record, hmem, hrecord⟩ := List.mem_filterMap.mp hp
  cases record with
  | accepted origin ticket r =>
      obtain ⟨hsweep, hsome⟩ := Option.ite_none_right_eq_some.mp hrecord
      obtain rfl := Option.some.inj hsome
      refine ⟨origin, ?_, hmem⟩
      rintro rfl
      cases hsweep
  | _ => cases hrecord

theorem executed_sublist_taken (j : Journal) :
    ((executed j).map fun x => (x.ticket, x.request)).Sublist (taken j) := by
  rw [executed, List.map_filterMap]
  apply filterMap_sublist_filterMap
  intro record p hrecord
  cases record with
  | executed x => exact hrecord
  | _ => cases hrecord

@[simp] theorem executed_accepted (origin : Origin) (ticket : Nat) (r : Request) :
    executed [.accepted origin ticket r] = [] := rfl

@[simp] theorem swept_execution (x : Execution) (change : Option Change) (e : Change → Event)
    (o : Change → Offer) :
    swept (.executed x :: (change.map fun c => .offered (e c) (o c)).toList) = [] := by
  cases change <;> rfl

end Journal

namespace Node

open Journal

def found (n : Node) (a : Act) : List Finding :=
  (executed (n.records a)).map n.shard.store.finding

/-- What the worker finds in a run, in order. -/
def findings : Node → List Act → List Finding
  | _, [] => []
  | n, a :: acts => n.found a ++ findings (n.act a) acts

theorem findings_concat (n : Node) (acts : List Act) (a : Act) :
    n.findings (acts ++ [a]) = n.findings acts ++ (n.run acts).found a := by
  induction acts generalizing n with
  | nil => exact List.append_nil _
  | cons b acts ih =>
      rw [List.cons_append, findings, findings, ih, List.append_assoc]
      rfl

theorem map_execution_findings (n : Node) (acts : List Act) :
    (n.findings acts).map Finding.execution = executed (n.journal acts) := by
  induction acts generalizing n with
  | nil => rfl
  | cons a acts ih =>
      rw [findings, List.map_append, ih, journal, executed_append, found, List.map_map]
      exact congrArg (· ++ _) (List.map_id _)

theorem countP_findings (n : Node) (acts : List Act) (p : Command → Bool) :
    (n.findings acts).countP (p ·.command) =
      (executed (n.journal acts)).countP (p ·.request.command) := by
  rw [← map_execution_findings, List.countP_map]
  rfl

/-! ## What an act comes to -/

/-- What an act comes to, as far as entries and counters go: the worker executes the oldest
request, or a deletion of a sweep is accepted, or neither. -/
inductive Deed (n : Node) : Journal → Node → Prop where
  | execute (now : UInt64) (ticket : Nat) (r : Request) (rest : List (Nat × Request))
      (hqueue : n.shard.queue = (ticket, r) :: rest)
      (hlocal : n.shard.ring.isLocal r.key = true) :
      Deed n
        (.executed ⟨now, ticket, r⟩ :: ((r.command.tells now n.shard.store[r.key]?).map
          fun change => .offered ⟨r.key, change⟩ (n.shard.events.offer ⟨r.key, change⟩).2).toList)
        { n with shard := Shard.execute { n.shard with queue := rest } now ticket r }
  | expire (key : String) (keeper : Keeper) (hnone : n.shard.refusal? ⟨key, .delete⟩ = none) :
      Deed n [.accepted .expiry n.shard.tickets ⟨key, .delete⟩]
        { n with
          shard := { n.shard.enqueue ⟨key, .delete⟩ with counters := n.shard.counters.expire }
          keeper }
  | evict (key : String) (keeper : Keeper) (hnone : n.shard.refusal? ⟨key, .delete⟩ = none) :
      Deed n [.accepted .eviction n.shard.tickets ⟨key, .delete⟩]
        { n with
          shard := { n.shard.enqueue ⟨key, .delete⟩ with counters := n.shard.counters.evict }
          keeper }
  | other (rs : Journal) (n' : Node) (hexecuted : executed rs = []) (hoffered : offered rs = [])
      (hswept : swept rs = []) (hcounters : n'.shard.counters = n.shard.counters)
      (hsize : n'.shard.size = n.shard.size)
      (hstore : n'.shard.alive = true → n.shard.alive = true ∧ n'.shard.store = n.shard.store) :
      Deed n rs n'

variable {n n' : Node} {a : Act} {rs : Journal}

theorem Step.deed (h : n.Step a rs n') : n.Deed rs n' := by
  cases h with
  | turn now fatal records shard hturn =>
      cases hturn with
      | execute ticket r rest hqueue hlocal => exact .execute now ticket r rest hqueue hlocal
      | idle hqueue => exact .other _ _ rfl rfl rfl rfl rfl fun halive => ⟨halive, rfl⟩
      | giveUp ticket r rest hqueue hforeign haddress =>
          exact .other _ _ rfl rfl rfl rfl rfl fun halive => ⟨halive, rfl⟩
  | handOn now ticket call shard records hturn =>
      cases hturn
      exact .other _ _ rfl rfl rfl rfl rfl fun halive => ⟨halive, rfl⟩
  | perish now ticket call shard records hturn =>
      cases hturn
      exact .other _ _ rfl rfl rfl rfl rfl fun halive => (by cases halive)
  | move listing clock records shard keeper hmove =>
      cases hmove with
      | expire now time key rest issued hstage hnone => exact .expire key _ hnone
      | evict victim issued hstage hnone => exact .evict victim _ hnone
      | _ => exact .other _ _ rfl rfl rfl rfl rfl fun halive => ⟨halive, rfl⟩
  | _ => exact .other _ _ rfl rfl rfl rfl rfl fun halive => ⟨halive, rfl⟩

theorem deed_act (n : Node) (a : Act) : n.Deed (n.records a) (n.act a) := (n.step_act a).deed

theorem Orderly.alive_of_queue {j : Journal} (h : n.Orderly j) {p : Nat × Request}
    (hp : p ∈ n.shard.queue) : n.shard.alive = true := by
  by_contra hdead
  rw [h.dead (by simpa using hdead)] at hp
  cases hp

theorem Deed.of_mem_executed (h : n.Deed rs n') {x : Execution} (hx : x ∈ executed rs) :
    swept rs = [] ∧ ∃ rest, n.shard.queue = (x.ticket, x.request) :: rest := by
  cases h with
  | execute now ticket r rest hqueue hlocal =>
      rw [executed_execution, List.mem_singleton] at hx
      subst hx
      exact ⟨swept_execution _ _ _ _, rest, hqueue⟩
  | expire key keeper hnone => cases hx
  | evict key keeper hnone => cases hx
  | other rs n' hexecuted hoffered hswept hcounters hsize hstore =>
      rw [hexecuted] at hx
      cases hx

/-- The worker does nothing in dying, and nothing is accepted once it is dead. -/
theorem Deed.of_dead (h : n.Deed rs n') {j : Journal} (horderly : n.Orderly j)
    (hdead : n'.shard.alive = false) :
    executed rs = [] ∧ swept rs = [] ∧ n'.shard.size = n.shard.size := by
  cases h with
  | execute now ticket r rest hqueue hlocal =>
      rw [Shard.execute_alive] at hdead
      rw [horderly.dead hdead] at hqueue
      cases hqueue
  | expire key keeper hnone => cases hdead.symm.trans (Shard.refusal?_eq_none hnone).2.1
  | evict key keeper hnone => cases hdead.symm.trans (Shard.refusal?_eq_none hnone).2.1
  | other rs n' hexecuted hoffered hswept hcounters hsize hstore =>
      exact ⟨hexecuted, hswept, hsize⟩

/-- The requests taken that the worker does not execute are for keys of other nodes. -/
theorem Step.foreign_of_taken (h : n.Step a rs n') (hexecuted : executed rs = []) :
    ∀ p ∈ taken rs, n.shard.ring.isLocal p.2.key = false := by
  intro p hp
  by_contra hlocal
  have hfilter := h.executed_eq_filter
  rw [hexecuted, List.map_nil, eq_comm, List.filter_eq_nil_iff] at hfilter
  exact hfilter p hp (by simpa using hlocal)

end Node

end ClusterCache
