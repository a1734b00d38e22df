import ClusterCache.Proofs.Conservation
import ClusterCache.Proofs.OwnKeys
import ClusterCache.Proofs.Sources

/-!
# What the sweeps count

A sweep counts a deletion when it is accepted, and not when it is executed.  If the key has an
entry then, and no read or deletion of the key is ahead, the deletion takes an entry away when its
turn comes.  Otherwise it may find nothing, and then the entry has been counted already or somebody
has deleted it, and the keeper has not heard of it.
-/

namespace ClusterCache

open Std Journal

namespace Finding

def isRemovalOf (f : Finding) (ps : List (Nat × Request)) : Bool :=
  f.isRemoval && decide ((f.execution.ticket, f.execution.request) ∈ ps)

theorem countP_isRemovalOf_le (fs : List Finding) {ps qs : List (Nat × Request)} (h : ps ⊆ qs) :
    fs.countP (·.isRemovalOf ps) ≤ fs.countP (·.isRemovalOf qs) := by
  apply List.countP_mono_left
  intro f _ hf
  rw [isRemovalOf, Bool.and_eq_true] at hf ⊢
  exact ⟨hf.1, decide_eq_true (h (of_decide_eq_true hf.2))⟩

/-- Deletions of which none is among the others find different entries. -/
theorem countP_isRemovalOf_add_le (fs : List Finding) {ps qs : List (Nat × Request)}
    (h : List.Disjoint ps qs) :
    fs.countP (·.isRemovalOf ps) + fs.countP (·.isRemovalOf qs) ≤ fs.countP isRemoval := by
  induction fs using List.reverseRecOn with
  | nil => exact Nat.le_refl 0
  | append_singleton fs f ih =>
      have hone : (f.isRemovalOf ps).toNat + (f.isRemovalOf qs).toNat ≤ f.isRemoval.toNat := by
        rw [isRemovalOf, isRemovalOf]
        cases f.isRemoval with
        | false => exact Nat.le_refl 0
        | true =>
            by_cases hp : (f.execution.ticket, f.execution.request) ∈ ps
            · have hq : (f.execution.ticket, f.execution.request) ∉ qs := fun hq => h hp hq
              simp [hp, hq]
            · simp [hp, Bool.toNat_le]
      rw [countP_concat, countP_concat, countP_concat]
      omega

end Finding

namespace Node

/-- Whether a deletion of a key is sure to find an entry if it is submitted now. -/
def Sure (n : Node) (key : String) : Prop :=
  n.shard.store[key]? ≠ none ∧ ∀ p ∈ n.shard.queue, p.2.key = key → p.2.command.isPut = true

instance (n : Node) (key : String) : Decidable (n.Sure key) :=
  inferInstanceAs (Decidable (_ ∧ _))

/-- The deletions of the sweeps that were taken into the queue when something held of the key. -/
def sweptWhen (holds : Node → String → Bool) : Node → List Act → List (Nat × Request)
  | _, [] => []
  | n, a :: acts =>
    (swept (n.records a)).filter (fun p => holds n p.2.key) ++ sweptWhen holds (n.act a) acts

def sure : Node → List Act → List (Nat × Request) := sweptWhen fun n key => n.Sure key

def unsure : Node → List Act → List (Nat × Request) := sweptWhen fun n key => !n.Sure key

theorem sweptWhen_concat (holds : Node → String → Bool) (n : Node) (acts : List Act) (a : Act) :
    n.sweptWhen holds (acts ++ [a]) = n.sweptWhen holds acts ++
      (swept ((n.run acts).records a)).filter fun p => holds (n.run acts) p.2.key := by
  induction acts generalizing n with
  | nil => exact List.append_nil _
  | cons b acts ih =>
      rw [List.cons_append, sweptWhen, sweptWhen, ih, List.append_assoc]
      rfl

theorem sure_append_unsure (n : Node) (acts : List Act) :
    (n.sure acts ++ n.unsure acts).Perm (swept (n.journal acts)) := by
  induction acts generalizing n with
  | nil => exact .nil
  | cons a acts ih =>
      have hhere := List.filter_append_perm (fun p => decide (n.Sure p.2.key))
        (swept (n.records a))
      rw [journal, swept_append]
      refine List.Perm.trans ?_ (hhere.append (ih (n.act a)))
      rw [sure, unsure, sweptWhen, sweptWhen, List.append_assoc, List.append_assoc]
      apply List.Perm.append_left
      rw [← List.append_assoc, ← List.append_assoc]
      exact List.perm_append_comm.append_right _

variable {n n' : Node} {a : Act} {rs j : Journal} {fs : List Finding}
  {promised : List (Nat × Request)}

/-! ## Deletions that wait -/

/-- Those of some deletions that wait have entries, and no read or deletion of the key ahead; the
others have taken entries away. -/
structure Backed (n : Node) (fs : List Finding) (promised : List (Nat × Request)) : Prop where
  deletes : ∀ p ∈ promised, p.2.command = .delete ∧ p.1 < n.shard.tickets
  stored : ∀ p ∈ n.shard.queue, p ∈ promised → n.shard.store[p.2.key]? ≠ none
  alone : n.shard.queue.Pairwise fun p q =>
    q ∈ promised → p.2.key = q.2.key → p.2.command.isPut = true
  counted : promised.length ≤
    fs.countP (·.isRemovalOf promised) + n.shard.queue.countP (· ∈ promised)

/-- Deletions that wait are of different keys. -/
theorem Backed.length_le (hn : n.Backed fs promised) :
    promised.length ≤ fs.countP (·.isRemovalOf promised) + n.shard.store.size := by
  have hwaiting : (n.shard.queue.filter (· ∈ promised)).map (·.2.key) ⊆ n.shard.store.keys := by
    intro key hkey
    obtain ⟨p, hp, rfl⟩ := List.mem_map.mp hkey
    obtain ⟨hqueue, hsure⟩ := List.mem_filter.mp hp
    exact mem_keys_iff.mpr (hn.stored p hqueue (by simpa using hsure))
  have hnodup : ((n.shard.queue.filter (· ∈ promised)).map (·.2.key)).Nodup := by
    rw [List.Nodup, List.pairwise_map, List.pairwise_filter]
    refine hn.alone.imp fun hput hp hq hkey => ?_
    have hdelete := (hn.deletes _ (by simpa using hp)).1
    have hput := hput (by simpa using hq) hkey
    rw [hdelete] at hput
    cases hput
  have hle := (List.subperm_of_subset hnodup hwaiting).length_le
  rw [List.length_map, ExtTreeMap.length_keys, ← List.countP_eq_length_filter] at hle
  exact Nat.le_trans hn.counted (Nat.add_le_add_left hle _)

/-- Requests for keys of other nodes leave the queue, others come in. -/
theorem Backed.frame (hn : n.Backed fs promised) {taken more : List (Nat × Request)}
    (hown : ∀ key, n.shard.store[key]? ≠ none → n.shard.ring.isLocal key = true)
    (hqueue : taken ++ n'.shard.queue = n.shard.queue ++ more)
    (hforeign : ∀ p ∈ taken, n.shard.ring.isLocal p.2.key = false)
    (hmore : ∀ p ∈ more, n.shard.tickets ≤ p.1) (htickets : n.shard.tickets ≤ n'.shard.tickets)
    (hstore : n'.shard.store = n.shard.store) : n'.Backed fs promised := by
  -- What comes in has later tickets, and what leaves is not for this node, whose keys are stored.
  have hnew : ∀ p ∈ more, p ∉ promised := by
    intro p hp hsure
    have hgiven := (hn.deletes p hsure).2
    have hlater := hmore p hp
    omega
  have hold : ∀ p ∈ taken ++ n'.shard.queue, p ∈ promised → p ∈ n.shard.queue := by
    intro p hp hsure
    rw [hqueue] at hp
    exact (List.mem_append.mp hp).resolve_right fun hlate => hnew p hlate hsure
  have hleft : ∀ p ∈ taken, p ∉ promised := by
    intro p hp hsure
    have hlocal := hown _ (hn.stored p (hold p (List.mem_append_left _ hp) hsure) hsure)
    rw [hforeign p hp] at hlocal
    cases hlocal
  have hall : (taken ++ n'.shard.queue).Pairwise fun p q =>
      q ∈ promised → p.2.key = q.2.key → p.2.command.isPut = true := by
    rw [hqueue, List.pairwise_append]
    refine ⟨hn.alone, ?_, fun p _ q hq hsure => absurd hsure (hnew q hq)⟩
    exact List.pairwise_of_forall_mem_list fun p _ q hq hsure => absurd hsure (hnew q hq)
  constructor
  · exact fun p hp => (hn.deletes p hp).imp_right fun hlt => Nat.lt_of_lt_of_le hlt htickets
  · intro p hp hsure
    rw [hstore]
    exact hn.stored p (hold p (List.mem_append_right _ hp) hsure) hsure
  · exact (List.pairwise_append.mp hall).2.1
  · have hcount := congrArg (List.countP (· ∈ promised)) hqueue
    have htaken : taken.countP (· ∈ promised) = 0 := by
      rw [List.countP_eq_zero]
      exact fun p hp => by simpa using hleft p hp
    have hmany : more.countP (· ∈ promised) = 0 := by
      rw [List.countP_eq_zero]
      exact fun p hp => by simpa using hnew p hp
    rw [List.countP_append, List.countP_append, htaken, hmany, Nat.zero_add, Nat.add_zero] at hcount
    rw [hcount]
    exact hn.counted

theorem Backed.join (hn : n.Backed fs promised) {key : String} (hsure : n.Sure key)
    (hqueue : n'.shard.queue = n.shard.queue ++ [(n.shard.tickets, ⟨key, .delete⟩)])
    (htickets : n'.shard.tickets = n.shard.tickets + 1)
    (hstore : n'.shard.store = n.shard.store) :
    n'.Backed fs (promised ++ [(n.shard.tickets, ⟨key, .delete⟩)]) := by
  have hcases : ∀ {p}, p ∈ promised ++ [(n.shard.tickets, (⟨key, .delete⟩ : Request))] →
      p ∈ promised ∨ p = (n.shard.tickets, ⟨key, .delete⟩) := by
    intro p hp
    simpa using hp
  constructor
  · intro p hp
    rw [htickets]
    rcases hcases hp with hp | rfl
    · exact (hn.deletes p hp).imp_right Nat.lt_succ_of_lt
    · exact ⟨rfl, Nat.lt_succ_self _⟩
  · intro p hp hmem
    rw [hstore]
    rcases hcases hmem with hmem | rfl
    · rw [hqueue, List.mem_append, List.mem_singleton] at hp
      rcases hp with hp | rfl
      · exact hn.stored p hp hmem
      · exact hsure.1
    · exact hsure.1
  · rw [hqueue, List.pairwise_append]
    refine ⟨hn.alone.imp_of_mem fun {p q} hp _ hput hmem hkey => ?_, List.pairwise_singleton _ _,
      fun p hp q hq _ hkey => ?_⟩
    · rcases hcases hmem with hmem | rfl
      · exact hput hmem hkey
      · exact hsure.2 p hp hkey
    · rw [List.mem_singleton.mp hq] at hkey
      exact hsure.2 p hp hkey
  · have hwaiting : n.shard.queue.countP (· ∈ promised) ≤ n.shard.queue.countP
        (· ∈ promised ++ [(n.shard.tickets, (⟨key, .delete⟩ : Request))]) := by
      apply List.countP_mono_left
      intro p _ hp
      exact decide_eq_true (List.mem_append_left _ (of_decide_eq_true hp))
    have hfound := Finding.countP_isRemovalOf_le fs
      (List.subset_append_left promised [(n.shard.tickets, (⟨key, .delete⟩ : Request))])
    have hcounted := hn.counted
    rw [hqueue, countP_concat, List.length_append, decide_eq_true
      (List.mem_append_right promised (List.mem_singleton_self _))]
    simp only [Bool.toNat_true, List.length_singleton]
    omega

theorem Backed.finds (hn : n.Backed fs promised) {x : Execution} {rest : List (Nat × Request)}
    (hqueue : n.shard.queue = (x.ticket, x.request) :: rest)
    (hsure : (x.ticket, x.request) ∈ promised) :
    (n.shard.store.finding x).isRemoval = true := by
  have hdelete := (hn.deletes _ hsure).1
  have hstored := hn.stored _ (hqueue ▸ List.mem_cons_self) hsure
  rw [Finding.isRemoval, Store.finding_command, Bool.and_eq_true, Command.isDelete_iff]
  exact ⟨hdelete, Option.isSome_iff_ne_none.mpr hstored⟩

theorem Backed.execute (hn : n.Backed fs promised) {x : Execution} {rest : List (Nat × Request)}
    (hqueue : n.shard.queue = (x.ticket, x.request) :: rest)
    (hshard : n'.shard =
      Shard.execute { n.shard with queue := rest } x.now x.ticket x.request) :
    n'.Backed (fs ++ [n.shard.store.finding x]) promised := by
  have halone := hn.alone
  have hcounted := hn.counted
  rw [hqueue, List.pairwise_cons] at halone
  have hrest : n'.shard.queue = rest := by rw [hshard, Shard.execute_queue]
  constructor
  · rw [hshard, Shard.execute_tickets]
    exact hn.deletes
  · intro p hp hsure
    rw [hrest] at hp
    rw [hshard, Shard.lookup_execute]
    by_cases hkey : p.2.key = x.request.key
    · -- What is executed now was ahead of the deletion, so it is a put.
      have hput := halone.1 p hp hsure hkey.symm
      rw [if_pos hkey]
      cases hcommand : x.request.command with
      | put value ttl => exact Option.some_ne_none _
      | _ => rw [hcommand] at hput; cases hput
    · rw [if_neg hkey]
      exact hn.stored p (hqueue ▸ List.mem_cons_of_mem _ hp) hsure
  · rw [hrest]
    exact halone.2
  · rw [hrest, countP_concat]
    rw [hqueue] at hcounted
    by_cases hsure : (x.ticket, x.request) ∈ promised
    · rw [List.countP_cons_of_pos (by simpa using hsure)] at hcounted
      rw [Finding.isRemovalOf, hn.finds hqueue hsure, Store.finding_execution,
        decide_eq_true hsure]
      simp only [Bool.and_self, Bool.toNat_true]
      omega
    · rw [List.countP_cons_of_neg (by simpa using hsure)] at hcounted
      omega

theorem Backed.sweep (hn : n.Backed fs promised) {key : String}
    (hown : ∀ key, n.shard.store[key]? ≠ none → n.shard.ring.isLocal key = true)
    (hqueue : n'.shard.queue = n.shard.queue ++ [(n.shard.tickets, ⟨key, .delete⟩)])
    (htickets : n'.shard.tickets = n.shard.tickets + 1)
    (hstore : n'.shard.store = n.shard.store) :
    n'.Backed fs (promised ++ [(n.shard.tickets, (⟨key, .delete⟩ : Request))].filter fun p =>
      n.Sure p.2.key) := by
  by_cases hsure : n.Sure key
  · rw [List.filter_cons_of_pos (by simpa using hsure), List.filter_nil]
    exact hn.join hsure hqueue htickets hstore
  · rw [List.filter_cons_of_neg (by simpa using hsure), List.filter_nil, List.append_nil]
    apply hn.frame hown ((List.nil_append _).trans hqueue) _ _ _ hstore
    · exact fun p hp => absurd hp List.not_mem_nil
    · exact fun p hp => Nat.le_of_eq (by rw [List.mem_singleton.mp hp])
    · rw [htickets]
      exact Nat.le_succ _

theorem Backed.step (hn : n.Backed fs promised)
    (hown : ∀ key, n.shard.store[key]? ≠ none → n.shard.ring.isLocal key = true)
    (h : n.Step a rs n') (halive : n'.shard.alive = true) :
    n'.Backed (fs ++ (executed rs).map n.shard.store.finding)
      (promised ++ (swept rs).filter fun p => n.Sure p.2.key) := by
  have hdeed := h.deed
  cases hdeed with
  | execute now ticket r rest hqueue hlocal =>
      rw [executed_execution, swept_execution, List.filter_nil, List.append_nil]
      exact hn.execute (x := ⟨now, ticket, r⟩) hqueue rfl
  | expire key keeper hnone =>
      rw [executed_accepted, List.map_nil, List.append_nil]
      exact hn.sweep hown rfl rfl rfl
  | evict key keeper hnone =>
      rw [executed_accepted, List.map_nil, List.append_nil]
      exact hn.sweep hown rfl rfl rfl
  | other rs n' hexecuted hoffered hswept hcounters hsize hstore =>
      rw [hexecuted, List.map_nil, List.append_nil, hswept, List.filter_nil, List.append_nil]
      obtain ⟨htickets, haccepted⟩ := h.tickets_of_accepted
      exact hn.frame hown (h.queue_eq halive) (h.foreign_of_taken hexecuted) haccepted htickets
        (hstore halive).2

/-! ## Deletions accepted and entries taken away -/

/-- Of the deletions that were sure to find an entry every one has removed one or will, and when
the worker has died its entry was among the last. -/
structure Kept (n : Node) (fs : List Finding) (promised : List (Nat × Request)) : Prop where
  backed : n.shard.alive = true → n.Backed fs promised
  length_le : promised.length ≤ fs.countP (·.isRemovalOf promised) + n.shard.size
  finds : ∀ f ∈ fs, (f.execution.ticket, f.execution.request) ∈ promised → f.isRemoval = true

theorem Orderly.ticket_lt (h : n.Orderly j) {x : Execution} (hx : x ∈ executed j) :
    x.ticket < n.shard.tickets := by
  have hmem := h.order.subset (List.mem_append_left _ (mem_taken_of_executed j hx))
  rw [← List.mem_range, ← h.tickets]
  exact List.mem_map_of_mem hmem

theorem Kept.step (hn : n.Kept fs promised) (horderly : n.Orderly j)
    (hfs : ∀ f ∈ fs, f.execution ∈ executed j) (hsize : n'.shard.alive = true →
      n'.shard.size = n'.shard.store.size)
    (hown : ∀ key, n.shard.store[key]? ≠ none → n.shard.ring.isLocal key = true)
    (h : n.Step a rs n') :
    n'.Kept (fs ++ (executed rs).map n.shard.store.finding)
      (promised ++ (swept rs).filter fun p => n.Sure p.2.key) := by
  have hbacked := fun halive => (hn.backed (h.alive halive)).step hown h halive
  refine ⟨hbacked, ?_, ?_⟩
  · cases halive : n'.shard.alive with
    | true =>
        rw [hsize halive]
        exact (hbacked halive).length_le
    | false =>
        obtain ⟨hexecuted, hswept, hsame⟩ := h.deed.of_dead horderly halive
        rw [hexecuted, List.map_nil, List.append_nil, hswept, List.filter_nil, List.append_nil,
          hsame]
        exact hn.length_le
  · intro f hf hsure
    rcases List.mem_append.mp hf with hf | hf
    · -- What was executed before has another ticket than what is submitted now.
      rcases List.mem_append.mp hsure with hsure | hnew
      · exact hn.finds f hf hsure
      · have hgiven := horderly.ticket_lt (hfs f hf)
        have hlate := h.tickets_of_accepted.2 _
          ((swept_sublist_accepted rs).subset (List.mem_of_mem_filter hnew))
        simp only at hlate
        omega
    · obtain ⟨x, hx, rfl⟩ := List.mem_map.mp hf
      obtain ⟨hswept, rest, hqueue⟩ := h.deed.of_mem_executed hx
      rw [hswept, List.filter_nil, List.append_nil] at hsure
      have halive := horderly.alive_of_queue (hqueue ▸ List.mem_cons_self)
      exact (hn.backed halive).finds hqueue hsure

theorem isLocal_of_stored (settings : Settings) (ring : Ring) (senders pollMs : Nat)
    {acts : List Act} (hkeeps : ∀ a ∈ acts, a.keepsMembers = true) {key : String}
    (hstored : ((make settings ring senders pollMs).run acts).shard.store[key]? ≠ none) :
    ((make settings ring senders pollMs).run acts).shard.ring.isLocal key = true := by
  obtain ⟨_, htraced⟩ := traced_run settings ring senders pollMs acts
  by_contra hforeign
  obtain ⟨before, a, after, hacts, _, _, b, hb, hmoves⟩ :=
    movedSincePut_of_foreign (htraced.stored key hstored) (by simpa using hforeign)
  have hkept := hkeeps b (by rw [hacts]; simp [hb])
  rw [hmoves] at hkept
  cases hkept

theorem kept_run (settings : Settings) (ring : Ring) (senders pollMs : Nat) {acts : List Act}
    (hkeeps : ∀ a ∈ acts, a.keepsMembers = true) :
    ((make settings ring senders pollMs).run acts).Kept
      ((make settings ring senders pollMs).findings acts)
      ((make settings ring senders pollMs).sure acts) := by
  induction acts using List.reverseRecOn with
  | nil =>
      refine ⟨fun _ => ⟨fun p hp => ?_, fun p hp => ?_, .nil, Nat.le_refl _⟩, Nat.le_refl _,
        fun f hf => ?_⟩
      · cases hp
      · cases hp
      · cases hf
  | append_singleton acts a ih =>
      have hbefore : ∀ b ∈ acts, b.keepsMembers = true := fun b hb => hkeeps b (by simp [hb])
      have hsize := (balance_run settings ring senders pollMs (acts ++ [a])).size
      rw [run_concat] at hsize ⊢
      rw [findings_concat, sure, sweptWhen_concat]
      apply (ih hbefore).step (orderly_run settings ring senders pollMs acts).1 _ hsize
        (fun key => isLocal_of_stored settings ring senders pollMs hbefore) (step_act _ a)
      intro f hf
      rw [← map_execution_findings]
      exact List.mem_map_of_mem hf

/-! ## Why a deletion may find nothing -/

/-- The sweeps submit deletions of keys that the keeper knows. -/
theorem Step.known_of_swept (h : n.Step a rs n') (hk : n.keeper.Sound) {p : Nat × Request}
    (hp : p ∈ swept rs) : n.shard.alive = true ∧
      (n.keeper.policy.tracks p.2.key = true ∨ n.keeper.indexed p.2.key ≠ none) := by
  have haccepted := (swept_sublist_accepted rs).subset hp
  refine ⟨?_, ?_⟩
  · by_contra hdead
    rw [h.accepted_of_dead (by simpa using hdead)] at haccepted
    cases haccepted
  · cases h with
    | turn now fatal records shard hturn =>
        rw [hturn.queue.2.1] at haccepted
        cases haccepted
    | handOn now ticket call shard records hturn =>
        rw [hturn.queue.2.1] at haccepted
        cases haccepted
    | perish now ticket call shard records hturn =>
        rw [hturn.queue.2.1] at haccepted
        cases haccepted
    | move listing clock records shard keeper hmove =>
        obtain ⟨origin, _, hmem⟩ := exists_accepted_of_swept hp
        exact (hmove.issued hk hmem).2
    | _ => cases hp

/-- A read or a deletion of the key waits, or the last that happened to the key is that its entry
was taken away, and the keeper has not heard of it or never will. -/
def Unheeded (n : Node) (j : Journal) (key : String) : Prop :=
  (∃ p ∈ n.shard.queue, p.2.key = key ∧ p.2.command.isPut = false) ∨
    ⟨key, .delete⟩ ∈ n.shard.events.waiting ∨ lastChange j key = some (.delete, .full)

theorem Agrees.unheeded {key : String} (hj : n.Agrees j key)
    (hopen : ∀ p ∈ offered j, p.2 ≠ .closed)
    (hknown : n.keeper.policy.tracks key = true ∨ n.keeper.indexed key ≠ none)
    (hunsure : ¬ n.Sure key) : n.Unheeded j key := by
  by_cases hahead : ∃ p ∈ n.shard.queue, p.2.key = key ∧ p.2.command.isPut = false
  · exact Or.inl hahead
  have hnone : n.shard.store[key]? = none := by
    by_contra hstored
    refine hunsure ⟨hstored, fun p hp hkey => ?_⟩
    by_contra hput
    exact hahead ⟨p, hp, hkey, by simpa using hput⟩
  right
  rcases hlast : lastChange j key with _ | ⟨c, o⟩
  · obtain ⟨_, _, htracks, hindexed⟩ := hj.silent hlast
    simp [htracks, hindexed] at hknown
  obtain ⟨hslot, rfl | ⟨entry, rfl⟩⟩ := hj.told c o hlast
  · cases o with
    | full => exact Or.inr rfl
    | closed =>
        obtain ⟨e, he⟩ := mem_offered_of_lastChange hlast
        exact absurd rfl (hopen _ he)
    | accepted =>
        obtain ⟨reads, _, _, ⟨before, hwaits⟩ | ⟨_, hbooked | ⟨ticket, hticket⟩⟩⟩ :=
          hj.booked _ hlast
        · have hmem : ⟨key, .delete⟩ ∈ n.waitingOf key := by simp [hwaits]
          exact Or.inl (List.mem_of_mem_filter hmem)
        · obtain ⟨htracks, hindexed⟩ := hbooked
          simp [htracks, hindexed, hnone] at hknown
        · exact absurd ⟨_, hticket, rfl, rfl⟩ hahead
  · rw [hnone] at hslot
    cases hslot

theorem unheeded_of_swept (settings : Settings) (ring : Ring) (senders pollMs : Nat)
    {acts : List Act} (hsteady : Steady acts) {p : Nat × Request}
    (hp : p ∈ swept (((make settings ring senders pollMs).run acts).records a))
    (hunsure : ¬ ((make settings ring senders pollMs).run acts).Sure p.2.key) :
    ((make settings ring senders pollMs).run acts).Unheeded
      ((make settings ring senders pollMs).journal acts) p.2.key := by
  have hstep := step_act ((make settings ring senders pollMs).run acts) a
  obtain ⟨hk, _⟩ := traced_run settings ring senders pollMs acts
  obtain ⟨halive, hknown⟩ := hstep.known_of_swept hk hp
  obtain ⟨_, hopen, _⟩ := told_run settings ring senders pollMs hsteady
  exact (agrees_run settings ring senders pollMs hsteady p.2.key halive).2.unheeded hopen hknown
    hunsure

/-! ## The whole of it -/

/-- The tickets of the requests that are counted as expirations and evictions. -/
def counted (n : Node) (acts : List Act) : List Nat :=
  ((n.findings acts).filter Finding.isLapse).map (·.execution.ticket) ++
    (swept (n.journal acts)).map (·.1)

theorem length_counted (settings : Settings) (ring : Ring) (senders pollMs : Nat)
    (acts : List Act) :
    ((make settings ring senders pollMs).run acts).shard.counters.evictions +
      ((make settings ring senders pollMs).run acts).shard.counters.expirations =
        ((make settings ring senders pollMs).counted acts).length := by
  have hbalance := balance_run settings ring senders pollMs acts
  rw [counted, List.length_append, List.length_map, List.length_map, length_swept,
    ← List.countP_eq_length_filter, hbalance.evictions, hbalance.expirations]
  omega

theorem nodup_counted (settings : Settings) (ring : Ring) (senders pollMs : Nat)
    (acts : List Act) : ((make settings ring senders pollMs).counted acts).Nodup := by
  obtain ⟨horderly, _⟩ := orderly_run settings ring senders pollMs acts
  obtain ⟨_, htraced⟩ := traced_run settings ring senders pollMs acts
  have hexecutions := map_execution_findings (make settings ring senders pollMs) acts
  rw [counted]
  generalize (make settings ring senders pollMs).findings acts = fs at *
  generalize (make settings ring senders pollMs).journal acts = j at *
  have hnodup : ((accepted j).map (·.1)).Nodup := by
    rw [horderly.tickets]
    exact List.nodup_range
  have haccepted : ∀ f ∈ fs,
      (f.execution.ticket, f.execution.request) ∈ accepted j := by
    intro f hf
    apply horderly.order.subset
    apply List.mem_append_left
    apply mem_taken_of_executed
    rw [← hexecutions]
    exact List.mem_map_of_mem hf
  have hlapses : List.Sublist ((fs.filter Finding.isLapse).map (·.execution.ticket))
      ((accepted j).map (·.1)) := by
    have htaken := (executed_sublist_taken j).map Prod.fst
    rw [← hexecutions, List.map_map, List.map_map] at htaken
    apply (List.filter_sublist.map _).trans
    exact htaken.trans (((List.prefix_append _ _).trans horderly.order).sublist.map _)
  rw [List.nodup_append]
  refine ⟨hlapses.nodup hnodup, ((swept_sublist_accepted j).map _).nodup hnodup, ?_⟩
  rintro t hlapse _ hswept rfl
  obtain ⟨f, hf, rfl⟩ := List.mem_map.mp hlapse
  obtain ⟨p, hp, hticket⟩ := List.mem_map.mp hswept
  obtain ⟨hf, hlapsed⟩ := List.mem_filter.mp hf
  -- One is a read and the other a deletion.
  have hsame := List.inj_on_of_nodup_map hnodup ((swept_sublist_accepted j).subset hp)
    (haccepted f hf) hticket
  obtain ⟨origin, horigin, hmem⟩ := exists_accepted_of_swept hp
  have hdelete := (htraced.issued origin p.1 p.2 hmem horigin).1
  rw [hsame] at hdelete
  rw [Finding.isLapse, Finding.command, hdelete] at hlapsed
  cases hlapsed

/-- What the expirations and the evictions that a node has counted stand for. -/
structure SweptEntries (start : Node) (acts : List Act) : Prop where
  /-- Each stands for a request of its own: a read that has found its entry expired, or a deletion
  of a sweep that was accepted. -/
  counted : (start.run acts).shard.counters.evictions +
    (start.run acts).shard.counters.expirations = (start.counted acts).length
  different : (start.counted acts).Nodup
  split : (start.sure acts ++ start.unsure acts).Perm (swept (start.journal acts))
  /-- The entries that reads have found expired and that deletions have found were made by
  different puts. -/
  sources : ∃ sources : List Execution, sources.Nodup ∧ sources ⊆ executed (start.journal acts) ∧
    List.Forall₂ Finding.ComesFrom ((start.findings acts).filter Finding.takes) sources
  finds : ∀ f ∈ start.findings acts,
    (f.execution.ticket, f.execution.request) ∈ start.sure acts → f.isRemoval = true
  waits : (start.run acts).shard.alive = true → ∀ p ∈ (start.run acts).shard.queue,
    p ∈ start.sure acts → (start.run acts).shard.store[p.2.key]? ≠ none
  /-- There are no more expirations and evictions than puts, but for the deletions that were not
  sure to find an entry and have not found one. -/
  bound : (start.run acts).shard.counters.evictions +
      (start.run acts).shard.counters.expirations +
      (start.findings acts).countP (·.isRemovalOf (start.unsure acts)) ≤
    (start.run acts).shard.counters.puts + (start.unsure acts).length
  /-- While the keeper goes on hearing events, a deletion is unsure for one of three reasons. -/
  reason : ∀ before a after, acts = before ++ a :: after → Steady before →
    ∀ p ∈ swept ((start.run before).records a), ¬ (start.run before).Sure p.2.key →
    (start.run before).Unheeded (start.journal before) p.2.key

theorem swept_entries_run (settings : Settings) (ring : Ring) (senders pollMs : Nat)
    (acts : List Act) (hkeeps : ∀ a ∈ acts, a.keepsMembers = true) :
    SweptEntries (make settings ring senders pollMs) acts := by
  have hbalance := balance_run settings ring senders pollMs acts
  have hkept := kept_run settings ring senders pollMs hkeeps
  obtain ⟨sources, hsources⟩ := sourced_run settings ring senders pollMs acts
  have hsplit := sure_append_unsure (make settings ring senders pollMs) acts
  have hsweeps := length_swept ((make settings ring senders pollMs).journal acts)
  have hdifferent := nodup_counted settings ring senders pollMs acts
  refine
    { counted := length_counted settings ring senders pollMs acts
      different := hdifferent
      split := hsplit
      sources := ⟨sources, hsources.nodup, hsources.executed, hsources.taken⟩
      finds := hkept.finds
      waits := fun halive => (hkept.backed halive).stored
      bound := ?_
      reason := fun before a after _ hsteady p hp hunsure =>
        unheeded_of_swept settings ring senders pollMs hsteady hp hunsure }
  have htickets := (hsplit.map (·.1)).nodup_iff.mpr (List.nodup_append.mp hdifferent).2.1
  have hfound := Finding.countP_isRemovalOf_add_le
    ((make settings ring senders pollMs).findings acts)
    (List.disjoint_of_nodup_append (List.Nodup.of_map _ htickets))
  have hlength := hsplit.length_eq
  have hle := hkept.length_le
  have hentries := hbalance.entries
  rw [List.length_append] at hlength
  rw [hbalance.evictions, hbalance.expirations, hbalance.puts]
  omega

/-- A key is read in time and too late, of which the keeper does not hear, and the sweep after five
seconds has it deleted once more. -/
def readAndSweep : List Act :=
  putAndPass ++ [.submit ⟨"k", .get⟩, .work 0 false, .submit ⟨"k", .get⟩, .work 5 false,
    .begin ⟨5, 0⟩] ++ stepsAtFive 4 ++ [.work 5 false]

theorem swept_entries_of_read :
    let n := make { eventCapacity := 1 } (Ring.empty "n" 1) 1 0
    (n.run readAndSweep).shard.counters.expirations = 2 ∧ n.sure readAndSweep = [] ∧
      n.unsure readAndSweep = [(3, ⟨"k", .delete⟩)] ∧ SweptEntries n readAndSweep :=
  ⟨by decide +kernel, by decide +kernel, by decide +kernel,
    swept_entries_run { eventCapacity := 1 } (Ring.empty "n" 1) 1 0 readAndSweep (by decide)⟩

/-- More expirations and evictions are counted than entries were put. -/
def Overcounts (start : Node) (acts : List Act) : Prop :=
  Steady acts ∧ (start.run acts).shard.counters.puts <
    (start.run acts).shard.counters.evictions + (start.run acts).shard.counters.expirations

/-- An entry is counted twice when the event of its expiration is lost, and when it waits, and when
the read that will find it expired waits. -/
theorem sweep_counts_twice :
    Overcounts (make { eventCapacity := 1 } (Ring.empty "n" 1) 1 0) readAndSweep ∧
    Overcounts (make {} (Ring.empty "n" 1) 1 0)
      (putAndPass ++ [.begin ⟨5, 0⟩] ++ stepsAtFive 2 ++ [.submit ⟨"k", .get⟩, .work 5 false] ++
        stepsAtFive 1) ∧
    Overcounts (make {} (Ring.empty "n" 1) 1 0)
      (putAndPass ++ [.submit ⟨"k", .get⟩, .begin ⟨5, 0⟩] ++ stepsAtFive 3 ++
        [.work 5 false]) := by
  refine ⟨⟨?_, ?_⟩, ⟨?_, ?_⟩, ?_, ?_⟩
  all_goals decide +kernel

end Node

end ClusterCache
