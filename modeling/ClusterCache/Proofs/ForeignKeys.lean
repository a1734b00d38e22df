import ClusterCache.Proofs.OwnKeys
import ClusterCache.Proofs.Replies
import ClusterCache.Proofs.Ring.Members

/-!
# Requests for keys of others

A request for a key that the node does not own goes past it: one call to the owner of the key, if
its address is known, and nothing else.  The caller gets what comes back from the owner, and as
long as the membership is fixed nothing but keys of its own gets into the store of a node or into
the events it tells.
-/

namespace ClusterCache

/-- A shard that a request has gone past.  The store is as it was unless the worker has died. -/
structure Shard.PassedBy (s s' : Shard) : Prop where
  counters : s'.counters = s.counters
  size : s'.size = s.size
  waiting : s'.events.waiting = s.events.waiting
  store : s'.alive = true → s'.store = s.store
  events : s'.alive = true → s'.events = s.events

namespace Node

open Journal

variable {n n' start : Node} {a : Act} {rs j : Journal} {acts : List Act}

/-! ## The calls of a run -/

/-- The calls to other nodes that an act makes, with the tickets that wait for them. -/
def calls (n : Node) : Act → List (Nat × Call)
  | .work now _ => (n.shard.work now).2.toList
  | _ => []

def callLog : Node → List Act → List (Nat × Call)
  | _, [] => []
  | n, a :: acts => n.calls a ++ callLog (n.act a) acts

theorem callLog_append (n : Node) (as bs : List Act) :
    n.callLog (as ++ bs) = n.callLog as ++ (n.run as).callLog bs := by
  induction as generalizing n with
  | nil => rfl
  | cons a as ih =>
      rw [List.cons_append, callLog, callLog, ih, List.append_assoc]
      rfl

theorem taken_of_calls {p : Nat × Call} (hp : p ∈ n.calls a) :
    (p.1, p.2.request) ∈ taken (n.records a) := by
  cases a with
  | work now fatal =>
      have hturn := Shard.turn_work n.shard now
      obtain ⟨ticket, call⟩ := p
      simp only [calls, Option.mem_toList] at hp
      rcases hwork : n.shard.work now with ⟨shard, handed⟩
      rw [hwork] at hturn hp
      obtain rfl : handed = some (ticket, call) := hp
      simp only [records]
      generalize Record.ofWork n.shard now = rs at hturn
      cases hturn with
      | handOn ticket r rest address hqueue hforeign haddress => simp [taken, Record.taken?]
  | _ => cases hp

theorem taken_of_callLog {p : Nat × Call} (hp : p ∈ n.callLog acts) :
    (p.1, p.2.request) ∈ taken (n.journal acts) := by
  induction acts generalizing n with
  | nil => cases hp
  | cons a acts ih =>
      rw [journal, taken_append]
      rcases List.mem_append.mp hp with hp | hp
      · exact List.mem_append_left _ (taken_of_calls hp)
      · exact List.mem_append_right _ (ih hp)

/-- The calls for a ticket are those of the act that takes the request out of the queue. -/
theorem callLog_of_ticket {before after : List Act} {p : Nat × Request}
    (hnodup : ((taken (n.journal (before ++ a :: after))).map (·.1)).Nodup)
    (htaken : p ∈ taken ((n.run before).records a)) :
    (n.callLog (before ++ a :: after)).filter (·.1 = p.1) =
      ((n.run before).calls a).filter (·.1 = p.1) := by
  rw [journal_append, journal, taken_append, taken_append, List.map_append, List.map_append,
    List.nodup_append, List.nodup_append] at hnodup
  obtain ⟨_, ⟨_, _, hlater⟩, hearlier⟩ := hnodup
  have hticket : p.1 ∈ (taken ((n.run before).records a)).map (·.1) := List.mem_map_of_mem htaken
  have hbefore : (n.callLog before).filter (·.1 = p.1) = [] := by
    rw [List.filter_eq_nil_iff]
    intro q hq
    have hmem : q.1 ∈ (taken (n.journal before)).map (·.1) :=
      List.mem_map_of_mem (taken_of_callLog hq)
    simpa using hearlier q.1 hmem p.1 (List.mem_append_left _ hticket)
  have hafter : (((n.run before).act a).callLog after).filter (·.1 = p.1) = [] := by
    rw [List.filter_eq_nil_iff]
    intro q hq
    have hmem : q.1 ∈ (taken (((n.run before).act a).journal after)).map (·.1) :=
      List.mem_map_of_mem (taken_of_callLog hq)
    simpa using (hlater p.1 hticket q.1 hmem).symm
  rw [callLog_append, callLog, List.filter_append, List.filter_append, hbefore, hafter,
    List.nil_append, List.append_nil]

/-! ## A turn at a key of somebody else -/

section Turn

variable {s : Shard} {now : UInt64} {fatal : Bool} {ticket : Nat} {r : Request}
  {rest : List (Nat × Request)}

theorem foreign_of_owner (h : s.ring.owner r.key ≠ s.ring.localId) :
    s.ring.isLocal r.key = false := by
  simpa [Ring.isLocal] using h

theorem taken_work (now : UInt64) (fatal : Bool) (hqueue : n.shard.queue = (ticket, r) :: rest)
    (hforeign : n.shard.ring.isLocal r.key = false) :
    taken (n.records (.work now fatal)) = [(ticket, r)] := by
  simp [records, Record.ofWork, hqueue, hforeign, taken, Record.taken?]

theorem passedBy_work (now : UInt64) (fatal : Bool)
    (hqueue : n.shard.queue = (ticket, r) :: rest)
    (hforeign : n.shard.ring.isLocal r.key = false) :
    n.shard.PassedBy (n.act (.work now fatal)).shard := by
  cases haddress : n.shard.ring.address? (n.shard.ring.owner r.key) with
  | none =>
      simp only [act, Shard.work_of_unknown hqueue hforeign haddress]
      exact ⟨rfl, rfl, rfl, fun _ => rfl, fun _ => rfl⟩
  | some address =>
      simp only [act, Shard.work_of_known hqueue hforeign haddress]
      cases fatal with
      | false => exact ⟨rfl, rfl, rfl, fun _ => rfl, fun _ => rfl⟩
      | true =>
          refine ⟨rfl, rfl, rfl, fun halive => ?_, fun halive => ?_⟩
          · cases halive
          · cases halive

end Turn

/-- The turn of the worker at a request for a key that the node does not own, in a run. -/
structure Meets (start : Node) (acts before : List Act) (now : UInt64) (fatal : Bool)
    (after : List Act) (ticket : Nat) (r : Request) : Prop where
  split : acts = before ++ .work now fatal :: after
  next : (start.run before).shard.queue.head? = some (ticket, r)
  foreign : (start.run before).shard.ring.owner r.key ≠ (start.run before).shard.ring.localId

section Meets

variable {before after : List Act} {now : UInt64} {fatal : Bool} {ticket : Nat} {r : Request}

theorem Meets.queue (h : start.Meets acts before now fatal after ticket r) :
    ∃ rest, (start.run before).shard.queue = (ticket, r) :: rest :=
  List.head?_eq_some_iff.mp h.next

theorem Meets.run_eq (h : start.Meets acts before now fatal after ticket r) :
    start.run acts = ((start.run before).act (.work now fatal)).run after := by
  rw [h.split, run_append]
  rfl

theorem Meets.callLog_eq (h : start.Meets acts before now fatal after ticket r)
    (hj : (start.run acts).Orderly (start.journal acts)) :
    (start.callLog acts).filter (·.1 = ticket) =
      ((start.run before).shard.work now).2.toList.filter (·.1 = ticket) := by
  obtain ⟨rest, hqueue⟩ := h.queue
  have htaken := taken_work now fatal hqueue (foreign_of_owner h.foreign)
  have hnodup := hj.nodup
  rw [List.map_append, List.nodup_append, h.split] at hnodup
  rw [h.split]
  exact callLog_of_ticket (p := (ticket, r)) hnodup.1 (by rw [htaken]; simp)

/-- The request is handed on, and what comes for it is what its caller gets. -/
theorem Meets.forwarded (h : start.Meets acts before now false after ticket r)
    (hj : (start.run before).Orderly (start.journal before)) (hn : (start.run before).Unanswered)
    {address : String} (haddress : (start.run before).shard.ring.address?
      ((start.run before).shard.ring.owner r.key) = some address) :
    (start.run acts).shard.replies[ticket]? = after.findSome? (Act.outcome? ticket) := by
  obtain ⟨rest, hqueue⟩ := h.queue
  have hstep := (start.run before).step_act (.work now false)
  rw [h.run_eq]
  refine reply_of_away (hn.step hj hstep) (hj.step hstep) ?_ after
  simp [act, Shard.work_of_known hqueue (foreign_of_owner h.foreign) haddress]

theorem Meets.unknown (h : start.Meets acts before now fatal after ticket r)
    (hj : (start.run before).Orderly (start.journal before)) (hn : (start.run before).Unanswered)
    (haddress : (start.run before).shard.ring.address?
      ((start.run before).shard.ring.owner r.key) = none) :
    (start.run acts).shard.replies[ticket]? =
      some (.failed (.addressUnknown ((start.run before).shard.ring.owner r.key))) := by
  obtain ⟨rest, hqueue⟩ := h.queue
  have hstep := (start.run before).step_act (.work now fatal)
  rw [h.run_eq]
  apply (hn.step hj hstep).reply_stays
  simp only [act, Shard.work_of_unknown hqueue (foreign_of_owner h.foreign) haddress]
  exact Std.ExtTreeMap.getElem?_insert_self

end Meets

/-! ## What is the node's own -/

/-- The worker tells of keys that the node owns. -/
theorem Step.offered_local (h : n.Step a rs n') {p : Event × Offer} (hp : p ∈ offered rs) :
    n.shard.ring.isLocal p.1.key = true := by
  have hturn : ∀ {now s' handed}, n.shard.Turn now rs (s', handed) →
      n.shard.ring.isLocal p.1.key = true := by
    intro now s' handed hturn
    cases hturn with
    | execute ticket r rest hqueue hlocal =>
        rw [offered_execution] at hp
        obtain ⟨c, _, rfl⟩ := Option.map_eq_some_iff.mp (Option.mem_toList.mp hp)
        exact hlocal
    | _ => cases hp
  cases h with
  | turn now fatal records shard h => exact hturn h
  | handOn now ticket call shard records h => exact hturn h
  | perish now ticket call shard records h => exact hturn h
  | move listing clock records shard keeper hmove =>
      rw [hmove.quiet.2.2] at hp
      cases hp
  | _ => cases hp

theorem offered_local_of_run (hkeeps : ∀ a ∈ acts, a.keepsMembers = true) {p : Event × Offer}
    (hp : p ∈ offered (n.journal acts)) : n.shard.ring.isLocal p.1.key = true := by
  induction acts generalizing n with
  | nil => cases hp
  | cons a acts ih =>
      obtain ⟨ha, hacts⟩ := List.forall_mem_cons.mp hkeeps
      have hstep := n.step_act a
      rw [journal, offered_append] at hp
      rcases List.mem_append.mp hp with hp | hp
      · exact hstep.offered_local hp
      · rw [← hstep.ring ha]
        exact ih hacts hp

theorem local_of_puts_run (hkeeps : ∀ a ∈ acts, a.keepsMembers = true) {key : String}
    (hputs : Puts (n.journal acts) key) : n.shard.ring.isLocal key = true := by
  induction acts generalizing n with
  | nil => exact absurd hputs (not_puts_of_executed_nil rfl key)
  | cons a acts ih =>
      obtain ⟨ha, hacts⟩ := List.forall_mem_cons.mp hkeeps
      have hstep := n.step_act a
      rw [← hstep.ring ha]
      rw [journal, puts_append] at hputs
      rcases hputs with hhere | hlater
      · exact hstep.isLocal_of_puts hhere
      · exact ih hacts hlater

/-! ## The whole of it -/

/-- What becomes of the requests of a run that are for keys of others. -/
structure PassesOn (start : Node) (acts : List Act) : Prop where
  untouched : ∀ before now fatal after ticket r, start.Meets acts before now fatal after ticket r →
    (start.run before).shard.PassedBy ((start.run before).act (.work now fatal)).shard
  /-- There is one call, and the reply is the first that comes for it, if the worker does not die
  of the call itself. -/
  forwarded : ∀ before now fatal after ticket r, start.Meets acts before now fatal after ticket r →
    ∀ address, (start.run before).shard.ring.members[
      (start.run before).shard.ring.owner r.key]? = some address → address ≠ "" →
    (start.callLog acts).filter (·.1 = ticket) = [(ticket, ⟨address, r⟩)] ∧
      (fatal = false →
        (start.run acts).shard.replies[ticket]? = after.findSome? (Act.outcome? ticket))
  unknown : ∀ before now fatal after ticket r, start.Meets acts before now fatal after ticket r →
    (∀ address, (start.run before).shard.ring.members[
      (start.run before).shard.ring.owner r.key]? = some address → address = "") →
    (start.callLog acts).filter (·.1 = ticket) = [] ∧
      (start.run acts).shard.replies[ticket]? =
        some (.failed (.addressUnknown ((start.run before).shard.ring.owner r.key)))
  stored_own : (∀ a ∈ acts, a.keepsMembers = true) → ∀ key,
    (start.run acts).shard.store[key]? ≠ none →
    start.shard.ring.owner key = start.shard.ring.localId
  told_own : (∀ a ∈ acts, a.keepsMembers = true) → ∀ p ∈ offered (start.journal acts),
    start.shard.ring.owner p.1.key = start.shard.ring.localId

theorem foreign_requests (settings : Settings) (ring : Ring) (senders pollMs : Nat)
    (acts : List Act) : (make settings ring senders pollMs).PassesOn acts := by
  have hj := fun acts => (orderly_run settings ring senders pollMs acts).1
  have hn := unanswered_run settings ring senders pollMs
  constructor
  · intro before now fatal after ticket r h
    obtain ⟨rest, hqueue⟩ := h.queue
    exact passedBy_work now fatal hqueue (foreign_of_owner h.foreign)
  · intro before now fatal after ticket r h address hmember hne
    have haddress := Ring.address?_eq_some.mpr ⟨hmember, hne⟩
    obtain ⟨rest, hqueue⟩ := h.queue
    constructor
    · rw [h.callLog_eq (hj acts),
        Shard.work_of_known hqueue (foreign_of_owner h.foreign) haddress]
      simp
    · rintro rfl
      exact h.forwarded (hj before) (hn before) haddress
  · intro before now fatal after ticket r h hnone
    have haddress : ((make settings ring senders pollMs).run before).shard.ring.address?
        (((make settings ring senders pollMs).run before).shard.ring.owner r.key) = none := by
      rw [Option.eq_none_iff_forall_ne_some]
      intro address haddress
      obtain ⟨hmember, hne⟩ := Ring.address?_eq_some.mp haddress
      exact hne (hnone address hmember)
    obtain ⟨rest, hqueue⟩ := h.queue
    constructor
    · rw [h.callLog_eq (hj acts),
        Shard.work_of_unknown hqueue (foreign_of_owner h.foreign) haddress]
      simp
    · exact h.unknown (hj before) (hn before) haddress
  · intro hkeeps key hstored
    obtain ⟨_, htraced⟩ := traced_run settings ring senders pollMs acts
    have hlocal := local_of_puts_run hkeeps (htraced.stored key hstored)
    simpa [Ring.isLocal] using hlocal
  · intro hkeeps p hp
    have hlocal := offered_local_of_run hkeeps hp
    simpa [Ring.isLocal] using hlocal

end Node

end ClusterCache
