import ClusterCache.Proofs.Ledger
import ClusterCache.Proofs.Node

/-!
# A node as one map

However submissions, turns of the worker and everything else are mixed, what a node answers and
what it holds is what one map with expiry answers and holds on which the accepted requests are
executed one after the other, in the order in which they were accepted.
-/

namespace ClusterCache.Node

open Journal

variable {n n' : Node} {j rs : Journal} {a : Act}

/-- Every accepted request is either taken already or still waits, in one order, and a ticket
stands for one request for ever. -/
structure Orderly (n : Node) (j : Journal) : Prop where
  order : taken j ++ n.shard.queue <+: accepted j
  alive : n.shard.alive = true → taken j ++ n.shard.queue = accepted j
  dead : n.shard.alive = false → n.shard.queue = []
  tickets : (accepted j).map (·.1) = List.range n.shard.tickets
  away : ∀ t ∈ n.away, t ∈ (taken j).map (·.1) ∧ ∀ x ∈ executed j, x.ticket ≠ t

theorem Orderly.nodup (h : n.Orderly j) : ((taken j ++ n.shard.queue).map (·.1)).Nodup := by
  have hprefix := h.order.map (·.1)
  rw [h.tickets] at hprefix
  exact hprefix.sublist.nodup List.nodup_range

theorem Orderly.ne_of_executed (h : n.Orderly j) {x : Execution} (hx : x ∈ executed j)
    {request : Nat × Request} (hr : request ∈ n.shard.queue) : x.ticket ≠ request.1 := by
  have hnodup := h.nodup
  rw [List.map_append, List.nodup_append] at hnodup
  exact hnodup.2.2 _ (List.mem_map_of_mem (mem_taken_of_executed j hx)) _
    (List.mem_map_of_mem hr)

theorem Step.away_sub (h : n.Step a rs n') {t : Nat} (ht : t ∈ n'.away) :
    t ∈ n.away ∨ executed rs = [] ∧ ∃ r rest, n.shard.queue = (t, r) :: rest ∧
      taken rs = [(t, r)] := by
  cases h with
  | handOn now ticket call shard records hturn =>
      cases hturn with
      | handOn ticket r rest address hqueue hforeign haddress =>
          rcases List.mem_append.mp ht with ht | ht
          · exact Or.inl ht
          · obtain rfl := List.mem_singleton.mp ht
            exact Or.inr ⟨rfl, r, rest, hqueue, rfl⟩
  | answer ticket reply haway => exact Or.inl (List.mem_of_mem_filter ht)
  | _ => exact Or.inl ht

/-- A turn that executes a request executes the oldest one. -/
theorem Step.executed_cases (h : n.Step a rs n') :
    executed rs = [] ∨ ∃ now ticket r rest, n.shard.queue = (ticket, r) :: rest ∧
      n.shard.ring.isLocal r.key = true ∧ executed rs = [⟨now, ticket, r⟩] ∧
      taken rs = [(ticket, r)] ∧
      n' = { n with shard := Shard.execute { n.shard with queue := rest } now ticket r } := by
  cases h with
  | turn now fatal records shard hturn =>
      cases hturn with
      | idle hqueue => exact Or.inl rfl
      | execute ticket r rest hqueue hlocal =>
          exact Or.inr ⟨now, ticket, r, rest, hqueue, hlocal, executed_execution _ _ _ _,
            taken_execution _ _ _ _, rfl⟩
      | giveUp ticket r rest hqueue hforeign haddress => exact Or.inl rfl
  | handOn now ticket call shard records hturn => cases hturn; exact Or.inl rfl
  | perish now ticket call shard records hturn => cases hturn; exact Or.inl rfl
  | move listing clock records shard keeper hmove => exact Or.inl hmove.quiet.2.1
  | _ => exact Or.inl rfl

theorem Step.away_executed (h : n.Step a rs n') (hj : n.Orderly j) {t : Nat} (ht : t ∈ n'.away) :
    t ∈ (taken (j ++ rs)).map (·.1) ∧ ∀ x ∈ executed (j ++ rs), x.ticket ≠ t := by
  rw [taken_append, executed_append, List.map_append]
  rcases h.away_sub ht with hold | ⟨hnone, r, rest, hqueue, htaken⟩
  · obtain ⟨hmem, hne⟩ := hj.away t hold
    refine ⟨List.mem_append_left _ hmem, fun x hx => ?_⟩
    rcases List.mem_append.mp hx with hx | hx
    · exact hne x hx
    · rcases h.executed_cases with hnil | ⟨now, ticket, r, rest, hqueue, _, hexecuted, _⟩
      · rw [hnil] at hx
        cases hx
      · rw [hexecuted, List.mem_singleton] at hx
        subst hx
        have hnodup := hj.nodup
        rw [List.map_append, List.nodup_append] at hnodup
        exact (hnodup.2.2 t hmem ticket (by simp [hqueue])).symm
  · rw [hnone, List.append_nil]
    refine ⟨List.mem_append_right _ (by simp [htaken]), fun x hx => ?_⟩
    exact hj.ne_of_executed hx (hqueue ▸ List.mem_cons_self)

theorem Orderly.step (hj : n.Orderly j) (h : n.Step a rs n') : n'.Orderly (j ++ rs) := by
  have htickets : (accepted (j ++ rs)).map (·.1) = List.range n'.shard.tickets := by
    rw [accepted_append, List.map_append, hj.tickets, ← h.tickets]
  -- A worker that has died takes nothing any more, and nothing is accepted.
  rcases Bool.eq_false_or_eq_true n.shard.alive with halive | hdead
  · have horder : taken (j ++ rs) ++ n'.shard.queue <+: accepted (j ++ rs) := by
      rw [taken_append, accepted_append, List.append_assoc, ← hj.alive halive, List.append_assoc]
      exact (List.prefix_append_right_inj _).mpr h.queue_prefix
    refine ⟨horder, fun halive' => ?_, fun hdead => ?_, htickets,
      fun t ht => h.away_executed hj ht⟩
    · rw [taken_append, accepted_append, List.append_assoc, ← hj.alive halive,
        List.append_assoc, h.queue_eq halive']
    · rcases h.queue with ⟨hsame, _⟩ | ⟨_, hnil, _⟩
      · rw [hsame, halive] at hdead
        cases hdead
      · exact hnil
  · have hprefix := h.queue_prefix
    rw [hj.dead hdead, h.accepted_of_dead hdead, List.append_nil, List.prefix_nil,
      List.append_eq_nil_iff] at hprefix
    obtain ⟨htaken, hqueue⟩ := hprefix
    have horder : taken (j ++ rs) ++ n'.shard.queue <+: accepted (j ++ rs) := by
      rw [taken_append, accepted_append, htaken, hqueue, h.accepted_of_dead hdead]
      have hold := hj.order
      rw [hj.dead hdead] at hold
      simpa using hold
    refine ⟨horder, fun halive => ?_, fun _ => hqueue, htickets,
      fun t ht => h.away_executed hj ht⟩
    rw [h.alive halive] at hdead
    cases hdead

theorem orderly_make (settings : Settings) (ring : Ring) (senders pollMs : Nat) :
    (make settings ring senders pollMs).Orderly [] := by
  refine ⟨List.nil_prefix, fun _ => rfl, fun _ => rfl, rfl, fun t ht => ?_⟩
  cases ht

/-- What a node has answered and what it holds is what one map has answered and holds. -/
structure Answers (n : Node) (j : Journal) : Prop where
  store : n.shard.alive = true → Ledger.ofStore n.shard.store = Ledger.after (executed j)
  replies : ∀ before x rest, executed j = before ++ x :: rest →
    n.shard.replies[x.ticket]? = some (.done ((Ledger.after before).step x).2)

/-- Only executions change the store of a living worker. -/
theorem Step.store_eq (h : n.Step a rs n') (hnone : executed rs = [])
    (halive : n'.shard.alive = true) : n'.shard.store = n.shard.store := by
  cases h with
  | turn now fatal records shard hturn =>
      cases hturn with
      | execute ticket r rest hqueue hlocal =>
          simp at hnone
      | _ => rfl
  | handOn now ticket call shard records hturn => cases hturn; rfl
  | perish now ticket call shard records hturn => cases halive
  | move listing clock records shard keeper hmove => exact hmove.frame.2.2.2.1
  | _ => rfl

/-- A reply that has come stays, but for tickets that are away or wait in the queue. -/
theorem Step.replies_eq (h : n.Step a rs n') {t : Nat} (haway : t ∉ n.away)
    (hqueue : t ∉ n.shard.queue.map (·.1)) :
    n'.shard.replies[t]? = n.shard.replies[t]? := by
  cases h with
  | turn now fatal records shard hturn =>
      cases hturn with
      | idle hnil => rfl
      | execute ticket r rest hcons hlocal =>
          have hne : t ≠ ticket := fun heq => hqueue (by simp [hcons, heq])
          simp [Shard.execute_eq, lookup_insert, hne]
      | giveUp ticket r rest hcons hforeign haddress =>
          have hne : t ≠ ticket := fun heq => hqueue (by simp [hcons, heq])
          simp [Shard.answer, lookup_insert, hne]
  | handOn now ticket call shard records hturn => cases hturn; rfl
  | perish now ticket call shard records hturn =>
      cases hturn with
      | handOn ticket r rest address hcons hforeign haddress =>
          rw [hcons] at hqueue
          simp only [Shard.lookup_die]
          rw [if_neg (by simpa using hqueue)]
  | answer ticket reply hticket =>
      have hne : t ≠ ticket := fun heq => haway (heq ▸ hticket)
      simp [Shard.answer, lookup_insert, hne]
  | move listing clock records shard keeper hmove =>
      simp only [hmove.frame.2.2.2.2.2]
  | _ => rfl

theorem Answers.step (hj : n.Orderly j) (hans : n.Answers j) (h : n.Step a rs n') :
    n'.Answers (j ++ rs) := by
  have hold : ∀ before x rest, executed j = before ++ x :: rest →
      n'.shard.replies[x.ticket]? = some (.done ((Ledger.after before).step x).2) := by
    intro before x rest hsplit
    have hx : x ∈ executed j := by simp [hsplit]
    rw [h.replies_eq, hans.replies before x rest hsplit]
    · exact fun haway => (hj.away _ haway).2 x hx rfl
    · intro hmem
      obtain ⟨request, hr, heq⟩ := List.mem_map.mp hmem
      exact hj.ne_of_executed hx hr heq.symm
  rcases h.executed_cases with hnone | ⟨now, ticket, r, rest, hqueue, _, hexecuted, _, rfl⟩
  · refine ⟨fun halive => ?_, ?_⟩
    · rw [h.store_eq hnone halive, executed_append, hnone, List.append_nil]
      exact hans.store (h.alive halive)
    · rw [executed_append, hnone, List.append_nil]
      exact hold
  · have halive : n.shard.alive = true := by
      by_contra hdead
      have hnil := hj.dead (by simpa using hdead)
      rw [hnil] at hqueue
      cases hqueue
    refine ⟨fun _ => ?_, fun before x after hsplit => ?_⟩
    · rw [executed_append, hexecuted, Ledger.after_concat, ← hans.store halive,
        ← Ledger.ofStore_execute _ n.shard.counters]
      simp [Shard.execute_eq]
    · rw [executed_append, hexecuted] at hsplit
      -- The execution is the one of this step, or its reply has come already and stays.
      rcases List.eq_nil_or_concat after with rfl | ⟨after, y, rfl⟩
      · obtain ⟨rfl, hx⟩ := List.append_inj' hsplit rfl
        obtain rfl : ⟨now, ticket, r⟩ = x := by simpa using hx
        rw [← hans.store halive, ← Ledger.finds_eq]
        simp [Shard.execute_eq]
      · rw [List.concat_eq_append, ← List.cons_append, ← List.append_assoc] at hsplit
        exact hold before x after (List.append_inj' hsplit rfl).1

theorem answers_make (settings : Settings) (ring : Ring) (senders pollMs : Nat) :
    (make settings ring senders pollMs).Answers [] := by
  refine ⟨fun _ => ?_, fun before x rest h => ?_⟩
  · funext key
    simp [Ledger.ofStore, make, Shard.make, executed, Ledger.empty]
  · simp [executed] at h

/-- The worker executes what it takes if the key is its own, and hands on or answers the rest. -/
theorem Step.executed_eq_filter (h : n.Step a rs n') :
    (executed rs).map (fun x => (x.ticket, x.request)) =
      (taken rs).filter fun p => n.shard.ring.isLocal p.2.key := by
  have hturn : ∀ {now s' handed}, n.shard.Turn now rs (s', handed) →
      (executed rs).map (fun x => (x.ticket, x.request)) =
        (taken rs).filter fun p => n.shard.ring.isLocal p.2.key := by
    intro now s' handed hturn
    cases hturn with
    | idle hqueue => rfl
    | execute ticket r rest hqueue hlocal => simp [hlocal]
    | giveUp ticket r rest hqueue hforeign haddress =>
        simp [executed, taken, Record.executed?, Record.taken?, hforeign]
    | handOn ticket r rest address hqueue hforeign haddress =>
        simp [executed, taken, Record.executed?, Record.taken?, hforeign]
  cases h with
  | turn now fatal records shard h => exact hturn h
  | handOn now ticket call shard records h => exact hturn h
  | perish now ticket call shard records h => exact hturn h
  | move listing clock records shard keeper hmove => rw [hmove.quiet.1, hmove.quiet.2.1]; rfl
  | _ => rfl

theorem executed_eq_filter_of_keepsMembers {acts : List Act}
    (hkeeps : ∀ a ∈ acts, a.keepsMembers = true) :
    (executed (n.journal acts)).map (fun x => (x.ticket, x.request)) =
      (taken (n.journal acts)).filter fun p => n.shard.ring.isLocal p.2.key := by
  induction acts generalizing n with
  | nil => rfl
  | cons a acts ih =>
      obtain ⟨ha, hacts⟩ := List.forall_mem_cons.mp hkeeps
      rw [journal, executed_append, taken_append, List.map_append, List.filter_append,
        (n.step_act a).executed_eq_filter, ih hacts, (n.step_act a).ring ha]

/-! ## Nothing waits for ever -/

theorem queue_run {acts : List Act} (h : (n.run acts).shard.alive = true) :
    taken (n.journal acts) ++ (n.run acts).shard.queue =
      n.shard.queue ++ accepted (n.journal acts) := by
  induction acts generalizing n with
  | nil => exact (List.append_nil _).symm
  | cons a acts ih =>
      have hrest : taken ((n.act a).journal acts) ++ ((n.act a).run acts).shard.queue =
          (n.act a).shard.queue ++ accepted ((n.act a).journal acts) := ih h
      have hhere := (n.step_act a).queue_eq (alive_of_run h)
      calc taken (n.journal (a :: acts)) ++ (n.run (a :: acts)).shard.queue
          = taken (n.records a) ++
              (taken ((n.act a).journal acts) ++ ((n.act a).run acts).shard.queue) := by
            rw [journal, taken_append, List.append_assoc]
            rfl
        _ = (taken (n.records a) ++ (n.act a).shard.queue) ++
              accepted ((n.act a).journal acts) := by
            rw [hrest, List.append_assoc]
        _ = n.shard.queue ++ accepted (n.journal (a :: acts)) := by
            rw [hhere, journal, accepted_append, List.append_assoc]

theorem Step.length_taken (h : n.Step a rs n') (hwork : a.isWork = true)
    (hqueue : n.shard.queue ≠ []) : (taken rs).length = 1 := by
  have hturn : ∀ {now s' handed}, n.shard.Turn now rs (s', handed) → (taken rs).length = 1 := by
    intro now s' handed hturn
    cases hturn with
    | idle hnil => exact absurd hnil hqueue
    | execute ticket r rest hcons hlocal =>
        rw [taken_execution]
        rfl
    | giveUp ticket r rest hcons hforeign haddress => rfl
    | handOn ticket r rest address hcons hforeign haddress => rfl
  cases h with
  | turn now fatal records shard h => exact hturn h
  | handOn now ticket call shard records h => exact hturn h
  | perish now ticket call shard records h => exact hturn h
  | _ => cases hwork

theorem length_taken_ge {acts : List Act} (h : (n.run acts).shard.alive = true) :
    min n.shard.queue.length (acts.countP Act.isWork) ≤ (taken (n.journal acts)).length := by
  induction acts generalizing n with
  | nil => simp
  | cons a acts ih =>
      have hrest : min (n.act a).shard.queue.length (acts.countP Act.isWork) ≤
          (taken ((n.act a).journal acts)).length := ih h
      have hstep := n.step_act a
      have hlength := congrArg List.length (hstep.queue_eq (alive_of_run h))
      simp only [List.length_append] at hlength
      rw [journal, taken_append, List.length_append]
      by_cases hwork : a.isWork = true
      · rw [List.countP_cons_of_pos hwork]
        by_cases hqueue : n.shard.queue = []
        · simp [hqueue]
        · have htaken := hstep.length_taken hwork hqueue
          omega
      · rw [List.countP_cons_of_neg hwork]
        omega

/-- What waits is taken, first come first served, once the worker has had enough turns. -/
theorem accepted_prefix_taken {acts more : List Act} (hj : (n.run acts).Orderly (n.journal acts))
    (halive : (n.run (acts ++ more)).shard.alive = true)
    (hturns : (n.run acts).shard.queue.length ≤ more.countP Act.isWork) :
    accepted (n.journal acts) <+: taken (n.journal (acts ++ more)) := by
  rw [run_append] at halive
  have hlength := length_taken_ge halive
  rw [Nat.min_eq_left hturns] at hlength
  have hqueue : (n.run acts).shard.queue <+: taken ((n.run acts).journal more) := by
    have hprefix := List.prefix_append (taken ((n.run acts).journal more))
      ((n.run acts).run more).shard.queue
    rw [queue_run halive] at hprefix
    exact List.prefix_of_prefix_length_le (List.prefix_append _ _) hprefix hlength
  rw [journal_append, taken_append, ← hj.alive (alive_of_run halive)]
  exact (List.prefix_append_right_inj _).mpr hqueue

/-! ## The whole of it -/

theorem orderly_run (settings : Settings) (ring : Ring) (senders pollMs : Nat) (acts : List Act) :
    ((make settings ring senders pollMs).run acts).Orderly
        ((make settings ring senders pollMs).journal acts) ∧
      ((make settings ring senders pollMs).run acts).Answers
        ((make settings ring senders pollMs).journal acts) := by
  induction acts using List.reverseRecOn with
  | nil => exact ⟨orderly_make _ _ _ _, answers_make _ _ _ _⟩
  | append_singleton acts a ih =>
      obtain ⟨horderly, hanswers⟩ := ih
      rw [run_concat, journal_concat]
      exact ⟨horderly.step (step_act _ a), hanswers.step horderly (step_act _ a)⟩

theorem length_queue_run (settings : Settings) (ring : Ring) (senders pollMs : Nat)
    (acts : List Act) :
    ((make settings ring senders pollMs).run acts).shard.capacity =
        max 1 settings.requestCapacity ∧
      ((make settings ring senders pollMs).run acts).shard.queue.length ≤
        max 1 settings.requestCapacity := by
  induction acts using List.reverseRecOn with
  | nil => exact ⟨rfl, Nat.zero_le _⟩
  | append_singleton acts a ih =>
      obtain ⟨hcapacity, hlength⟩ := ih
      have hstep := ((make settings ring senders pollMs).run acts).step_act a
      rw [run_concat, hstep.capacity]
      refine ⟨hcapacity, ?_⟩
      have hle := hstep.length_queue_le (by rwa [hcapacity])
      rwa [hstep.capacity, hcapacity] at hle

/-- What a run of a node has to do with one map on which requests are executed in order. -/
structure SequentialRun (settings : Settings) (ring : Ring) (start : Node) (acts : List Act) :
    Prop where
  /-- While the worker lives, what has been accepted is what has been taken and what waits. -/
  order : (start.run acts).shard.alive = true →
    accepted (start.journal acts) = taken (start.journal acts) ++ (start.run acts).shard.queue
  /-- Nothing is ever taken that was not accepted, nor in another order. -/
  taken_prefix : taken (start.journal acts) <+: accepted (start.journal acts)
  /-- No request has the ticket of another one. -/
  tickets : ((accepted (start.journal acts)).map (·.1)).Nodup
  /-- Of what is taken, that is executed whose key is the node's own. -/
  executed_local : ∀ before a after, acts = before ++ a :: after →
    (executed ((start.run before).records a)).map (fun x => (x.ticket, x.request)) =
      (taken ((start.run before).records a)).filter fun p =>
        (start.run before).shard.ring.isLocal p.2.key
  executed_fixed : (∀ a ∈ acts, a.keepsMembers = true) →
    (executed (start.journal acts)).map (fun x => (x.ticket, x.request)) =
      (taken (start.journal acts)).filter fun p => ring.isLocal p.2.key
  /-- What waits is taken once the worker has had as many turns as there are requests. -/
  progress : ∀ more, (start.run (acts ++ more)).shard.alive = true →
    (start.run acts).shard.queue.length ≤ more.countP Act.isWork →
    accepted (start.journal acts) <+: taken (start.journal (acts ++ more))
  /-- It is the same with nobody giving up waiting. -/
  abandoned : (start.run (acts.filter Act.keepsCallers)).shard = (start.run acts).shard ∧
    start.journal (acts.filter Act.keepsCallers) = start.journal acts
  /-- The replies are those of one map. -/
  replies : ∀ before x rest, executed (start.journal acts) = before ++ x :: rest →
    (start.run acts).shard.replies[x.ticket]? =
      some (.done ((Ledger.after before).step x).2)
  /-- A read finds what was put last and not deleted or found expired since, in time. -/
  reads : ∀ before x rest, executed (start.journal acts) = before ++ x :: rest →
    x.request.command = .get → ∀ value,
    ((start.run acts).shard.replies[x.ticket]? = some (.done (some value)) ↔
      ∃ expires, Ledger.Binds before x.request.key value expires ∧ x.now.toNat < expires)
  /-- Puts and deletions succeed. -/
  succeeds : ∀ x ∈ executed (start.journal acts), x.request.command ≠ .get →
    (start.run acts).shard.replies[x.ticket]? = some (.done none)
  /-- The store is that of one map. -/
  store : (start.run acts).shard.alive = true →
    Ledger.ofStore (start.run acts).shard.store = Ledger.after (executed (start.journal acts))
  holds : (start.run acts).shard.alive = true → ∀ key value expires,
    Ledger.ofStore (start.run acts).shard.store key = some (value, expires) ↔
      Ledger.Binds (executed (start.journal acts)) key value expires
  /-- A request is refused for one of three reasons, and then nothing has happened. -/
  refusal : ∀ r, (start.run acts).shard.submit r =
    if r.key = "" then ((start.run acts).shard, .error .emptyKey)
    else if (start.run acts).shard.alive = false then
      ((start.run acts).shard, .error .workerUnavailable)
    else if (start.run acts).shard.queue.length = max 1 settings.requestCapacity then
      ((start.run acts).shard, .error .overloaded)
    else ((start.run acts).shard.enqueue r, .ok (start.run acts).shard.tickets)

theorem sequential_run (settings : Settings) (ring : Ring) (senders pollMs : Nat)
    (acts : List Act) :
    SequentialRun settings ring (make settings ring senders pollMs) acts := by
  obtain ⟨horderly, hanswers⟩ := orderly_run settings ring senders pollMs acts
  have hcapacity := length_queue_run settings ring senders pollMs acts
  generalize hstart : make settings ring senders pollMs = start at *
  refine
    { order := fun halive => (horderly.alive halive).symm
      taken_prefix := (List.prefix_append _ _).trans horderly.order
      tickets := by rw [horderly.tickets]; exact List.nodup_range
      executed_local := fun before a _ _ => ((start.run before).step_act a).executed_eq_filter
      executed_fixed := fun hkeeps => ?_
      progress := fun more => accepted_prefix_taken horderly
      abandoned := ?_
      replies := hanswers.replies
      reads := fun before x rest hsplit hget value => ?_
      succeeds := fun x hx hne => ?_
      store := hanswers.store
      holds := fun halive key value expires => ?_
      refusal := fun r => ?_ }
  · rw [executed_eq_filter_of_keepsMembers hkeeps, ← hstart]
    rfl
  · obtain ⟨gone, hrun, hjournal⟩ := run_filter_keepsCallers start start.gone acts
    have hshard := congrArg Node.shard hrun
    exact ⟨hshard, hjournal⟩
  · rw [hanswers.replies before x rest hsplit]
    simp only [Option.some.injEq, Reply.done.injEq, Ledger.step_get _ hget, Ledger.after_eq_some_iff]
  · obtain ⟨before, rest, hsplit⟩ := List.append_of_mem hx
    rw [hanswers.replies before x rest hsplit, Ledger.step_of_ne_get _ hne]
  · rw [hanswers.store halive, Ledger.after_eq_some_iff]
  · have hfull : (start.run acts).shard.queue.length = max 1 settings.requestCapacity ↔
        (start.run acts).shard.capacity ≤ (start.run acts).shard.queue.length := by
      omega
    rw [Shard.submit_eq, Shard.refusal?]
    simp only [hfull]
    split_ifs <;> rfl

end ClusterCache.Node
