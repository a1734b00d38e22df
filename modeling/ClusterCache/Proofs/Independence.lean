import ClusterCache.Proofs.ForeignKeys

/-!
# Independence of the replies of others

Two runs of a node in which the same happens at the node itself, while other nodes reply what they
like and when they like, or never, go in lockstep: they differ in the replies to requests that
were handed on, and in nothing else.  The one place where a reply decides anything in a node is
the keeper's waiting for its deletions, and those are of keys that the node owns.
-/

namespace ClusterCache

open Std

/-- Whether an act is one of the node itself or a submission, and not the reply of another node or
the end of somebody's patience. -/
def Act.isOwn : Act → Bool
  | .answer _ _ | .abandon _ => false
  | _ => true

namespace Shard

/-- Two shards that differ at most in the replies to other tickets than those in question. -/
structure Alike (P : Nat → Prop) (s s' : Shard) : Prop where
  rest : { s' with replies := ∅ } = { s with replies := ∅ }
  replies : ∀ t, P t → s'.replies[t]? = s.replies[t]?

variable {P Q : Nat → Prop} {s s' s'' : Shard}

theorem Alike.refl (P : Nat → Prop) (s : Shard) : s.Alike P s := ⟨rfl, fun _ _ => rfl⟩

theorem Alike.symm (h : s.Alike P s') : s'.Alike P s :=
  ⟨h.rest.symm, fun t ht => (h.replies t ht).symm⟩

theorem Alike.trans (h : s.Alike P s') (h' : s'.Alike P s'') : s.Alike P s'' :=
  ⟨h'.rest.trans h.rest, fun t ht => (h'.replies t ht).trans (h.replies t ht)⟩

theorem Alike.mono (h : s.Alike P s') (hsub : ∀ t, Q t → P t) : s.Alike Q s' :=
  ⟨h.rest, fun t ht => h.replies t (hsub t ht)⟩

theorem Alike.exists_with (h : s.Alike P s') :
    ∃ replies, s' = { s with replies } ∧ ∀ t, P t → replies[t]? = s.replies[t]? := by
  refine ⟨s'.replies, ?_, h.replies⟩
  obtain ⟨hrest, _⟩ := h
  cases s
  cases s'
  simpa using hrest

theorem Alike.answer_left (h : s.Alike P s') {ticket : Nat} (hticket : ¬ P ticket)
    (reply : Reply) : (s.answer ticket reply).Alike P s' := by
  refine ⟨h.rest, fun t ht => ?_⟩
  have hne : t ≠ ticket := fun heq => hticket (heq ▸ ht)
  rw [h.replies t ht, answer, lookup_insert, if_neg hne]

theorem alike_insert {replies : ExtTreeMap Nat Reply}
    (hreplies : ∀ t, P t → replies[t]? = s.replies[t]?) (ticket : Nat) (reply : Reply) :
    ∀ t, P t → (replies.insert ticket reply)[t]? = (s.replies.insert ticket reply)[t]? := by
  intro t ht
  rw [lookup_insert, lookup_insert, hreplies t ht]

theorem submit_with (s : Shard) (replies : ExtTreeMap Nat Reply) (r : Request) :
    { s with replies }.submit r = ({ (s.submit r).1 with replies }, (s.submit r).2) := by
  simp only [submit]
  split_ifs <;> rfl

theorem Alike.work (h : s.Alike P s') (now : UInt64) :
    (s.work now).1.Alike P (s'.work now).1 ∧ (s'.work now).2 = (s.work now).2 := by
  obtain ⟨replies, rfl, hreplies⟩ := h.exists_with
  by_cases hnil : s.queue = []
  · rw [work_of_idle hnil, work_of_idle (s := { s with replies }) hnil]
    exact ⟨h, rfl⟩
  · obtain ⟨⟨ticket, r⟩, rest, hqueue⟩ := List.exists_cons_of_ne_nil hnil
    cases hlocal : s.ring.isLocal r.key with
    | true =>
        rw [work_of_local hqueue hlocal, work_of_local (s := { s with replies }) hqueue hlocal,
          execute_eq, execute_eq]
        exact ⟨⟨rfl, alike_insert hreplies ticket _⟩, rfl⟩
    | false =>
        cases haddress : s.ring.address? (s.ring.owner r.key) with
        | none =>
            rw [work_of_unknown hqueue hlocal haddress,
              work_of_unknown (s := { s with replies }) hqueue hlocal haddress]
            exact ⟨⟨rfl, alike_insert hreplies ticket _⟩, rfl⟩
        | some address =>
            rw [work_of_known hqueue hlocal haddress,
              work_of_known (s := { s with replies }) hqueue hlocal haddress]
            exact ⟨⟨rfl, hreplies⟩, rfl⟩

theorem Alike.die (h : s.Alike P s') (ticket : Nat) : (s.die ticket).Alike P (s'.die ticket) := by
  obtain ⟨replies, rfl, hreplies⟩ := h.exists_with
  refine ⟨rfl, fun t ht => ?_⟩
  rw [lookup_die, lookup_die, hreplies t ht]

end Shard

/-- The deletions for which a pass has still to wait. -/
def Stage.issued : Stage → List Nat
  | .expiring _ _ _ issued | .measuring issued | .evicting _ issued | .settling _ _ issued => issued
  | _ => []

namespace Keeper

variable {listing : Listing} {clock : Clock} {s s' : Shard} {k k' : Keeper} {rs : Journal}

theorem Move.issued_sub (h : Move listing clock s k rs s' k') {t : Nat}
    (ht : t ∈ k'.stage.issued) :
    t ∈ k.stage.issued ∨ ∃ origin r, .accepted origin t r ∈ rs ∧ origin ≠ .caller := by
  have hkept : ∀ {stage : Stage}, k.stage = stage → t ∈ stage.issued → t ∈ k.stage.issued := by
    rintro _ rfl hmem
    exact hmem
  cases h with
  | note | pause | sweep | turn | finish => cases ht
  | expire now time key rest issued hstage hnone =>
      rcases List.mem_append.mp ht with hold | hnew
      · exact Or.inl (hkept hstage hold)
      · obtain rfl := List.mem_singleton.mp hnew
        exact Or.inr ⟨.expiry, _, List.mem_singleton_self _, by decide⟩
  | evict victim issued hstage hnone =>
      rcases List.mem_append.mp ht with hold | hnew
      · exact Or.inl (hkept hstage hold)
      · obtain rfl := List.mem_singleton.mp hnew
        exact Or.inr ⟨.eviction, _, List.mem_singleton_self _, by decide⟩
  | settled last deadline ticket issued hstage hdone =>
      exact Or.inl (hkept hstage (List.mem_cons_of_mem ticket ht))
  | bucket now time now' issued keys x hstage hearliest hpoll hdue =>
      exact Or.inl (hkept hstage ht)
  | swept now time issued hstage hnone => exact Or.inl (hkept hstage ht)
  | giveBack now time key rest issued failure hstage hrefusal => exact Or.inl (hkept hstage ht)
  | choose issued victim hstage hover hvictim => exact Or.inl (hkept hstage ht)
  | measured issued hstage henough => exact Or.inl (hkept hstage ht)
  | halt victim issued failure hstage hrefusal => exact Or.inl (hkept hstage ht)

theorem step_with (k : Keeper) (listing : Listing) (clock : Clock) (s : Shard)
    (replies : ExtTreeMap Nat Reply)
    (hreplies : ∀ t ∈ k.stage.issued, replies[t]? = s.replies[t]?) :
    k.step listing clock { s with replies } =
      (k.step listing clock s).map fun p => ({ p.1 with replies }, p.2) := by
  simp only [step]
  cases hstage : k.stage with
  | resting => rfl
  | polling deadline =>
      dsimp only
      cases s.events.take? with
      | some found => rfl
      | none => dsimp only; split_ifs <;> rfl
  | pausing deadline => dsimp only; split_ifs <;> rfl
  | draining left =>
      cases left with
      | zero => rfl
      | succ left => dsimp only; cases s.events.take? <;> rfl
  | expiring now time keys issued =>
      cases keys with
      | nil => rfl
      | cons key rest => simp only [expireStep, Shard.submit_with]; rfl
  | measuring issued => rfl
  | evicting victim issued => simp only [evictStep, Shard.submit_with]; rfl
  | settling last deadline issued =>
      cases issued with
      | nil => rfl
      | cons ticket issued =>
          -- The one place where a reply is looked at.
          have hticket : replies[ticket]? = s.replies[ticket]? :=
            hreplies ticket (by rw [hstage]; exact List.mem_cons_self)
          have hcontains : replies.contains ticket = s.replies.contains ticket := by
            rw [← ExtTreeMap.isSome_getElem?_eq_contains, hticket,
              ExtTreeMap.isSome_getElem?_eq_contains]
          simp only [hcontains]
          split_ifs <;> rfl

theorem ofStep_with (k : Keeper) (s : Shard) (replies : ExtTreeMap Nat Reply) :
    Record.ofStep { s with replies } k = Record.ofStep s k := by
  simp only [Record.ofStep, Record.ofSubmit, Shard.submit_with]

end Keeper

namespace Node

open Journal

/-- Two nodes that differ at most in who waits for replies and in the replies to other tickets
than those in question. -/
structure Alike (P : Nat → Prop) (n m : Node) : Prop where
  shard : n.shard.Alike P m.shard
  keeper : m.keeper = n.keeper

variable {P Q : Nat → Prop} {n m : Node} {a : Act} {acts : List Act}

theorem Alike.records_eq (h : n.Alike P m) (a : Act) : m.records a = n.records a := by
  obtain ⟨replies, hshard, _⟩ := h.shard.exists_with
  cases a with
  | submit r => simp only [records, Record.ofSubmit, hshard, Shard.submit_with]
  | work now fatal => simp only [records, Record.ofWork, hshard]
  | keep listing clock => simp only [records, hshard, h.keeper, Keeper.ofStep_with]
  | _ => rfl

/-- What a node does itself, the other one does too. -/
theorem Alike.act (h : n.Alike P m) (hown : a.isOwn = true)
    (hissued : ∀ t ∈ n.keeper.stage.issued, P t) : (n.act a).Alike P (m.act a) := by
  obtain ⟨replies, hshard, hreplies⟩ := h.shard.exists_with
  obtain ⟨shard, keeper, away, gone⟩ := m
  obtain rfl : keeper = n.keeper := h.keeper
  obtain rfl : shard = { n.shard with replies } := hshard
  cases a with
  | abandon | answer => cases hown
  | submit r =>
      simp only [Node.act, Shard.submit_with]
      refine ⟨⟨rfl, fun t ht => ?_⟩, rfl⟩
      rw [Shard.submit_eq]
      cases n.shard.refusal? r <;> exact hreplies t ht
  | work now fatal =>
      obtain ⟨hwork, hhanded⟩ := h.shard.work now
      simp only [Node.act]
      generalize n.shard.work now = w at hwork hhanded
      generalize Shard.work { n.shard with replies } now = w' at hwork hhanded
      obtain ⟨s, handed⟩ := w
      obtain ⟨s', handed'⟩ := w'
      obtain rfl : handed' = handed := hhanded
      cases handed' with
      | none => exact ⟨hwork, rfl⟩
      | some p =>
          cases fatal with
          | false => exact ⟨hwork, rfl⟩
          | true => exact ⟨hwork.die p.1, rfl⟩
  | begin clock =>
      simp only [Node.act]
      split_ifs <;> exact ⟨h.shard, rfl⟩
  | keep listing clock =>
      simp only [Node.act, n.keeper.step_with listing clock n.shard replies
        fun t ht => hreplies t (hissued t ht)]
      cases hstep : n.keeper.step listing clock n.shard with
      | none => exact h
      | some found =>
          obtain ⟨s, k⟩ := found
          refine ⟨⟨rfl, fun t ht => ?_⟩, rfl⟩
          rw [(Keeper.move_of_step hstep).frame.2.2.2.2.2]
          exact hreplies t ht
  | join id address => exact ⟨⟨rfl, hreplies⟩, rfl⟩
  | part id => exact ⟨⟨rfl, hreplies⟩, rfl⟩
  | close => exact ⟨⟨rfl, hreplies⟩, rfl⟩

/-- What comes from elsewhere does not matter for the tickets in question. -/
theorem Alike.act_left (h : n.Alike P m) (hown : a.isOwn = false)
    (haway : ∀ t ∈ n.away, ¬ P t) : (n.act a).Alike P m := by
  cases a with
  | abandon ticket => exact ⟨h.shard, h.keeper⟩
  | answer ticket reply =>
      by_cases hticket : ticket ∈ n.away
      · rw [Node.act, if_pos hticket]
        exact ⟨h.shard.answer_left (haway ticket hticket) reply, h.keeper⟩
      · rw [Node.act, if_neg hticket]
        exact h
  | _ => cases hown

theorem records_of_elsewhere (n : Node) (hown : a.isOwn = false) : n.records a = [] := by
  cases a with
  | abandon | answer => rfl
  | _ => cases hown

theorem keepsMembers_of_elsewhere (hown : a.isOwn = false) : a.keepsMembers = true := by
  cases a with
  | abandon | answer => rfl
  | _ => cases hown

/-! ## Whose tickets are looked at -/

section Tickets

variable (settings : Settings) (ring : Ring) (senders pollMs : Nat)

/-- No request for a key of somebody else has the ticket. -/
def OwnTicket (ring : Ring) (j : Journal) (t : Nat) : Prop :=
  ∀ r, (t, r) ∈ accepted j → ring.isLocal r.key = true

theorem OwnTicket.of_append {ring : Ring} {i j : Journal} {t : Nat}
    (h : OwnTicket ring (i ++ j) t) : OwnTicket ring i t :=
  fun r hr => h r (by simp [hr])

theorem Orderly.ownTicket {j : Journal} (hj : n.Orderly j) {p : Nat × Request}
    (hp : p ∈ accepted j) (hlocal : ring.isLocal p.2.key = true) : OwnTicket ring j p.1 := by
  intro r hr
  have hnodup : ((accepted j).map (·.1)).Nodup := by
    rw [hj.tickets]
    exact List.nodup_range
  have hsame : (p.1, r) = p := List.inj_on_of_nodup_map hnodup hr hp rfl
  rw [← hsame] at hlocal
  exact hlocal

theorem Step.issued_sub {n' : Node} {rs : Journal} (h : n.Step a rs n') {t : Nat}
    (ht : t ∈ n'.keeper.stage.issued) :
    t ∈ n.keeper.stage.issued ∨ ∃ origin r, .accepted origin t r ∈ rs ∧ origin ≠ .caller := by
  cases h with
  | begin clock hstage => cases ht
  | move listing clock records shard keeper hmove => exact hmove.issued_sub ht
  | _ => exact Or.inl ht

theorem issued_run {t : Nat}
    (ht : t ∈ ((make settings ring senders pollMs).run acts).keeper.stage.issued) :
    ∃ origin r, .accepted origin t r ∈ (make settings ring senders pollMs).journal acts ∧
      origin ≠ .caller := by
  induction acts using List.reverseRecOn with
  | nil => cases ht
  | append_singleton acts a ih =>
      rw [run_concat] at ht
      rw [journal_concat]
      rcases (step_act _ a).issued_sub ht with hold | ⟨origin, r, hr, horigin⟩
      · obtain ⟨origin, r, hr, horigin⟩ := ih hold
        exact ⟨origin, r, List.mem_append_left _ hr, horigin⟩
      · exact ⟨origin, r, List.mem_append_right _ hr, horigin⟩

theorem ownTicket_of_issued (hkeeps : ∀ a ∈ acts, a.keepsMembers = true) {t : Nat}
    (ht : t ∈ ((make settings ring senders pollMs).run acts).keeper.stage.issued) :
    OwnTicket ring ((make settings ring senders pollMs).journal acts) t := by
  obtain ⟨origin, r, hr, horigin⟩ := issued_run settings ring senders pollMs ht
  obtain ⟨_, htraced⟩ := traced_run settings ring senders pollMs acts
  have hlocal := local_of_puts_run hkeeps (htraced.issued origin t r hr horigin).2
  have hj := (orderly_run settings ring senders pollMs acts).1
  have hmem : (t, r) ∈ accepted ((make settings ring senders pollMs).journal acts) :=
    List.mem_filterMap.mpr ⟨_, hr, rfl⟩
  exact hj.ownTicket ring hmem hlocal

theorem not_ownTicket_of_away (hkeeps : ∀ a ∈ acts, a.keepsMembers = true) {t : Nat}
    (ht : t ∈ ((make settings ring senders pollMs).run acts).away) :
    ¬ OwnTicket ring ((make settings ring senders pollMs).journal acts) t := by
  intro hown
  have hj := (orderly_run settings ring senders pollMs acts).1
  obtain ⟨htaken, hnone⟩ := hj.away t ht
  obtain ⟨⟨ticket, r⟩, hr, rfl⟩ := List.mem_map.mp htaken
  have hlocal : ring.isLocal r.key = true :=
    hown r (hj.order.subset (List.mem_append_left _ hr))
  -- A request for a key of the node's own is executed when it is taken.
  have hmem : (ticket, r) ∈ (taken ((make settings ring senders pollMs).journal acts)).filter
      fun p => (make settings ring senders pollMs).shard.ring.isLocal p.2.key :=
    List.mem_filter.mpr ⟨hr, hlocal⟩
  rw [← executed_eq_filter_of_keepsMembers hkeeps] at hmem
  obtain ⟨x, hx, heq⟩ := List.mem_map.mp hmem
  exact hnone x hx (Prod.mk.inj heq).1

/-- A run goes like the run in which nothing ever comes from elsewhere. -/
theorem alike_alone (hkeeps : ∀ a ∈ acts, a.keepsMembers = true) :
    (make settings ring senders pollMs).journal (acts.filter Act.isOwn) =
        (make settings ring senders pollMs).journal acts ∧
      ((make settings ring senders pollMs).run acts).Alike
        (OwnTicket ring ((make settings ring senders pollMs).journal acts))
        ((make settings ring senders pollMs).run (acts.filter Act.isOwn)) := by
  induction acts using List.reverseRecOn with
  | nil => exact ⟨rfl, .refl _ _, rfl⟩
  | append_singleton acts a ih =>
      have hbefore : ∀ b ∈ acts, b.keepsMembers = true := fun b hb => hkeeps b (by simp [hb])
      obtain ⟨hjournal, halike⟩ := ih hbefore
      rw [List.filter_append, journal_concat, run_concat]
      cases hown : a.isOwn with
      | true =>
          rw [List.filter_cons_of_pos hown, List.filter_nil, journal_concat, run_concat, hjournal,
            halike.records_eq]
          refine ⟨rfl, ?_⟩
          have hact := halike.act hown
            fun t => ownTicket_of_issued settings ring senders pollMs hbefore
          exact ⟨hact.shard.mono fun t => OwnTicket.of_append, hact.keeper⟩
      | false =>
          rw [List.filter_cons_of_neg (by simp [hown]), List.filter_nil, List.append_nil,
            records_of_elsewhere _ hown, List.append_nil]
          refine ⟨hjournal, ?_⟩
          exact halike.act_left hown
            fun t => not_ownTicket_of_away settings ring senders pollMs hbefore

end Tickets

/-! ## Two runs -/

/-- After two runs of a node the service to its own keys is the same.  All that was accepted or
refused, taken, executed, told and heard is the same; the shards differ in replies only, and not
in those to requests for keys that the node owns. -/
structure SameService (ring : Ring) (start : Node) (acts acts' : List Act) : Prop where
  journal : start.journal acts' = start.journal acts
  shard : { (start.run acts').shard with replies := ∅ } =
    { (start.run acts).shard with replies := ∅ }
  keeper : (start.run acts').keeper = (start.run acts).keeper
  replies : ∀ p ∈ accepted (start.journal acts), ring.isLocal p.2.key = true →
    (start.run acts').shard.replies[p.1]? = (start.run acts).shard.replies[p.1]?

/-- Two runs of a node serve its own keys in lockstep. -/
structure Lockstep (ring : Ring) (start : Node) (acts acts' : List Act) : Prop where
  /-- Every moment of the first run has a moment of the second at which the same has happened at
  the node itself. -/
  moment : ∀ before, before <+: acts →
    ∃ before', before' <+: acts' ∧ before'.filter Act.isOwn = before.filter Act.isOwn
  same : ∀ before before', before <+: acts → before' <+: acts' →
    before'.filter Act.isOwn = before.filter Act.isOwn → start.SameService ring before before'
  /-- What the worker takes makes room in the queue at once, and never comes back. -/
  room : ∀ before now after ticket r rest, acts = before ++ .work now false :: after →
    (start.run before).shard.queue = (ticket, r) :: rest →
    ((start.run before).act (.work now false)).shard.queue = rest ∧
      ∀ p ∈ (start.run acts).shard.queue, p.1 ≠ ticket

theorem same_service (settings : Settings) (ring : Ring) (senders pollMs : Nat)
    {acts acts' : List Act} (hkeeps : ∀ a ∈ acts, a.keepsMembers = true)
    (hsame : acts'.filter Act.isOwn = acts.filter Act.isOwn) :
    (make settings ring senders pollMs).SameService ring acts acts' := by
  have hkeeps' : ∀ a ∈ acts', a.keepsMembers = true := by
    intro a ha
    cases hown : a.isOwn with
    | false => exact keepsMembers_of_elsewhere hown
    | true =>
        have hmem : a ∈ acts.filter Act.isOwn := hsame ▸ List.mem_filter.mpr ⟨ha, hown⟩
        exact hkeeps a (List.mem_filter.mp hmem).1
  obtain ⟨hjournal, halike⟩ := alike_alone settings ring senders pollMs hkeeps
  obtain ⟨hjournal', halike'⟩ := alike_alone settings ring senders pollMs hkeeps'
  rw [hsame] at hjournal' halike'
  rw [← hjournal', hjournal] at halike'
  refine ⟨hjournal'.symm.trans hjournal, (halike.shard.trans halike'.shard.symm).rest,
    halike'.keeper.symm.trans halike.keeper, fun p hp hlocal => ?_⟩
  have hj := (orderly_run settings ring senders pollMs acts).1
  exact (halike.shard.trans halike'.shard.symm).replies p.1 (hj.ownTicket ring hp hlocal)

theorem queue_work {p : Nat × Request} {rest : List (Nat × Request)}
    (hqueue : n.shard.queue = p :: rest) (now : UInt64) :
    (n.act (.work now false)).shard.queue = rest := by
  rw [shard_act_work, Shard.queue_work, hqueue, List.tail_cons]

theorem Orderly.past_work {j : Journal} (hj : n.Orderly j) {p : Nat × Request}
    {rest : List (Nat × Request)} (hqueue : n.shard.queue = p :: rest) (now : UInt64) :
    (n.act (.work now false)).Past p.1 := by
  have hgiven : p.1 < n.shard.tickets :=
    hj.given (List.mem_append_right _ (by rw [hqueue]; exact List.mem_cons_self))
  obtain ⟨hle, _⟩ := (n.step_act (.work now false)).tickets_of_accepted
  refine ⟨Nat.lt_of_lt_of_le hgiven hle, fun q hq => ?_⟩
  rw [queue_work hqueue now] at hq
  exact hj.ne_of_open hqueue (Or.inr (Or.inl (List.mem_map_of_mem hq)))

/-- As long as the membership is fixed, what other nodes reply and when they do it makes no
difference to the keys of the node itself. -/
theorem lockstep_of_same_own (settings : Settings) (ring : Ring) (senders pollMs : Nat)
    {acts acts' : List Act} (hkeeps : ∀ a ∈ acts, a.keepsMembers = true)
    (hsame : acts'.filter Act.isOwn = acts.filter Act.isOwn) :
    (make settings ring senders pollMs).Lockstep ring acts acts' := by
  constructor
  · rintro before ⟨after, rfl⟩
    rw [List.filter_append, List.filter_eq_append_iff] at hsame
    obtain ⟨before', after', rfl, hbefore, _⟩ := hsame
    exact ⟨before', List.prefix_append _ _, hbefore⟩
  · rintro before before' ⟨after, rfl⟩ _ hbefore
    apply same_service settings ring senders pollMs
    · exact fun a ha => hkeeps a (List.mem_append_left _ ha)
    · exact hbefore
  · rintro before now after ticket r rest rfl hqueue
    refine ⟨queue_work hqueue now, ?_⟩
    have hpast := (orderly_run settings ring senders pollMs before).1.past_work hqueue now
    rw [run_append]
    exact (hpast.run after).2

/-- The settings of a node of two with one position each. -/
def pairSettings : Settings :=
  { nodeId := "a", replicas := 1, members := [⟨"a", "A"⟩, ⟨"b", "B"⟩] }

def pair : Node := make pairSettings pairSettings.ring 1 0

/-- A read of a key of the other node is handed on, a key is put for five seconds, and the sweep
after five seconds has it deleted.  The reply of the other node comes early, or late. -/
def putAndSweep (early late : List Act) : List Act :=
  [.submit ⟨"k", .get⟩, .submit ⟨"x", .put "v" 5⟩, .work 0 false] ++ early ++ [.work 0 false] ++
    [.begin ⟨5, 0⟩] ++ stepsAtFive 4 ++ [.work 5 false] ++ stepsAtFive 5 ++ late

/-- A value in time is like a failure when all is over, and like no reply. -/
theorem lockstep_of_replies :
    pair.Lockstep pairSettings.ring (putAndSweep [.answer 0 (.done (some "w"))] [])
        (putAndSweep [] [.answer 0 (.failed .timeout)]) ∧
      pair.Lockstep pairSettings.ring (putAndSweep [.answer 0 (.done (some "w"))] [])
        (putAndSweep [] []) ∧
      (pair.run (putAndSweep [.answer 0 (.done (some "w"))] [])).shard.replies[0]? =
        some (.done (some "w")) ∧
      (pair.run (putAndSweep [] [.answer 0 (.failed .timeout)])).shard.replies[0]? =
        some (.failed .timeout) ∧
      (pair.run (putAndSweep [] [])).shard.replies[0]? = none := by
  refine ⟨?_, ?_, by decide +kernel, by decide +kernel, by decide +kernel⟩
  · exact lockstep_of_same_own pairSettings pairSettings.ring 1 0 (by decide) (by rfl)
  · exact lockstep_of_same_own pairSettings pairSettings.ring 1 0 (by decide) (by rfl)

end Node

end ClusterCache
