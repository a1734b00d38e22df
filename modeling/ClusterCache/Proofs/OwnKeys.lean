import ClusterCache.Proofs.ExpiredDeletions

/-!
# Deletions of the node's own keys

The keeper knows only keys that the worker of its node has put, and it asks the worker to delete
no others.  The worker looks at the ring again when it comes to such a deletion: it deletes the
key while the node still owns it, and hands the deletion on like any other request if the
membership has changed and somebody else owns the key by then.
-/

namespace ClusterCache

namespace Journal

/-- The worker has executed a put of the key. -/
def Puts (j : Journal) (key : String) : Prop :=
  ∃ x ∈ executed j, ∃ value ttl, x.request = ⟨key, .put value ttl⟩

theorem not_puts_of_executed_nil {j : Journal} (h : executed j = []) (key : String) :
    ¬ Puts j key := by
  rintro ⟨x, hx, _⟩
  rw [h] at hx
  cases hx

theorem puts_append (i j : Journal) (key : String) :
    Puts (i ++ j) key ↔ Puts i key ∨ Puts j key := by
  simp only [Puts, executed_append, List.mem_append, or_and_right, exists_or]

end Journal

open Journal

namespace Shard

variable {s s' : Shard} {now : UInt64} {rs : Journal} {handed : Option (Nat × Call)}

/-- What the worker stores it has put, now or before. -/
theorem Turn.stored (h : s.Turn now rs (s', handed)) {key : String}
    (hstored : s'.store[key]? ≠ none) : s.store[key]? ≠ none ∨ Puts rs key := by
  cases h with
  | execute ticket r rest hqueue hlocal =>
      rw [lookup_execute] at hstored
      by_cases hkey : key = r.key
      · rw [if_pos hkey] at hstored
        obtain ⟨k, command⟩ := r
        obtain rfl : key = k := hkey
        cases command with
        | put value ttl =>
            exact Or.inr ⟨⟨now, ticket, _⟩, by rw [executed_execution]; simp, value, ttl, rfl⟩
        | delete => exact absurd rfl hstored
        | get =>
            refine Or.inl fun hnone => hstored ?_
            simp only [hnone]
            rfl
      · rw [if_neg hkey] at hstored
        exact Or.inl hstored
  | _ => exact Or.inl hstored

/-- The worker tells of puts and reads of keys that it has put, now or before. -/
theorem Turn.told (h : s.Turn now rs (s', handed)) {e : Event} (he : e ∈ Journal.told rs)
    (hchange : e.change ≠ .delete) : s.store[e.key]? ≠ none ∨ Puts rs e.key := by
  cases h with
  | execute ticket r rest hqueue hlocal =>
      rw [Journal.told, offered_execution] at he
      obtain ⟨p, hp, hsome⟩ := List.mem_filterMap.mp he
      obtain ⟨_, heq⟩ := Option.ite_none_right_eq_some.mp hsome
      obtain ⟨c, hc, rfl⟩ := Option.map_eq_some_iff.mp (Option.mem_toList.mp hp)
      obtain rfl := Option.some.inj heq
      obtain ⟨k, command⟩ := r
      cases command with
      | put value ttl =>
          exact Or.inr ⟨⟨now, ticket, _⟩, by rw [executed_execution]; simp, value, ttl, rfl⟩
      | delete => exact absurd (Option.some.inj hc).symm hchange
      | get =>
          refine Or.inl fun hnone => ?_
          have hslot : s.store[k]? = none := hnone
          rw [hslot] at hc
          cases hc
  | _ => cases he

end Shard

namespace Keeper

/-- A keeper has only keys deleted that it knows. -/
theorem Move.issued {listing : Listing} {clock : Clock} {s s' : Shard} {k k' : Keeper}
    {rs : Journal} (h : Move listing clock s k rs s' k') (hk : k.Sound) {origin : Origin}
    {ticket : Nat} {r : Request} (hr : .accepted origin ticket r ∈ rs) :
    r.command = .delete ∧ (k.policy.tracks r.key = true ∨ k.indexed r.key ≠ none) := by
  cases h with
  | expire now time key rest issued hstage hnone =>
      obtain ⟨rfl, rfl, rfl⟩ : origin = .expiry ∧ ticket = s.tickets ∧ r = ⟨key, .delete⟩ := by
        simpa using hr
      exact ⟨rfl, Or.inr (by simp [indexed, hstage, Stage.held?])⟩
  | evict victim issued hstage hnone =>
      obtain ⟨rfl, rfl, rfl⟩ : origin = .eviction ∧ ticket = s.tickets ∧
        r = ⟨victim, .delete⟩ := by simpa using hr
      exact ⟨rfl, Or.inl (hk.victim victim issued hstage)⟩
  | _ => simp at hr

/-- What a keeper comes to know in a step is the key of an event that waited, and not of one that
tells of a deletion. -/
theorem Move.known {listing : Listing} {clock : Clock} {s s' : Shard} {k k' : Keeper}
    {rs : Journal} (h : Move listing clock s k rs s' k') (hk : k.Sound) {key : String}
    (hknown : k'.policy.tracks key = true ∨ k'.indexed key ≠ none) :
    (k.policy.tracks key = true ∨ k.indexed key ≠ none) ∨
      ∃ e ∈ s.events.waiting, e.key = key ∧ e.change ≠ .delete := by
  rcases h.view hk key with ⟨htracks, hindexed, _⟩ | ⟨e, left, he, rfl, hpending, hk'⟩ |
    ⟨_, _, hbefore, _⟩
  · rw [htracks, hindexed] at hknown
    exact Or.inl hknown
  · -- The event is that of a put or a read: one of a deletion makes the keeper forget the key.
    refine Or.inr ⟨e, ?_, rfl, fun hdelete => ?_⟩
    · rw [← h.events.2, he]
      exact List.mem_append_left _ (List.mem_singleton_self e)
    · obtain ⟨hgone, htime⟩ := observe_delete hk e.key
      have hevent : e = ⟨e.key, .delete⟩ := by rw [← hdelete]
      rw [← hevent] at hgone htime
      rw [hk', indexed_of_pending rfl] at hknown
      rcases hknown with htracks | hindexed
      · exact absurd htracks (by simp [hgone])
      · exact hindexed htime
  · exact Or.inl hbefore

end Keeper

namespace Node

variable {n n' : Node} {a : Act} {rs j : Journal}

/-- Every key that is stored or told of, or that the keeper knows or has had deleted, has been put
by the worker. -/
structure Traced (n : Node) (j : Journal) : Prop where
  stored : ∀ key, n.shard.store[key]? ≠ none → Puts j key
  waiting : ∀ e ∈ n.shard.events.waiting, e.change ≠ .delete → Puts j e.key
  known : ∀ key, n.keeper.policy.tracks key = true ∨ n.keeper.indexed key ≠ none → Puts j key
  issued : ∀ origin ticket r, .accepted origin ticket r ∈ j → origin ≠ .caller →
    r.command = .delete ∧ Puts j r.key

/-- What the keeper does not do itself gives it no keys. -/
theorem Traced.frame (hj : n.Traced j)
    (hstored : ∀ key, n'.shard.store[key]? ≠ none → n.shard.store[key]? ≠ none ∨ Puts rs key)
    (hwaiting : ∀ e ∈ n'.shard.events.waiting, e.change ≠ .delete →
      e ∈ n.shard.events.waiting ∨ n.shard.store[e.key]? ≠ none ∨ Puts rs e.key)
    (hknown : ∀ key, n'.keeper.policy.tracks key = true ∨ n'.keeper.indexed key ≠ none →
      n.keeper.policy.tracks key = true ∨ n.keeper.indexed key ≠ none)
    (hissued : ∀ origin ticket r, .accepted origin ticket r ∈ rs → origin = .caller) :
    n'.Traced (j ++ rs) := by
  constructor
  · intro key hkey
    rw [puts_append]
    exact (hstored key hkey).imp_left (hj.stored key)
  · intro e he hchange
    rw [puts_append]
    rcases hwaiting e he hchange with he | hkey | hputs
    · exact Or.inl (hj.waiting e he hchange)
    · exact Or.inl (hj.stored e.key hkey)
    · exact Or.inr hputs
  · intro key hkey
    rw [puts_append]
    exact Or.inl (hj.known key (hknown key hkey))
  · intro origin ticket r hr horigin
    rw [puts_append]
    rcases List.mem_append.mp hr with hr | hr
    · exact (hj.issued origin ticket r hr horigin).imp_right Or.inl
    · exact absurd (hissued origin ticket r hr) horigin

theorem Traced.turn (hj : n.Traced j) {now : UInt64} {s' : Shard} {handed : Option (Nat × Call)}
    {away : List Nat} (h : n.shard.Turn now rs (s', handed)) :
    { n with shard := s', away }.Traced (j ++ rs) := by
  refine hj.frame (fun key => h.stored) (fun e he hchange => ?_) (fun key => id) ?_
  · simp only [h.events.2.1] at he
    exact (List.mem_append.mp he).imp_right fun htold => h.told htold hchange
  · intro origin ticket r hr
    have hmem : (ticket, r) ∈ accepted rs := List.mem_filterMap.mpr ⟨_, hr, rfl⟩
    rw [h.queue.2.1] at hmem
    cases hmem

theorem Traced.move (hj : n.Traced j) (hk : n.keeper.Sound) {listing : Listing} {clock : Clock}
    {s' : Shard} {k' : Keeper} (h : Keeper.Move listing clock n.shard n.keeper rs s' k') :
    { n with shard := s', keeper := k' }.Traced (j ++ rs) := by
  constructor
  · intro key hkey
    simp only [h.frame.2.2.2.1] at hkey
    rw [puts_append]
    exact Or.inl (hj.stored key hkey)
  · intro e he hchange
    rw [puts_append]
    refine Or.inl (hj.waiting e ?_ hchange)
    rw [← h.events.2]
    exact List.mem_append_right _ he
  · intro key hknown
    rw [puts_append]
    rcases h.known hk hknown with hbefore | ⟨e, he, rfl, hchange⟩
    · exact Or.inl (hj.known key hbefore)
    · exact Or.inl (hj.waiting e he hchange)
  · intro origin ticket r hr horigin
    rw [puts_append]
    rcases List.mem_append.mp hr with hr | hr
    · exact (hj.issued origin ticket r hr horigin).imp_right Or.inl
    · exact (h.issued hk hr).imp_right fun hknown => Or.inl (hj.known r.key hknown)

theorem Traced.step (hj : n.Traced j) (hk : n.keeper.Sound) (h : n.Step a rs n') :
    n'.Traced (j ++ rs) := by
  cases h with
  | accept r hnone =>
      refine hj.frame (fun key => Or.inl) (fun e he _ => Or.inl he) (fun key => id) ?_
      intro origin ticket r' hr
      simp only [List.mem_singleton, Record.accepted.injEq] at hr
      exact hr.1
  | refuse r failure hrefusal =>
      exact hj.frame (fun key => Or.inl) (fun e he _ => Or.inl he) (fun key => id) (by simp)
  | turn now fatal records shard hturn => exact hj.turn hturn
  | handOn now ticket call shard records hturn => exact hj.turn hturn
  | perish now ticket call shard records hturn =>
      -- The worker hands the request on as in any other turn; then its store goes with it.
      have hdone : Traced { n with shard, away := n.away } (j ++ rs) := hj.turn hturn
      rw [← List.append_nil (j ++ rs)]
      refine hdone.frame (fun key hkey => ?_) (fun e he _ => Or.inl he) (fun key => id) (by simp)
      exact absurd Std.ExtTreeMap.getElem?_empty hkey
  | begin clock hstage =>
      refine hj.frame (fun key => Or.inl) (fun e he _ => Or.inl he) (fun key => ?_) (by simp)
      have hpending : n.keeper.stage.pending = [] := by rw [hstage]; rfl
      rw [Keeper.indexed_of_pending rfl, Keeper.indexed_of_pending hpending]
      exact id
  | move listing clock records shard keeper hmove => exact hj.move hk hmove
  | close =>
      exact hj.frame (fun key => Or.inl) (fun e he _ => by cases he) (fun key => id) (by simp)
  | _ => exact hj.frame (fun key => Or.inl) (fun e he _ => Or.inl he) (fun key => id) (by simp)

theorem traced_run (settings : Settings) (ring : Ring) (senders pollMs : Nat) (acts : List Act) :
    ((make settings ring senders pollMs).run acts).keeper.Sound ∧
      ((make settings ring senders pollMs).run acts).Traced
        ((make settings ring senders pollMs).journal acts) := by
  induction acts using List.reverseRecOn with
  | nil =>
      refine ⟨Keeper.sound_make _ _ _, fun key hkey => ?_, fun e he => ?_, fun key hknown => ?_,
        fun origin ticket r hr => ?_⟩
      · exact absurd Std.ExtTreeMap.getElem?_empty hkey
      · cases he
      · obtain ⟨_, _, htracks, hindexed⟩ :=
          (agrees_make settings ring senders pollMs key).silent rfl
        simp [htracks, hindexed] at hknown
      · cases hr
  | append_singleton acts a ih =>
      obtain ⟨hk, hj⟩ := ih
      rw [run_concat, journal_concat]
      have hstep := ((make settings ring senders pollMs).run acts).step_act a
      exact ⟨hstep.keeper_sound hk, hj.step hk hstep⟩

/-! ## When the worker comes to the deletion -/

theorem ring_run {acts : List Act} (hkeeps : ∀ a ∈ acts, a.keepsMembers = true) :
    (n.run acts).shard.ring = n.shard.ring := by
  induction acts generalizing n with
  | nil => rfl
  | cons a acts ih =>
      obtain ⟨ha, hacts⟩ := List.forall_mem_cons.mp hkeeps
      exact (ih hacts).trans ((n.step_act a).ring ha)

/-- The node owned a key that its worker has put. -/
theorem Step.isLocal_of_puts (h : n.Step a rs n') {key : String} (hputs : Puts rs key) :
    n'.shard.ring.isLocal key = true := by
  obtain ⟨x, hx, value, ttl, hrequest⟩ := hputs
  rcases h.executed_cases with hnone | ⟨now, ticket, r, rest, _, hlocal, hexecuted, _, rfl⟩
  · rw [hnone] at hx
    cases hx
  · rw [hexecuted, List.mem_singleton] at hx
    obtain rfl : r = ⟨key, .put value ttl⟩ := by rw [← hrequest, hx]
    simpa using hlocal

/-- The membership has changed since the worker last put a key. -/
def MovedSincePut (start : Node) (acts : List Act) (key : String) : Prop :=
  ∃ before a after, acts = before ++ a :: after ∧ Puts ((start.run before).records a) key ∧
    ¬ Puts (((start.run before).act a).journal after) key ∧ ∃ b ∈ after, b.keepsMembers = false

theorem exists_last_put {start : Node} {acts : List Act} {key : String}
    (h : Puts (start.journal acts) key) :
    ∃ before a after, acts = before ++ a :: after ∧ Puts ((start.run before).records a) key ∧
      ¬ Puts (((start.run before).act a).journal after) key := by
  induction acts using List.reverseRecOn with
  | nil => exact absurd h (not_puts_of_executed_nil rfl key)
  | append_singleton acts a ih =>
      by_cases hlast : Puts ((start.run acts).records a) key
      · exact ⟨acts, a, [], rfl, hlast, not_puts_of_executed_nil rfl key⟩
      · rw [journal_concat, puts_append, or_iff_left hlast] at h
        obtain ⟨before, b, after, rfl, hput, hnone⟩ := ih h
        refine ⟨before, b, after ++ [a], by simp, hput, ?_⟩
        rw [journal_concat, puts_append, not_or]
        refine ⟨hnone, ?_⟩
        rwa [run_append] at hlast

/-- A node that has put a key and does not own it has seen its membership change since. -/
theorem movedSincePut_of_foreign {start : Node} {acts : List Act} {key : String}
    (hputs : Puts (start.journal acts) key)
    (hforeign : (start.run acts).shard.ring.isLocal key = false) :
    start.MovedSincePut acts key := by
  obtain ⟨before, a, after, rfl, hput, hnone⟩ := exists_last_put hputs
  refine ⟨before, a, after, rfl, hput, hnone, ?_⟩
  by_contra hkeeps
  have hsame : ∀ b ∈ after, b.keepsMembers = true := by simpa using hkeeps
  have hlocal := ((start.run before).step_act a).isLocal_of_puts hput
  have hrun : start.run (before ++ a :: after) = ((start.run before).act a).run after := by
    rw [run_append]
    rfl
  rw [hrun, ring_run hsame, hlocal] at hforeign
  cases hforeign

theorem work_deletion {ticket : Nat} {r : Request} {rest : List (Nat × Request)} (now : UInt64)
    (fatal : Bool) (hnext : n.shard.queue = (ticket, r) :: rest) (hdelete : r.command = .delete)
    (hlocal : n.shard.ring.isLocal r.key = true) :
    (n.shard.work now).2 = none ∧ .executed ⟨now, ticket, r⟩ ∈ n.records (.work now fatal) ∧
      ∀ key, (n.act (.work now fatal)).shard.store[key]? =
        if key = r.key then none else n.shard.store[key]? := by
  have hwork : n.shard.work now = _ := Shard.work_of_local hnext hlocal
  refine ⟨by rw [hwork], ?_, fun key => ?_⟩
  · simp [records, Record.ofWork, hnext, hlocal]
  · simp only [act, hwork, Shard.lookup_execute, hdelete, Command.leaves]

theorem work_foreign {ticket : Nat} {r : Request} {rest : List (Nat × Request)} (now : UInt64)
    (fatal : Bool) (hnext : n.shard.queue = (ticket, r) :: rest)
    (hforeign : n.shard.ring.isLocal r.key = false) :
    (fatal = false → (n.act (.work now fatal)).shard.store = n.shard.store) ∧
      (∀ address, n.shard.ring.address? (n.shard.ring.owner r.key) = some address →
        (n.shard.work now).2 = some (ticket, ⟨address, r⟩)) ∧
      (n.shard.ring.address? (n.shard.ring.owner r.key) = none →
        (n.shard.work now).2 = none ∧ (n.act (.work now fatal)).shard.replies[ticket]? =
          some (.failed (.addressUnknown (n.shard.ring.owner r.key)))) := by
  cases haddress : n.shard.ring.address? (n.shard.ring.owner r.key) with
  | none =>
      have hwork : n.shard.work now = _ := Shard.work_of_unknown hnext hforeign haddress
      refine ⟨fun _ => ?_, fun known hknown => ?_, fun _ => ⟨by rw [hwork], ?_⟩⟩
      · simp only [act, hwork]
        rfl
      · cases hknown
      · simp only [act, hwork]
        exact Std.ExtTreeMap.getElem?_insert_self
  | some address =>
      have hwork : n.shard.work now = _ := Shard.work_of_known hnext hforeign haddress
      refine ⟨fun hsafe => ?_, fun known hknown => ?_, fun hunknown => ?_⟩
      · simp only [act, hwork, hsafe, Bool.false_eq_true, if_false]
      · rw [hwork, Option.some.inj hknown]
      · cases hunknown

/-- A deletion that the keeper has submitted is executed when the worker comes to it, and the key
is stored no more, if the node owns the key at that moment.  If it does not, then the membership
has changed since the key was put, the deletion goes the way of any other request, and the store
stays as it is unless the worker dies of the call. -/
theorem keeper_deletion (settings : Settings) (ring : Ring) (senders pollMs : Nat)
    (acts : List Act) (origin : Origin) (ticket : Nat) (r : Request)
    (rest : List (Nat × Request)) (now : UInt64) (fatal : Bool)
    (hissued : .accepted origin ticket r ∈ (make settings ring senders pollMs).journal acts)
    (horigin : origin ≠ .caller)
    (hnext : ((make settings ring senders pollMs).run acts).shard.queue = (ticket, r) :: rest) :
    let start := make settings ring senders pollMs
    let n := start.run acts
    let m := n.act (.work now fatal)
    r.command = .delete ∧
      (n.shard.ring.isLocal r.key = true → (n.shard.work now).2 = none ∧
        .executed ⟨now, ticket, r⟩ ∈ n.records (.work now fatal) ∧
        ∀ key, m.shard.store[key]? = if key = r.key then none else n.shard.store[key]?) ∧
      (n.shard.ring.isLocal r.key = false → start.MovedSincePut acts r.key ∧
        (fatal = false → m.shard.store = n.shard.store) ∧
        (∀ address, n.shard.ring.address? (n.shard.ring.owner r.key) = some address →
          (n.shard.work now).2 = some (ticket, ⟨address, r⟩)) ∧
        (n.shard.ring.address? (n.shard.ring.owner r.key) = none →
          (n.shard.work now).2 = none ∧ m.shard.replies[ticket]? =
            some (.failed (.addressUnknown (n.shard.ring.owner r.key))))) ∧
      ((∀ a ∈ acts, a.keepsMembers = true) →
        (n.shard.work now).2 = none ∧ m.shard.store[r.key]? = none) := by
  intro start n m
  obtain ⟨_, htraced⟩ := traced_run settings ring senders pollMs acts
  obtain ⟨hdelete, hputs⟩ := htraced.issued origin ticket r hissued horigin
  refine ⟨hdelete, fun hlocal => work_deletion now fatal hnext hdelete hlocal,
    fun hforeign => ⟨movedSincePut_of_foreign hputs hforeign, work_foreign now fatal hnext hforeign⟩,
    fun hkeeps => ?_⟩
  cases hlocal : n.shard.ring.isLocal r.key with
  | true =>
      obtain ⟨hnone, _, hstore⟩ := work_deletion now fatal hnext hdelete hlocal
      exact ⟨hnone, by rw [hstore, if_pos rfl]⟩
  | false =>
      obtain ⟨before, a, after, hacts, _, _, b, hb, hmoves⟩ :=
        movedSincePut_of_foreign hputs hlocal
      have hkept := hkeeps b (by rw [hacts]; simp [hb])
      rw [hmoves] at hkept
      cases hkept

/-- The settings of a node that is alone with one position. -/
def aloneSettings : Settings := { nodeId := "a", replicas := 1, members := [⟨"a", "A"⟩] }

def alone : Node := make aloneSettings aloneSettings.ring 1 0

/-- A key is put for five seconds, the membership changes or not, and the sweep after five
seconds has the key deleted. -/
def sweepAtFive (changes : List Act) : List Act :=
  putAndPass ++ changes ++ [.begin ⟨5, 0⟩] ++ stepsAtFive 3

/-- With the membership as it was, and with a member that has come to own the key. -/
theorem keeper_deletion_of_swept :
    ((alone.run (sweepAtFive [])).act (.work 5 false)).shard.store["k"]? = none ∧
      alone.MovedSincePut (sweepAtFive [.join "b" "B"]) "k" := by
  constructor
  · obtain ⟨_, _, _, hkept⟩ := keeper_deletion aloneSettings aloneSettings.ring 1 0 (sweepAtFive [])
      .expiry 1 ⟨"k", .delete⟩ [] 5 false (by decide +kernel) (by decide) (by decide +kernel)
    have hgone := (hkept (by decide +kernel)).2
    rwa [← alone] at hgone
  · obtain ⟨_, _, hforeign, _⟩ := keeper_deletion aloneSettings aloneSettings.ring 1 0
      (sweepAtFive [.join "b" "B"]) .expiry 1 ⟨"k", .delete⟩ [] 5 false (by decide +kernel)
      (by decide) (by decide +kernel)
    exact (hforeign (by decide +kernel)).1

/-- A deletion of the keeper is handed on to another node, and the key stays stored. -/
theorem keeper_deletion_handed_on :
    let n := alone.run (sweepAtFive [.join "b" "B"])
    .accepted .expiry 1 ⟨"k", .delete⟩ ∈ alone.journal (sweepAtFive [.join "b" "B"]) ∧
      n.shard.queue = [(1, ⟨"k", .delete⟩)] ∧
      (n.shard.work 5).2 = some (1, ⟨"B", ⟨"k", .delete⟩⟩) ∧
      (n.act (.work 5 false)).shard.store["k"]? = some ⟨"a", 0, 5⟩ := by
  decide +kernel

end Node

end ClusterCache
