import ClusterCache.Proofs.Hearing
import ClusterCache.Proofs.Sequential

/-!
# Why a key is deleted as expired

The sweep of expired keys goes by what the keeper has heard.  A key is deleted because the entry
of its last put that was heard has expired.  The deletion takes away whatever entry the key has
when its turn comes, and that may be another one: its put may have waited in the queue behind
nothing but the deletion, its event may have waited to be heard, or its event was lost.
-/

namespace ClusterCache.Node

open Journal Std

variable {n n' m m' : Node} {j rs : Journal} {a : Act} {key : String}

/-! ## What the keeper goes by -/

/-- The keeper has the time of a key from the last put of the key that it has heard. -/
def Heard (n : Node) (j : Journal) (key : String) : Prop :=
  ∀ time, n.keeper.indexed key = some time →
    ∃ x, lastHeard j key = some (.put (some x)) ∧ x.expires = time

/-- Every put that waits to be heard carries its entry. -/
def Telling (n : Node) : Prop := ∀ e ∈ n.shard.events.waiting, e.change ≠ .put none

theorem told_of_turn {s s' : Shard} {now : UInt64} {handed : Option (Nat × Call)}
    (h : s.Turn now rs (s', handed)) : ∀ e ∈ told rs, e.change ≠ .put none := by
  have hoffered : ∀ p ∈ offered rs, p.1.change ≠ .put none := by
    cases h with
    | execute ticket r rest hqueue hlocal =>
        rw [offered_execution]
        intro p hp hnone
        obtain ⟨c, hc, rfl⟩ := Option.map_eq_some_iff.mp (Option.mem_toList.mp hp)
        obtain rfl : c = .put none := hnone
        exact (Command.leaves_of_tells_put hc).2 rfl
    | _ => exact fun p hp => (by cases hp)
  intro e he
  obtain ⟨p, hp, hsome⟩ := List.mem_filterMap.mp he
  obtain ⟨_, heq⟩ := Option.ite_none_right_eq_some.mp hsome
  exact Option.some.inj heq ▸ hoffered p hp

theorem Telling.step (hn : n.Telling) (h : n.Step a rs n') (hkeeps : a.keepsReader = true)
    (hreader : n.shard.events.hasReader = true) : n'.Telling := by
  have htold : ∀ e ∈ told rs, e.change ≠ .put none := by
    cases h with
    | turn now fatal records shard hturn => exact told_of_turn hturn
    | handOn now ticket call shard records hturn => exact told_of_turn hturn
    | perish now ticket call shard records hturn => exact told_of_turn hturn
    | move listing clock records shard keeper hmove =>
        rw [told, hmove.quiet.2.2]
        exact fun e he => absurd he List.not_mem_nil
    | _ => exact fun e he => absurd he List.not_mem_nil
  intro e he
  have hall := (h.events hkeeps hreader).2.2
  have hmem : e ∈ n.shard.events.waiting ++ told rs := by
    rw [← hall]
    exact List.mem_append_right _ he
  rcases List.mem_append.mp hmem with hmem | hmem
  · exact hn e hmem
  · exact htold e hmem

theorem Heard.frame (hj : n.Heard j key) (hindexed : n'.keeper.indexed key = n.keeper.indexed key)
    (hnone : ∀ e ∈ observed rs, e.key = key → e.change = .get) : n'.Heard (j ++ rs) key := by
  intro time htime
  rw [lastHeard_append, lastHeard_eq_none hnone, Option.none_or]
  exact hj time (hindexed ▸ htime)

theorem Heard.hear (hj : n.Heard j key) (hk : n.keeper.Sound) {e : Event} {left : Nat}
    (hobserved : observed rs = [e]) (hkey : e.key = key) (hchange : e.change ≠ .put none)
    (hpending : n.keeper.stage.pending = [])
    (hkeeper : n'.keeper = { n.keeper.observe e with stage := .draining left }) :
    n'.Heard (j ++ rs) key := by
  subst hkey
  intro time htime
  rw [hkeeper, Keeper.indexed_of_pending rfl] at htime
  rw [lastHeard_append]
  cases hc : e.change with
  | get =>
      rw [lastHeard_eq_none (by simpa [hobserved] using hc), Option.none_or]
      apply hj time
      rw [Keeper.indexed_of_pending hpending, ← htime]
      simp [Keeper.observe, hc]
  | delete =>
      have hgone := (Keeper.observe_delete hk e.key).2
      have he : e = ⟨e.key, .delete⟩ := by rw [← hc]
      rw [← he] at hgone
      rw [hgone] at htime
      cases htime
  | put entry =>
      cases entry with
      | none => exact absurd hc hchange
      | some x =>
          have hput := (Keeper.observe_put hk e.key x).2
          have he : e = ⟨e.key, .put (some x)⟩ := by rw [← hc]
          rw [← he, htime] at hput
          refine ⟨x, ?_, (Option.some.inj hput).symm⟩
          rw [lastHeard_of_observed hobserved (by simp [hc]), hc, Option.some_or]

theorem Heard.step (hj : n.Heard j key) (hk : n.keeper.Sound) (htelling : n.Telling)
    (h : n.Step a rs n') : n'.Heard (j ++ rs) key := by
  have hturn : ∀ {now s' handed}, n.shard.Turn now rs (s', handed) →
      ∀ e ∈ observed rs, e.key = key → e.change = .get := by
    intro now s' handed hturn e he
    rw [hturn.queue.2.2] at he
    cases he
  cases h with
  | turn now fatal records shard h => exact hj.frame rfl (hturn h)
  | handOn now ticket call shard records h => exact hj.frame rfl (hturn h)
  | perish now ticket call shard records h => exact hj.frame rfl (hturn h)
  | begin clock hstage =>
      refine hj.frame ?_ fun e he => (by cases he)
      rw [Keeper.indexed_of_pending rfl, Keeper.indexed_of_pending (by rw [hstage]; rfl)]
      rfl
  | move listing clock records shard keeper hmove =>
      rcases hmove.view hk key with ⟨_, hindexed, hother⟩ |
        ⟨e, left, hobserved, hkey, hpending, hkeeper⟩ | ⟨_, _, _, hindexed⟩
      · apply hj.frame hindexed
        intro e he hkey
        rcases hmove.observed with hnil | ⟨e', hone, _⟩
        · rw [hnil] at he
          cases he
        · rw [hone, List.mem_singleton] at he
          subst he
          exact absurd hkey (hother e hone)
      · refine hj.hear hk hobserved hkey (htelling e ?_) hpending hkeeper
        rw [← hmove.events.2, hobserved]
        simp
      · intro time htime
        rw [hindexed] at htime
        cases htime
  | _ => exact hj.frame rfl fun e he => (by cases he)

/-! ## When the sweep takes place -/

/-- The sweep goes by a time at which the clock has been read, and the bucket at hand was due
then. -/
def Timed (n : Node) (times : List UInt64) : Prop :=
  ∀ now time keys issued, n.keeper.stage = .expiring now time keys issued →
    now ∈ times ∧ (keys ≠ [] → time ≤ now)

theorem Timed.step {times : List UInt64} (hn : n.Timed times) (h : n.Step a rs n') :
    n'.Timed (times ++ a.time?.toList) := by
  have hsame : ∀ {stage}, n.keeper.stage = stage → ∀ now time keys issued,
      stage = .expiring now time keys issued →
      now ∈ times ++ a.time?.toList ∧ (keys ≠ [] → time ≤ now) := by
    rintro stage rfl now time keys issued hstage
    obtain ⟨hmem, hdue⟩ := hn now time keys issued hstage
    exact ⟨List.mem_append_left _ hmem, hdue⟩
  intro now time keys issued hstage
  cases h with
  | begin clock hresting => cases hstage
  | move listing clock records shard keeper hmove =>
      cases hmove with
      | sweep hfrom =>
          obtain ⟨rfl, rfl, rfl, rfl⟩ := Stage.expiring.inj hstage
          exact ⟨by simp [Act.time?], fun hne => absurd rfl hne⟩
      | bucket now' time' is' issued' keys' x hbefore hearliest hpoll hdue =>
          obtain ⟨rfl, rfl, rfl, rfl⟩ := Stage.expiring.inj hstage
          obtain ⟨hmem, _⟩ := hn _ _ _ _ hbefore
          exact ⟨List.mem_append_left _ hmem, fun _ => hdue⟩
      | expire now' time' victim rest issued' hbefore hnone =>
          obtain ⟨rfl, rfl, rfl, rfl⟩ := Stage.expiring.inj hstage
          obtain ⟨hmem, hdue⟩ := hn _ _ _ _ hbefore
          exact ⟨List.mem_append_left _ hmem, fun _ => hdue (List.cons_ne_nil _ _)⟩
      | _ => cases hstage
  | _ => exact hsame rfl now time keys issued hstage

/-! ## What a deletion finds -/

/-- A deletion is in the queue of `m`, behind requests that were in the queue of `n` already.  An
entry that its key has now it had then, and no deletion of the key has come in between, or it is
of a put that was in the queue then. -/
structure Ahead (n m : Node) (ticket : Nat) (key : String) (left later : List (Nat × Request)) :
    Prop where
  queue : m.shard.queue = left ++ (ticket, ⟨key, .delete⟩) :: later
  given : ticket < m.shard.tickets
  old : ∀ p ∈ left, p ∈ n.shard.queue
  later : ∀ p ∈ later, p.1 ≠ ticket
  own : m.shard.ring.isLocal key = true
  entry : ∀ e, m.shard.store[key]? = some e →
    (n.shard.store[key]? = some e ∧
      ∀ t, (t, ⟨key, .delete⟩) ∈ n.shard.queue → (t, ⟨key, .delete⟩) ∈ left) ∨
    ∃ t value ttl now, (t, ⟨key, .put value ttl⟩) ∈ n.shard.queue ∧ e = Entry.make value now ttl

/-- No request with a ticket is in the queue, and none will be. -/
def Past (m : Node) (ticket : Nat) : Prop :=
  ticket < m.shard.tickets ∧ ∀ p ∈ m.shard.queue, p.1 ≠ ticket

section Ahead

variable {ticket : Nat} {left later : List (Nat × Request)}

theorem Step.tickets_of_accepted (h : m.Step a rs m') :
    m.shard.tickets ≤ m'.shard.tickets ∧ ∀ p ∈ accepted rs, m.shard.tickets ≤ p.1 := by
  have hrange := h.tickets
  have hlength := congrArg List.length hrange
  simp only [List.length_append, List.length_range, List.length_map] at hlength
  have hnodup : (List.range m'.shard.tickets).Nodup := List.nodup_range
  rw [hrange, List.nodup_append] at hnodup
  refine ⟨by omega, fun p hp => ?_⟩
  by_contra hlt
  exact hnodup.2.2 p.1 (List.mem_range.mpr (by omega)) p.1 (List.mem_map_of_mem hp) rfl

theorem Past.step (hm : m.Past ticket) (h : m.Step a rs m') : m'.Past ticket := by
  obtain ⟨hle, haccepted⟩ := h.tickets_of_accepted
  refine ⟨Nat.lt_of_lt_of_le hm.1 hle, fun p hp => ?_⟩
  have hmem := h.queue_prefix.subset (List.mem_append_right _ hp)
  rcases List.mem_append.mp hmem with hold | hnew
  · exact hm.2 p hold
  · have hlater := haccepted p hnew
    have hgiven := hm.1
    omega

theorem Past.run (hm : m.Past ticket) (acts : List Act) : (m.run acts).Past ticket := by
  induction acts generalizing m with
  | nil => exact hm
  | cons a acts ih => exact ih (hm.step (m.step_act a))

theorem Ahead.behind (h : n.Ahead m ticket key left later) {more : List (Nat × Request)}
    (hring : m'.shard.ring = m.shard.ring) (hstore : m'.shard.store = m.shard.store)
    (hqueue : m'.shard.queue = m.shard.queue ++ more)
    (htickets : m.shard.tickets ≤ m'.shard.tickets) (hmore : ∀ p ∈ more, m.shard.tickets ≤ p.1) :
    n.Ahead m' ticket key left (later ++ more) := by
  refine ⟨?_, Nat.lt_of_lt_of_le h.given htickets, h.old, fun p hp => ?_, ?_, ?_⟩
  · rw [hqueue, h.queue, List.append_assoc, List.cons_append]
  · rcases List.mem_append.mp hp with hp | hp
    · exact h.later p hp
    · have hgiven := h.given
      have hnew := hmore p hp
      omega
  · rw [hring]
    exact h.own
  · rw [hstore]
    exact h.entry

/-- A request ahead of the deletion is taken that does not change the entry. -/
theorem Ahead.pass {p : Nat × Request} (h : n.Ahead m ticket key (p :: left) later)
    (hring : m'.shard.ring = m.shard.ring) (hqueue : m'.shard.queue = left ++
      (ticket, ⟨key, .delete⟩) :: later)
    (htickets : m'.shard.tickets = m.shard.tickets) (hdelete : p.2 ≠ ⟨key, .delete⟩)
    (hstore : ∀ e, m'.shard.store[key]? = some e → m.shard.store[key]? = some e) :
    n.Ahead m' ticket key left later := by
  refine ⟨hqueue, htickets ▸ h.given, fun q hq => h.old q (List.mem_cons_of_mem p hq), h.later,
    hring ▸ h.own, fun e he => ?_⟩
  rcases h.entry e (hstore e he) with ⟨hold, hdeletions⟩ | hput
  · refine Or.inl ⟨hold, fun t ht => ?_⟩
    rcases List.mem_cons.mp (hdeletions t ht) with heq | hmem
    · exact absurd (congrArg Prod.snd heq).symm hdelete
    · exact hmem
  · exact Or.inr hput

theorem Ahead.execute {t : Nat} {r : Request} {now : UInt64}
    (h : n.Ahead m ticket key ((t, r) :: left) later) (hshard : m'.shard = Shard.execute
      { m.shard with queue := left ++ (ticket, ⟨key, .delete⟩) :: later } now t r) :
    n.Ahead m' ticket key left later := by
  have hring : m'.shard.ring = m.shard.ring := by simp [hshard]
  have hqueue : m'.shard.queue = left ++ (ticket, ⟨key, .delete⟩) :: later := by simp [hshard]
  have htickets : m'.shard.tickets = m.shard.tickets := by simp [hshard]
  have hstore : m'.shard.store[key]? =
      if key = r.key then r.command.leaves now m.shard.store[r.key]? else m.shard.store[key]? := by
    rw [hshard, Shard.lookup_execute]
  obtain ⟨k, command⟩ := r
  by_cases hkey : key = k
  · subst hkey
    rw [if_pos rfl] at hstore
    cases command with
    | get =>
        apply h.pass hring hqueue htickets (by simp)
        intro e he
        rw [hstore] at he
        exact (Option.filter_eq_some_iff.mp he).1
    | put value ttl =>
        refine ⟨hqueue, htickets ▸ h.given, fun q hq => h.old q (List.mem_cons_of_mem _ hq),
          h.later, hring ▸ h.own, fun e he => Or.inr ⟨t, value, ttl, now, ?_, ?_⟩⟩
        · exact h.old _ List.mem_cons_self
        · rw [hstore] at he
          exact (Option.some.inj he).symm
    | delete =>
        refine ⟨hqueue, htickets ▸ h.given, fun q hq => h.old q (List.mem_cons_of_mem _ hq),
          h.later, hring ▸ h.own, fun e he => ?_⟩
        rw [hstore] at he
        cases he
  · rw [if_neg hkey] at hstore
    refine h.pass hring hqueue htickets (fun heq => ?_) fun e he => hstore ▸ he
    exact hkey (congrArg Request.key heq).symm

theorem Ahead.skip {p : Nat × Request} {rest : List (Nat × Request)}
    (h : n.Ahead m ticket key left later) (hhead : m.shard.queue = p :: rest)
    (hforeign : m.shard.ring.isLocal p.2.key = false) (hring : m'.shard.ring = m.shard.ring)
    (hqueue : m'.shard.queue = rest) (htickets : m'.shard.tickets = m.shard.tickets)
    (hstore : m'.shard.store = m.shard.store) :
    ∃ left' later', n.Ahead m' ticket key left' later' := by
  have hne : p.2 ≠ ⟨key, .delete⟩ := by
    intro heq
    rw [heq, h.own] at hforeign
    cases hforeign
  rw [h.queue] at hhead
  cases left with
  | nil => exact absurd (congrArg Prod.snd (List.cons.inj hhead).1).symm hne
  | cons q left =>
      obtain ⟨rfl, hrest⟩ := List.cons.inj hhead
      exact ⟨left, later,
        h.pass hring (hqueue.trans hrest.symm) htickets hne fun e he => hstore ▸ he⟩

theorem Ahead.step (h : n.Ahead m ticket key left later) (hstep : m.Step a rs m')
    (hkeeps : a.keepsMembers = true) (halive : m'.shard.alive = true) :
    (∃ left' later', n.Ahead m' ticket key left' later') ∨ m'.Past ticket := by
  obtain ⟨hle, haccepted⟩ := hstep.tickets_of_accepted
  have hring := hstep.ring hkeeps
  cases hstep with
  | accept r hnone =>
      refine Or.inl ⟨left, _, h.behind hring rfl rfl hle fun p hp => ?_⟩
      obtain rfl := List.mem_singleton.mp hp
      exact Nat.le_refl _
  | turn now fatal records shard hturn =>
      cases hturn with
      | idle hnil =>
          have hqueue := h.queue
          rw [hnil] at hqueue
          exact absurd hqueue.symm (by simp)
      | execute t r rest hhead hlocal =>
          have hqueue := h.queue
          rw [hhead] at hqueue
          -- With nothing ahead of it, the deletion itself is what is executed.
          cases left with
          | nil =>
              obtain ⟨_, rfl⟩ := List.cons.inj hqueue
              refine Or.inr ⟨Nat.lt_of_lt_of_le h.given hle, fun p hp => ?_⟩
              rw [Shard.execute_queue] at hp
              exact h.later p hp
          | cons p left =>
              obtain ⟨rfl, rfl⟩ := List.cons.inj hqueue
              exact Or.inl ⟨left, later, h.execute rfl⟩
      | giveUp t r rest hhead hforeign haddress =>
          exact Or.inl (h.skip hhead hforeign rfl rfl rfl rfl)
  | handOn now t call shard records hturn =>
      cases hturn with
      | handOn t r rest address hhead hforeign haddress =>
          exact Or.inl (h.skip hhead hforeign rfl rfl rfl rfl)
  | perish now t call shard records hturn => cases halive
  | move listing clock records shard keeper hmove =>
      have hstore := hmove.frame.2.2.2.1
      rcases hmove.queue with ⟨_, hqueue, _⟩ | ⟨_, _, haccept, hqueue, _⟩
      · refine Or.inl ⟨left, later ++ [], h.behind hring hstore ?_ hle ?_⟩
        · rw [List.append_nil]
          exact hqueue
        · exact fun p hp => absurd hp List.not_mem_nil
      · refine Or.inl ⟨left, _, h.behind hring hstore hqueue hle fun p hp => haccepted p ?_⟩
        rw [haccept]
        exact hp
  | _ =>
      exact Or.inl ⟨left, later ++ [], h.behind hring rfl (List.append_nil _).symm hle
        fun p hp => absurd hp List.not_mem_nil⟩

theorem Ahead.run {acts : List Act} (h : n.Ahead m ticket key left later)
    (hkeeps : ∀ a ∈ acts, a.keepsMembers = true) (halive : (m.run acts).shard.alive = true) :
    (∃ left' later', n.Ahead (m.run acts) ticket key left' later') ∨ (m.run acts).Past ticket := by
  induction acts generalizing m left later with
  | nil => exact Or.inl ⟨left, later, h⟩
  | cons a acts ih =>
      obtain ⟨ha, hacts⟩ := List.forall_mem_cons.mp hkeeps
      have hnext : ((m.act a).run acts).shard.alive = true := halive
      rcases h.step (m.step_act a) ha (alive_of_run hnext) with ⟨left', later', h'⟩ | hpast
      · exact ih h' hacts hnext
      · exact Or.inr (hpast.run acts)

end Ahead

/-! ## Why -/

/-- A run in which the clock never goes back. -/
def Onward (acts : List Act) : Prop := (acts.filterMap Act.time?).Pairwise (· ≤ ·)

instance (acts : List Act) : Decidable (Onward acts) :=
  inferInstanceAs (Decidable ((acts.filterMap Act.time?).Pairwise (· ≤ ·)))

/-- The put of an entry has not reached the keeper: it waits to be executed, or its event waits
to be heard, or its event was lost and nothing has been put or deleted since. -/
inductive Unheard (n : Node) (j : Journal) (key : String) (e : Entry) : Prop where
  | asked (ticket : Nat) (value : String) (ttl now : UInt64)
      (hqueue : (ticket, ⟨key, .put value ttl⟩) ∈ n.shard.queue)
      (hentry : e = Entry.make value now ttl)
  | waiting (hwaiting : ⟨key, .put (some e)⟩ ∈ n.shard.events.waiting)
  | lost (hlost : lastChange j key = some (.put (some e), .full))

/-- In a run, the keeper submits the deletion of a key as expired, and when the worker comes to
execute it there is an entry. -/
structure ExpiryDeletion (start : Node) (before : List Act) (listing : Listing) (clock : Clock)
    (between : List Act) (now : UInt64) (fatal : Bool) (ticket : Nat) (key : String) (e : Entry) :
    Prop where
  issued : .accepted .expiry ticket ⟨key, .delete⟩ ∈
    (start.run before).records (.keep listing clock)
  executed : .executed ⟨now, ticket, ⟨key, .delete⟩⟩ ∈
    (start.run (before ++ .keep listing clock :: between)).records (.work now fatal)
  found : (start.run (before ++ .keep listing clock :: between)).shard.store[key]? = some e

theorem heard_run (settings : Settings) (ring : Ring) (senders pollMs : Nat) {acts : List Act}
    (hsteady : Steady acts) (key : String) :
    let n := (make settings ring senders pollMs).run acts
    n.keeper.Sound ∧ n.Telling ∧ n.Heard ((make settings ring senders pollMs).journal acts) key ∧
      n.Timed (acts.filterMap Act.time?) := by
  induction acts using List.reverseRecOn with
  | nil =>
      refine ⟨Keeper.sound_make _ _ _, fun e he => (by cases he), fun time htime => ?_,
        fun now time keys issued hstage => (by cases hstage)⟩
      rw [Keeper.indexed_of_pending rfl] at htime
      have hempty := ExpiryIndex.time?_empty key
      exact absurd (htime.symm.trans hempty) (by simp)
  | append_singleton acts a ih =>
      obtain ⟨hk, htelling, hheard, htimed⟩ := ih fun b hb => hsteady b (by simp [hb])
      have hreader := (told_run settings ring senders pollMs
        fun b hb => hsteady b (List.mem_append_left [a] hb)).1
      have hstep := ((make settings ring senders pollMs).run acts).step_act a
      have ha := (hsteady a (by simp)).2
      simp only [run_concat, journal_concat, List.filterMap_append]
      refine ⟨hstep.keeper_sound hk, htelling.step hstep ha hreader, hheard.step hk htelling hstep,
        ?_⟩
      have hlast : [a].filterMap Act.time? = a.time?.toList := by
        cases htime : a.time? <;> simp [htime]
      rw [hlast]
      exact htimed.step hstep

theorem expiry_issued {listing : Listing} {clock : Clock} {ticket : Nat}
    (h : .accepted .expiry ticket ⟨key, .delete⟩ ∈ n.records (.keep listing clock)) :
    ticket = n.shard.tickets ∧ n.shard.refusal? ⟨key, .delete⟩ = none ∧
      (∃ now time rest issued, n.keeper.stage = .expiring now time (key :: rest) issued) ∧
      (n.act (.keep listing clock)).shard =
        { n.shard.enqueue ⟨key, .delete⟩ with counters := n.shard.counters.expire } := by
  have hstep := n.step_act (.keep listing clock)
  generalize n.records (.keep listing clock) = rs at h hstep
  generalize n.act (.keep listing clock) = n' at hstep
  cases hstep with
  | stuck listing clock hstuck => cases h
  | move listing clock records shard keeper hmove =>
      cases hmove with
      | expire now time victim rest issued hstage hnone =>
          obtain ⟨rfl, rfl⟩ : ticket = n.shard.tickets ∧ key = victim := by simpa using h
          exact ⟨rfl, hnone, ⟨now, time, rest, issued, hstage⟩, rfl⟩
      | _ => simp at h

theorem executed_head {now : UInt64} {fatal : Bool} {x : Execution}
    (h : .executed x ∈ n.records (.work now fatal)) :
    x.now = now ∧ ∃ rest, n.shard.queue = (x.ticket, x.request) :: rest := by
  rw [records, Record.ofWork] at h
  split at h
  · cases h
  · rename_i ticket r rest hqueue
    split_ifs at h with hlocal
    · rcases List.mem_cons.mp h with heq | hmem
      · obtain rfl := Record.executed.inj heq
        exact ⟨rfl, rest, hqueue⟩
      · obtain ⟨c, _, hc⟩ := Option.map_eq_some_iff.mp (Option.mem_toList.mp hmem)
        cases hc
    · rw [List.mem_singleton] at h
      cases h

/-- What a deletion of a key finds is what the key had when it was submitted, or what a put has
stored that was in the queue already. -/
theorem found_of_deletion {settings : Settings} {ring : Ring} {senders pollMs : Nat}
    {before between : List Act} {listing : Listing} {clock : Clock} {now : UInt64} {fatal : Bool}
    {ticket : Nat} {e : Entry}
    (hsteady : Steady (before ++ .keep listing clock :: between))
    (h : ExpiryDeletion (make settings ring senders pollMs) before listing clock between now fatal
      ticket key e)
    (hlocal : ((make settings ring senders pollMs).run before).shard.ring.isLocal key = true) :
    let n := (make settings ring senders pollMs).run before
    (n.shard.store[key]? = some e ∧ ∀ t, (t, ⟨key, .delete⟩) ∉ n.shard.queue) ∨
      ∃ t value ttl time, (t, ⟨key, .put value ttl⟩) ∈ n.shard.queue ∧
        e = Entry.make value time ttl := by
  intro n
  obtain ⟨hexecuted, rest, hhead⟩ := executed_head h.executed
  have hfound := h.found
  have halive : ((make settings ring senders pollMs).run
      (before ++ .keep listing clock :: between)).shard.alive = true := by
    have horderly := (orderly_run settings ring senders pollMs
      (before ++ .keep listing clock :: between)).1
    by_contra hdead
    rw [horderly.dead (by simpa using hdead)] at hhead
    cases hhead
  obtain ⟨hticket, hnone, _, hshard⟩ := expiry_issued h.issued
  have htidy : n.Tidy := by
    apply tidy_run (tidy_make settings ring senders pollMs)
    exact (Shard.refusal?_eq_none hnone).2.1
  have hrun : (make settings ring senders pollMs).run (before ++ .keep listing clock :: between) =
      (n.act (.keep listing clock)).run between := by
    rw [run_append]
    rfl
  rw [hrun] at hhead hfound halive
  have hahead : n.Ahead (n.act (.keep listing clock)) ticket key n.shard.queue [] := by
    refine ⟨?_, ?_, fun p hp => hp, fun p hp => absurd hp List.not_mem_nil, ?_, fun e' he' => ?_⟩
    · rw [hshard, hticket]
      rfl
    · rw [hshard, hticket]
      exact Nat.lt_succ_self _
    · rw [hshard]
      exact hlocal
    · rw [hshard] at he'
      exact Or.inl ⟨he', fun t ht => ht⟩
  have hmembers : ∀ a ∈ between, a.keepsMembers = true := fun a ha =>
    (hsteady a (List.mem_append_right _ (List.mem_cons_of_mem _ ha))).1
  rcases hahead.run hmembers halive with ⟨left, later, hthen⟩ | hpast
  · have hleft : left = [] := by
      rw [hthen.queue] at hhead
      cases left with
      | nil => rfl
      | cons p left =>
          -- What is ahead of the deletion has an earlier ticket.
          have hearlier := (htidy.shard.asked p (hthen.old p List.mem_cons_self)).1
          rw [(List.cons.inj hhead).1] at hearlier
          have hsame : ticket = n.shard.tickets := hticket
          exact absurd hearlier (by simp [hsame])
    subst hleft
    rcases hthen.entry e hfound with ⟨hold, hdeletions⟩ | hput
    · exact Or.inl ⟨hold, fun t ht => absurd (hdeletions t ht) List.not_mem_nil⟩
    · exact Or.inr hput
  · exact absurd rfl (hpast.2 _ (hhead ▸ List.mem_cons_self))

/-- The keeper knows when a stored entry expires, unless its put has not reached it. -/
theorem Agrees.indexed_or_unheard {j : Journal} {e : Entry} (hj : n.Agrees j key)
    (hopen : ∀ p ∈ offered j, p.2 ≠ .closed) (hstored : n.shard.store[key]? = some e)
    (hdeletions : ∀ t, (t, ⟨key, .delete⟩) ∉ n.shard.queue) :
    n.keeper.indexed key = some e.expires ∨ Unheard n j key e := by
  have hchanged : lastChange j key ≠ none := by
    intro hsilent
    rw [(hj.silent hsilent).1] at hstored
    cases hstored
  obtain ⟨⟨c, o⟩, hc⟩ := Option.ne_none_iff_exists'.mp hchanged
  obtain ⟨hslot, hkind⟩ := hj.told c o hc
  rw [hstored] at hslot
  rcases hkind with rfl | ⟨entry, rfl⟩
  · cases hslot
  · obtain rfl : e = entry := Option.some.inj hslot
    cases o with
    | full => exact Or.inr (.lost hc)
    | closed =>
        obtain ⟨e', he'⟩ := mem_offered_of_lastChange hc
        exact absurd rfl (hopen _ he')
    | accepted =>
        obtain ⟨reads, _, _, hwhere⟩ := hj.booked _ hc
        rcases hwhere with ⟨others, hwaits⟩ | ⟨_, ⟨_, hbooked⟩ | ⟨t, ht⟩⟩
        · have hmem : ⟨key, .put (some e)⟩ ∈ n.waitingOf key := by
            rw [hwaits]
            simp
          exact Or.inr (.waiting (List.mem_of_mem_filter hmem))
        · left
          rw [hbooked, hstored]
          rfl
        · exact absurd ht (hdeletions t)

/-- The sweep deletes a key because the entry of its last put that the keeper has heard has
expired.  The entry that the deletion takes away has expired too, unless its put had not reached
the keeper when the deletion was submitted. -/
theorem expiry_deletion_cause (settings : Settings) (ring : Ring) (senders pollMs : Nat)
    (before between : List Act) (listing : Listing) (clock : Clock) (now : UInt64) (fatal : Bool)
    (ticket : Nat) (key : String) (e : Entry)
    (hsteady : Steady (before ++ .keep listing clock :: between))
    (honward : Onward (before ++ .keep listing clock :: between ++ [.work now fatal]))
    (hdeletion : ExpiryDeletion (make settings ring senders pollMs) before listing clock between
      now fatal ticket key e) :
    (∃ x, lastHeard ((make settings ring senders pollMs).journal before) key =
        some (.put (some x)) ∧ x.expires ≤ now) ∧
      (e.expires ≤ now ∨ Unheard ((make settings ring senders pollMs).run before)
        ((make settings ring senders pollMs).journal before) key e) := by
  have hbefore : Steady before := fun a ha => hsteady a (List.mem_append_left _ ha)
  obtain ⟨_, hnone, ⟨swept, time, rest, issued, hstage⟩, _⟩ := expiry_issued hdeletion.issued
  have halive := (Shard.refusal?_eq_none hnone).2.1
  obtain ⟨_, hagrees⟩ := agrees_run settings ring senders pollMs hbefore key halive
  obtain ⟨_, hopen, _⟩ := told_run settings ring senders pollMs hbefore
  obtain ⟨_, _, hheard, htimed⟩ := heard_run settings ring senders pollMs hbefore key
  have hfound := fun hlocal => found_of_deletion hsteady hdeletion hlocal
  generalize (make settings ring senders pollMs).journal before = j at *
  generalize (make settings ring senders pollMs).run before = n at *
  have hindexed : n.keeper.indexed key = some time := by
    simp [Keeper.indexed, hstage, Stage.held?]
  obtain ⟨x, hlast, hexpires⟩ := hheard time hindexed
  obtain ⟨hswept, hdue⟩ := htimed _ _ _ _ hstage
  -- The bucket was due when the sweep began, and the clock has not gone back since.
  have hlate : time ≤ now := by
    apply UInt64.le_trans (hdue (List.cons_ne_nil _ _))
    rw [Onward, List.append_assoc, List.filterMap_append, List.pairwise_append] at honward
    apply honward.2.2 swept hswept now
    simp [Act.time?]
  refine ⟨⟨x, hlast, hexpires ▸ hlate⟩, ?_⟩
  have hchanged : lastChange j key ≠ none := by
    intro hsilent
    rw [(hagrees.silent hsilent).2.2.2] at hindexed
    cases hindexed
  rcases hfound (hagrees.own hchanged) with ⟨hold, hdeletions⟩ | ⟨t, value, ttl, made, hput, hentry⟩
  · rcases hagrees.indexed_or_unheard hopen hold hdeletions with hknown | hunheard
    · rw [hindexed] at hknown
      obtain rfl : time = e.expires := Option.some.inj hknown
      exact Or.inl hlate
    · exact Or.inr hunheard
  · exact Or.inr (.asked t value ttl made hput hentry)

/-! ## Live entries that are taken away -/

/-- A key is put for five seconds, and a pass goes by. -/
def putAndPass : List Act :=
  [.submit ⟨"k", .put "a" 5⟩, .work 0 false, .begin ⟨0, 0⟩] ++
    List.replicate 6 (.keep .ascending ⟨0, 0⟩)

/-- Steps of a pass after five seconds. -/
def stepsAtFive (count : Nat) : List Act := List.replicate count (.keep .ascending ⟨5, 0⟩)

/-- The put of the key for nine more seconds is executed, but its event is lost. -/
def putAndLose : List Act :=
  putAndPass ++ [.submit ⟨"x", .put "b" 9⟩, .submit ⟨"k", .put "b" 9⟩, .work 0 false,
    .work 0 false, .begin ⟨5, 0⟩] ++ stepsAtFive 3

/-- The cause when an event is lost. -/
theorem expiry_deletion_cause_of_lost :
    ExpiryDeletion (make { eventCapacity := 1 } (Ring.empty "n" 1) 1 0) putAndLose .ascending
        ⟨5, 0⟩ [] 5 false 3 "k" ⟨"b", 0, 9⟩ ∧
      Unheard ((make { eventCapacity := 1 } (Ring.empty "n" 1) 1 0).run putAndLose)
        ((make { eventCapacity := 1 } (Ring.empty "n" 1) 1 0).journal putAndLose) "k"
        ⟨"b", 0, 9⟩ := by
  have hdeletion : ExpiryDeletion (make { eventCapacity := 1 } (Ring.empty "n" 1) 1 0) putAndLose
      .ascending ⟨5, 0⟩ [] 5 false 3 "k" ⟨"b", 0, 9⟩ :=
    ⟨by decide +kernel, by decide +kernel, by decide +kernel⟩
  refine ⟨hdeletion, ?_⟩
  rcases (expiry_deletion_cause { eventCapacity := 1 } (Ring.empty "n" 1) 1 0 putAndLose []
    .ascending ⟨5, 0⟩ 5 false 3 "k" ⟨"b", 0, 9⟩ (by decide +kernel) (by decide +kernel)
    hdeletion).2 with hlate | hunheard
  · exact absurd hlate (by decide)
  · exact hunheard

/-- The worker executes the deletion of a key as expired and takes away an entry that has not
expired. -/
def TakesLive (start : Node) (before between : List Act) : Prop :=
  ∃ listing clock now fatal ticket key e,
    Steady (before ++ .keep listing clock :: between) ∧
    Onward (before ++ .keep listing clock :: between ++ [.work now fatal]) ∧
    ExpiryDeletion start before listing clock between now fatal ticket key e ∧ now < e.expires

/-- It happens that a put for a longer time waits to be executed, or to be heard of, or is never
heard of. -/
theorem sweep_takes_live :
    TakesLive (make {} (Ring.empty "n" 1) 1 0)
      (putAndPass ++ [.submit ⟨"k", .put "b" 9⟩, .begin ⟨5, 0⟩] ++ stepsAtFive 2)
      [.work 5 false] ∧
    TakesLive (make {} (Ring.empty "n" 1) 1 0)
      (putAndPass ++ [.begin ⟨5, 0⟩] ++ stepsAtFive 2 ++
        [.submit ⟨"k", .put "b" 9⟩, .work 5 false]) [] ∧
    TakesLive (make { eventCapacity := 1 } (Ring.empty "n" 1) 1 0) putAndLose [] := by
  refine ⟨⟨.ascending, ⟨5, 0⟩, 5, false, 2, "k", ⟨"b", 5, 14⟩, ?_, ?_, ⟨?_, ?_, ?_⟩, ?_⟩,
    ⟨.ascending, ⟨5, 0⟩, 5, false, 2, "k", ⟨"b", 5, 14⟩, ?_, ?_, ⟨?_, ?_, ?_⟩, ?_⟩,
    ⟨.ascending, ⟨5, 0⟩, 5, false, 3, "k", ⟨"b", 0, 9⟩, ?_, ?_, ⟨?_, ?_, ?_⟩, ?_⟩⟩
  all_goals decide +kernel

end ClusterCache.Node
