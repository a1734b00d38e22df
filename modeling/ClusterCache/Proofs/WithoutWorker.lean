import ClusterCache.Proofs.Hearing

/-!
# Passes without a worker

When the worker of a node is gone nothing is accepted any more.  A pass hears the events that are
left and then gets nowhere: the first deletion of a sweep is refused, and what was taken out of
the index goes back to where it was.  It takes a bounded number of steps to find that out.
-/

namespace ClusterCache

open Std

theorem Shard.refusal?_ne_none {s : Shard} (hdead : s.alive = false) (r : Request) :
    s.refusal? r ≠ none := by
  intro hnone
  rw [(refusal?_eq_none hnone).2.1] at hdead
  cases hdead

/-- How many steps are left of a pass at most, without a worker. -/
def Stage.stepsLeft : Stage → Nat
  | .resting => 0
  | .settling true _ issued => issued.length + 1
  | .evicting _ issued => issued.length + 2
  | .measuring issued => issued.length + 3
  | .settling false _ issued => issued.length + 4
  | .expiring _ _ (_ :: _) issued => issued.length + 5
  | .expiring _ _ [] issued => issued.length + 6
  | .draining left => left + 7
  | .pausing _ => 7
  | .polling _ => Keeper.drainLimit + 8

theorem Stage.stepsLeft_pos {stage : Stage} (h : stage ≠ .resting) : 0 < stage.stepsLeft := by
  cases stage with
  | resting => exact absurd rfl h
  | expiring now time keys issued => cases keys <;> exact Nat.succ_pos _
  | settling last deadline issued => cases last <;> exact Nat.succ_pos _
  | _ => exact Nat.succ_pos _

theorem Shard.Turn.of_idle {s s' : Shard} {now : UInt64} {rs : Journal}
    {handed : Option (Nat × Call)} (h : s.Turn now rs (s', handed)) (hqueue : s.queue = []) :
    rs = [] ∧ s' = s ∧ handed = none := by
  cases h with
  | idle => exact ⟨rfl, rfl, rfl⟩
  | _ => simp_all

namespace Keeper

variable {listing : Listing} {clock : Clock} {s s' : Shard} {k k' : Keeper} {rs : Journal}

theorem Move.of_dead (h : Move listing clock s k rs s' k') (hdead : s.alive = false) :
    s'.queue = s.queue ∧ s'.counters = s.counters ∧ Journal.accepted rs = [] := by
  cases h with
  | expire now time key rest issued hstage hnone =>
      exact absurd hnone (Shard.refusal?_ne_none hdead _)
  | evict victim issued hstage hnone => exact absurd hnone (Shard.refusal?_ne_none hdead _)
  | _ => exact ⟨rfl, rfl, rfl⟩

/-! ## What the keeper knows -/

/-- Two keepers whose policy and index are the same. -/
structure SameBooks (k k' : Keeper) : Prop where
  policy : k'.policy = k.policy
  expiry : k'.expiry = k.expiry

theorem SameBooks.trans {k'' : Keeper} (h : k.SameBooks k') (h' : k'.SameBooks k'') :
    k.SameBooks k'' :=
  ⟨h'.policy.trans h.policy, h'.expiry.trans h.expiry⟩

theorem SameBooks.observe (h : k.SameBooks k') (e : Event) :
    (k.observe e).SameBooks (k'.observe e) := by
  obtain ⟨hpolicy, hexpiry⟩ := h
  unfold Keeper.observe
  cases e.change with
  | put entry => exact ⟨by rw [hpolicy], by rw [hexpiry]⟩
  | get => exact ⟨by rw [hpolicy], hexpiry⟩
  | delete => exact ⟨by rw [hpolicy], by rw [hexpiry]⟩

theorem SameBooks.hear (h : k.SameBooks k') (events : List Event) :
    (k.hear events).SameBooks (k'.hear events) := by
  induction events generalizing k k' with
  | nil => exact h
  | cons e events ih => exact ih (h.observe e)

/-- The keeper with what is left of the bucket at hand put back. -/
def whole (k : Keeper) : Keeper :=
  match k.stage with
  | .expiring _ time keys _ => k.restore time keys
  | _ => k

theorem whole_of_pending (h : k.stage.pending = []) : k.whole = k := by
  rw [whole]
  split
  · rename_i now time keys issued hstage
    rw [hstage] at h
    obtain rfl : keys = [] := h
    rfl
  · rfl

theorem Sound.whole (hk : k.Sound) :
    k.whole.expiry.Sound ∧ ∀ key, k.whole.expiry.time? key = k.indexed key := by
  cases hstage : k.stage with
  | expiring now time keys issued =>
      simp only [Keeper.whole, hstage, restore, indexed, Stage.held?]
      obtain ⟨hsound, htimes⟩ := hk.expiry.addAll time keys
      refine ⟨hsound, fun key => ?_⟩
      rw [htimes]
      by_cases hkey : key ∈ keys <;> simp [hkey]
  | _ =>
      rw [whole_of_pending (by rw [hstage]; rfl)]
      exact ⟨hk.expiry, fun key => (indexed_of_pending (by rw [hstage]; rfl) key).symm⟩

/-- Without a worker a keeper learns from events only, and nothing that it does itself makes any
difference to its books. -/
theorem Move.sameBooks (h : Move listing clock s k rs s' k') (hdead : s.alive = false)
    (hk : k.Sound) : (k.whole.hear (Journal.observed rs)).SameBooks k'.whole := by
  have hk' := h.sound hk
  -- Most steps only go on to another stage.
  have hsame : k.stage.pending = [] → k'.stage.pending = [] → Journal.observed rs = [] →
      k'.policy = k.policy → k'.expiry = k.expiry →
      (k.whole.hear (Journal.observed rs)).SameBooks k'.whole := by
    intro hpending hpending' hnone hpolicy hexpiry
    rw [whole_of_pending hpending, whole_of_pending hpending', hnone]
    exact ⟨hpolicy, hexpiry⟩
  cases h with
  | note e rest left hwaiting hstage =>
      rw [whole_of_pending (pending_of_hearing hstage), whole_of_pending rfl]
      exact ⟨rfl, rfl⟩
  | pause deadline hstage hspent => exact hsame (by rw [hstage]; rfl) rfl rfl rfl rfl
  | sweep hstage =>
      refine hsame ?_ rfl rfl rfl rfl
      rcases hstage with ⟨d, hstage, _⟩ | ⟨d, hstage, _⟩ | ⟨d, hstage, _⟩ <;> rw [hstage] <;> rfl
  | bucket now time now' issued keys x hstage hearliest hpoll hdue =>
      have hpending : k.stage.pending = [] := by rw [hstage]; rfl
      refine ⟨by rw [whole_of_pending hpending]; rfl, ?_⟩
      apply hk'.whole.1.ext hk.whole.1
      intro key
      apply (hk'.whole.2 key).trans
      apply (indexed_bucket hk hpending hearliest hpoll listing now issued key).trans
      exact (hk.whole.2 key).symm
  | swept now time issued hstage hnone => exact hsame (by rw [hstage]; rfl) rfl rfl rfl rfl
  | expire now time key rest issued hstage hnone =>
      exact absurd hnone (Shard.refusal?_ne_none hdead _)
  | giveBack now time key rest issued failure hstage hrefusal =>
      rw [whole_of_pending (k := (k.restore time (key :: rest)).settle false clock issued) rfl]
      simp only [whole, hstage]
      exact ⟨rfl, rfl⟩
  | choose issued victim hstage hover hvictim => exact hsame (by rw [hstage]; rfl) rfl rfl rfl rfl
  | measured issued hstage henough => exact hsame (by rw [hstage]; rfl) rfl rfl rfl rfl
  | evict victim issued hstage hnone => exact absurd hnone (Shard.refusal?_ne_none hdead _)
  | halt victim issued failure hstage hrefusal =>
      exact hsame (by rw [hstage]; rfl) rfl rfl rfl rfl
  | settled last deadline ticket issued hstage hdone =>
      exact hsame (by rw [hstage]; rfl) rfl rfl rfl rfl
  | turn deadline hstage => exact hsame (by rw [hstage]; rfl) rfl rfl rfl rfl
  | finish deadline hstage => exact hsame (by rw [hstage]; rfl) rfl rfl rfl rfl

/-- What a step hears is the first of what was to be heard in the pass, and the rest is still to
be heard. -/
theorem Move.toHear (h : Move listing clock s k rs s' k') :
    Journal.observed rs ++ s'.events.waiting.take (k'.stage.budget?.getD 0) =
      s.events.waiting.take (k.stage.budget?.getD 0) := by
  have hevents := h.events.2
  cases hbudget : k.stage.budget? with
  | some budget =>
      rcases h.of_hearing hbudget with ⟨e, rest, left, rfl, hwaiting, rfl, rfl⟩ |
        ⟨hnil, rfl, rfl⟩ | ⟨hnil, rfl, rfl⟩
      · rw [hwaiting] at hevents
        have hobserved : Journal.observed rs = [e] := List.append_cancel_right hevents
        simp [hobserved, hwaiting, Stage.budget?]
      · rw [List.append_left_eq_self.mp hevents]
        simp [hnil]
      · rw [List.append_left_eq_self.mp hevents]
        simp [Keeper.sweep, Stage.budget?, hnil]
  | none =>
      have hafter : k'.stage.budget? = none ∧ Journal.observed rs = [] := by
        cases h with
        | note e rest left hwaiting hstage =>
            rcases hstage with ⟨deadline, hstage, _⟩ | hstage <;>
              simp [hstage, Stage.budget?] at hbudget
        | pause deadline hstage hspent => simp [hstage, Stage.budget?] at hbudget
        | _ => exact ⟨rfl, rfl⟩
      rw [hafter.1, hafter.2]
      rfl

/-! ## A pass comes to an end -/

theorem Move.stepsLeft_lt (h : Move listing clock s k rs s' k') (hdead : s.alive = false)
    (hk : k.Sound) : k'.stage.stepsLeft < k.stage.stepsLeft := by
  cases h with
  | note e rest left hwaiting hstage =>
      rcases hstage with ⟨deadline, hstage, rfl⟩ | hstage <;> simp [hstage, Stage.stepsLeft]
  | pause deadline hstage hspent => simp [hstage, Stage.stepsLeft]
  | sweep hstage =>
      rcases hstage with ⟨d, hstage, _⟩ | ⟨d, hstage, _⟩ | ⟨d, hstage, _⟩ <;>
        simp [hstage, Stage.stepsLeft, Keeper.sweep]
  | bucket now time now' issued keys x hstage hearliest hpoll hdue =>
      -- A bucket has a key, so the next step is a deletion that is refused.
      obtain ⟨key, hkey⟩ := hk.expiry.exists_mem_earliest? hearliest
      have hmem : key ∈ listing.list keys := by
        rw [(listing.perm keys).mem_iff, Std.ExtTreeSet.mem_toList]
        exact hkey
      obtain ⟨first, rest, hlist⟩ := List.exists_cons_of_ne_nil (List.ne_nil_of_mem hmem)
      simp [hstage, hlist, Stage.stepsLeft]
  | expire now time key rest issued hstage hnone =>
      exact absurd hnone (Shard.refusal?_ne_none hdead _)
  | evict victim issued hstage hnone => exact absurd hnone (Shard.refusal?_ne_none hdead _)
  | swept now time issued hstage hnone => simp [hstage, Stage.stepsLeft, settle]
  | giveBack now time key rest issued failure hstage hrefusal =>
      simp [hstage, Stage.stepsLeft, settle]
  | choose issued victim hstage hover hvictim => simp [hstage, Stage.stepsLeft]
  | measured issued hstage henough => simp [hstage, Stage.stepsLeft, settle]
  | halt victim issued failure hstage hrefusal => simp [hstage, Stage.stepsLeft, settle]
  | settled last deadline ticket issued hstage hdone =>
      cases last <;> simp [hstage, Stage.stepsLeft, settle]
  | turn deadline hstage => simp [hstage, Stage.stepsLeft]
  | finish deadline hstage => simp [hstage, Stage.stepsLeft, Keeper.finish]

end Keeper

/-- Whether an act lets a pass go on: it does not begin another one, and it leaves the events. -/
def Act.keepsPass : Act → Bool
  | .begin _ | .close => false
  | _ => true

namespace Node

open Journal

variable {n n' : Node} {a : Act} {acts : List Act} {rs rs' : Journal}

/-- A node without a worker.  Nothing waits to be taken. -/
structure Dead (n : Node) : Prop where
  alive : n.shard.alive = false
  queue : n.shard.queue = []

/-- Nothing is accepted or executed, and nothing that the shard holds or counts changes. -/
structure Idle (n : Node) (rs : Journal) (n' : Node) : Prop where
  store : n'.shard.store = n.shard.store
  size : n'.shard.size = n.shard.size
  counters : n'.shard.counters = n.shard.counters
  accepted : accepted rs = []
  executed : executed rs = []
  offered : offered rs = []

theorem Idle.trans {n'' : Node} (h : n.Idle rs n') (h' : n'.Idle rs' n'') :
    n.Idle (rs ++ rs') n'' := by
  refine ⟨h'.store.trans h.store, h'.size.trans h.size, h'.counters.trans h.counters, ?_, ?_, ?_⟩
  · rw [accepted_append, h.accepted, h'.accepted, List.append_nil]
  · rw [executed_append, h.executed, h'.executed, List.append_nil]
  · rw [offered_append, h.offered, h'.offered, List.append_nil]

theorem Step.of_dead (h : n.Step a rs n') (hd : n.Dead) : n'.Dead ∧ n.Idle rs n' := by
  cases h with
  | accept r hrefusal => exact absurd hrefusal (Shard.refusal?_ne_none hd.alive r)
  | turn now fatal records shard hturn =>
      obtain ⟨rfl, rfl, _⟩ := hturn.of_idle hd.queue
      exact ⟨hd, rfl, rfl, rfl, rfl, rfl, rfl⟩
  | handOn now ticket call shard records hturn => cases (hturn.of_idle hd.queue).2.2
  | perish now ticket call shard records hturn => cases (hturn.of_idle hd.queue).2.2
  | move listing clock records shard keeper hmove =>
      obtain ⟨hqueue, hcounters, haccepted⟩ := hmove.of_dead hd.alive
      obtain ⟨_, _, halive, hstore, hsize, _⟩ := hmove.frame
      obtain ⟨_, hexecuted, hoffered⟩ := hmove.quiet
      exact ⟨⟨halive.trans hd.alive, hqueue.trans hd.queue⟩,
        hstore, hsize, hcounters, haccepted, hexecuted, hoffered⟩
  | _ => exact ⟨⟨hd.alive, hd.queue⟩, rfl, rfl, rfl, rfl, rfl, rfl⟩

theorem Dead.run (hd : n.Dead) (acts : List Act) :
    (n.run acts).Dead ∧ n.Idle (n.journal acts) (n.run acts) := by
  induction acts generalizing n with
  | nil => exact ⟨hd, rfl, rfl, rfl, rfl, rfl, rfl⟩
  | cons a acts ih =>
      obtain ⟨hdead, hidle⟩ := (n.step_act a).of_dead hd
      obtain ⟨hdead', hidle'⟩ := ih hdead
      exact ⟨hdead', hidle.trans hidle'⟩

theorem Dead.submit (hd : n.Dead) (r : Request) : n.shard.submit r =
    (n.shard, .error (if r.key = "" then .emptyKey else .workerUnavailable)) := by
  rw [Shard.submit_eq, Shard.refusal?]
  by_cases hkey : r.key = "" <;> simp [hkey, hd.alive]

theorem sound_run (hk : n.keeper.Sound) (acts : List Act) : (n.run acts).keeper.Sound := by
  induction acts generalizing n with
  | nil => exact hk
  | cons a acts ih => exact ih ((n.step_act a).keeper_sound hk)

/-! ## What is heard -/

theorem Step.sameBooks (h : n.Step a rs n') (hd : n.Dead) (hk : n.keeper.Sound) :
    (n.keeper.whole.hear (observed rs)).SameBooks n'.keeper.whole := by
  cases h with
  | turn now fatal records shard hturn =>
      obtain ⟨rfl, _, _⟩ := hturn.of_idle hd.queue
      exact ⟨rfl, rfl⟩
  | handOn now ticket call shard records hturn => cases (hturn.of_idle hd.queue).2.2
  | perish now ticket call shard records hturn => cases (hturn.of_idle hd.queue).2.2
  | begin clock hstage =>
      rw [Keeper.whole_of_pending (k := n.keeper) (by rw [hstage]; rfl),
        Keeper.whole_of_pending (k := n.keeper.begin clock) rfl]
      exact ⟨rfl, rfl⟩
  | move listing clock records shard keeper hmove => exact hmove.sameBooks hd.alive hk
  | _ => exact ⟨rfl, rfl⟩

/-- Without a worker the books change by what is heard, and by nothing else. -/
theorem Dead.sameBooks (hd : n.Dead) (hk : n.keeper.Sound) (acts : List Act) :
    (n.keeper.whole.hear (observed (n.journal acts))).SameBooks (n.run acts).keeper.whole := by
  induction acts generalizing n with
  | nil => exact ⟨rfl, rfl⟩
  | cons a acts ih =>
      have hstep := n.step_act a
      rw [journal, observed_append, Keeper.hear, List.foldl_append]
      have hhere := (hstep.sameBooks hd hk).hear (observed ((n.act a).journal acts))
      exact hhere.trans (ih (hstep.of_dead hd).1 (hstep.keeper_sound hk))

theorem Step.waiting_of_dead (h : n.Step a rs n') (hd : n.Dead) (hkeeps : a.keepsReader = true) :
    observed rs ++ n'.shard.events.waiting = n.shard.events.waiting := by
  cases h with
  | turn now fatal records shard hturn =>
      obtain ⟨rfl, rfl, _⟩ := hturn.of_idle hd.queue
      rfl
  | handOn now ticket call shard records hturn => cases (hturn.of_idle hd.queue).2.2
  | perish now ticket call shard records hturn => cases (hturn.of_idle hd.queue).2.2
  | move listing clock records shard keeper hmove => exact hmove.events.2
  | close => cases hkeeps
  | _ => rfl

theorem Dead.waiting (hd : n.Dead) (hkeeps : ∀ a ∈ acts, a.keepsReader = true) :
    observed (n.journal acts) ++ (n.run acts).shard.events.waiting = n.shard.events.waiting := by
  induction acts generalizing n with
  | nil => rfl
  | cons a acts ih =>
      obtain ⟨ha, hacts⟩ := List.forall_mem_cons.mp hkeeps
      have hstep := n.step_act a
      rw [journal, observed_append, List.append_assoc]
      apply Eq.trans _ (hstep.waiting_of_dead hd ha)
      exact congrArg (observed (n.records a) ++ ·) (ih (hstep.of_dead hd).1 hacts)

/-- The events that the pass under way is still going to hear. -/
def toHear (n : Node) : List Event :=
  n.shard.events.waiting.take (n.keeper.stage.budget?.getD 0)

theorem Step.toHear (h : n.Step a rs n') (hd : n.Dead) (hkeeps : a.keepsPass = true) :
    observed rs ++ n'.toHear = n.toHear := by
  cases h with
  | turn now fatal records shard hturn =>
      obtain ⟨rfl, rfl, _⟩ := hturn.of_idle hd.queue
      rfl
  | handOn now ticket call shard records hturn => cases (hturn.of_idle hd.queue).2.2
  | perish now ticket call shard records hturn => cases (hturn.of_idle hd.queue).2.2
  | begin => cases hkeeps
  | close => cases hkeeps
  | move listing clock records shard keeper hmove => exact hmove.toHear
  | _ => rfl

theorem Dead.toHear (hd : n.Dead) (hkeeps : ∀ a ∈ acts, a.keepsPass = true) :
    observed (n.journal acts) ++ (n.run acts).toHear = n.toHear := by
  induction acts generalizing n with
  | nil => rfl
  | cons a acts ih =>
      obtain ⟨ha, hacts⟩ := List.forall_mem_cons.mp hkeeps
      have hstep := n.step_act a
      rw [journal, observed_append, List.append_assoc]
      apply Eq.trans _ (hstep.toHear hd ha)
      exact congrArg (observed (n.records a) ++ ·) (ih (hstep.of_dead hd).1 hacts)

/-! ## Turns of the keeper -/

/-- Whether an act is a turn of the keeper for which it has waited long enough. -/
def isTurn (n : Node) : Act → Bool
  | .keep _ clock => n.keeper.deadline?.all (· ≤ clock.millis)
  | _ => false

def turns : Node → List Act → Nat
  | _, [] => 0
  | n, a :: acts => (n.isTurn a).toNat + turns (n.act a) acts

theorem Step.stepsLeft_add_isTurn_le (h : n.Step a rs n') (hd : n.Dead) (hk : n.keeper.Sound)
    (hstage : n.keeper.stage ≠ .resting) :
    n'.keeper.stage.stepsLeft + (n.isTurn a).toNat ≤ n.keeper.stage.stepsLeft := by
  cases h with
  | begin clock hresting => exact absurd hresting hstage
  | move listing clock records shard keeper hmove =>
      have hlt := hmove.stepsLeft_lt hd.alive hk
      have hone := Bool.toNat_le (n.isTurn (.keep listing clock))
      exact Nat.le_trans (Nat.add_le_add_left hone _) hlt
  | stuck listing clock hstep =>
      have hwaits : n.isTurn (.keep listing clock) = false := by
        by_contra hturn
        refine Keeper.step_ne_none hstage (fun deadline hdeadline => ?_) hstep
        simpa [isTurn, hdeadline] using hturn
      rw [hwaits]
      exact Nat.le_refl _
  | _ => exact Nat.le_refl _

/-- A pass is over once the keeper has had its turns. -/
theorem Dead.ends (hd : n.Dead) (hk : n.keeper.Sound)
    (hturns : n.keeper.stage.stepsLeft ≤ n.turns acts) :
    ∃ p, p <+: acts ∧ (n.run p).keeper.stage = .resting := by
  by_cases hstage : n.keeper.stage = .resting
  · exact ⟨[], List.nil_prefix, hstage⟩
  induction acts generalizing n with
  | nil =>
      have hpos := Stage.stepsLeft_pos hstage
      exact absurd hturns (Nat.not_le_of_lt hpos)
  | cons a acts ih =>
      have hstep := n.step_act a
      have hle := hstep.stepsLeft_add_isTurn_le hd hk hstage
      have hrest : (n.act a).keeper.stage.stepsLeft ≤ (n.act a).turns acts := by
        rw [turns] at hturns
        omega
      by_cases hover : (n.act a).keeper.stage = .resting
      · exact ⟨[a], by simp, hover⟩
      · obtain ⟨p, hp, hresting⟩ := ih (hstep.of_dead hd).1 (hstep.keeper_sound hk) hrest hover
        exact ⟨a :: p, (List.prefix_cons_inj a).mpr hp, hresting⟩

/-- A pass without a worker, from its beginning on.  It ends, and when it is over the keeper has
heard events that were left, the oldest first, and knows what it knew and what they have told. -/
structure IdlePass (n : Node) (clock : Clock) : Prop where
  ends : ∀ rest, Keeper.drainLimit + 8 ≤ (n.act (.begin clock)).turns rest →
    ∃ p, p <+: rest ∧ (n.run (.begin clock :: p)).keeper.stage = .resting
  finished : ∀ rest, (∀ a ∈ rest, a.keepsPass = true) →
    (n.run (.begin clock :: rest)).keeper.stage = .resting →
    observed (n.journal (.begin clock :: rest)) =
        n.shard.events.waiting.take (Keeper.drainLimit + 1) ∧
      (n.run (.begin clock :: rest)).shard.events.waiting =
        n.shard.events.waiting.drop (Keeper.drainLimit + 1) ∧
      (n.keeper.hear (n.shard.events.waiting.take (Keeper.drainLimit + 1))).SameBooks
        (n.run (.begin clock :: rest)).keeper

theorem act_begin (hstage : n.keeper.stage = .resting) (clock : Clock) :
    n.act (.begin clock) = { n with keeper := n.keeper.begin clock } := by
  rw [act, if_pos (by simp [Keeper.isResting, hstage])]

theorem Dead.heard_of_pass (hd : n.Dead) (hstage : n.keeper.stage = .resting) {clock : Clock}
    {rest : List Act} (hkeeps : ∀ a ∈ rest, a.keepsPass = true)
    (hover : (n.run (.begin clock :: rest)).keeper.stage = .resting) :
    observed (n.journal (.begin clock :: rest)) =
      n.shard.events.waiting.take (Keeper.drainLimit + 1) := by
  have hd' := ((n.step_act (.begin clock)).of_dead hd).1
  have hheard := hd'.toHear hkeeps
  have hnone : ((n.act (.begin clock)).run rest).toHear = [] := by
    have hresting : ((n.act (.begin clock)).run rest).keeper.stage = .resting := hover
    rw [Node.toHear, hresting]
    rfl
  rw [hnone, List.append_nil, Node.toHear, act_begin hstage] at hheard
  rw [journal, act_begin hstage]
  exact hheard

theorem keepsReader_of_keepsPass (h : a.keepsPass = true) : a.keepsReader = true := by
  cases a with
  | close => cases h
  | _ => rfl

theorem Dead.idlePass (hd : n.Dead) (hk : n.keeper.Sound) (hstage : n.keeper.stage = .resting)
    (clock : Clock) : n.IdlePass clock := by
  have hstep := n.step_act (.begin clock)
  refine ⟨fun rest hturns => ?_, fun rest hkeeps hover => ?_⟩
  · apply (hstep.of_dead hd).1.ends (hstep.keeper_sound hk)
    rw [act_begin hstage] at hturns ⊢
    exact hturns
  · have hheard := hd.heard_of_pass hstage hkeeps hover
    have hreader : ∀ a ∈ Act.begin clock :: rest, a.keepsReader = true :=
      List.forall_mem_cons.mpr ⟨rfl, fun a ha => keepsReader_of_keepsPass (hkeeps a ha)⟩
    have hwaiting := hd.waiting hreader
    have hbooks := hd.sameBooks hk (.begin clock :: rest)
    rw [hheard, Keeper.whole_of_pending (by rw [hstage]; rfl),
      Keeper.whole_of_pending (by rw [hover]; rfl)] at hbooks
    rw [hheard] at hwaiting
    refine ⟨hheard, ?_, hbooks⟩
    apply List.append_cancel_left
    exact hwaiting.trans (List.take_append_drop _ _).symm

end Node

end ClusterCache
