import ClusterCache.Proofs.Node
import ClusterCache.Proofs.Tracking
import Mathlib.Data.List.DropRight

/-!
# The policy and the index know the same keys

A keeper hears events and sweeps, and does nothing else to its policy and its index.  Every key
that its index has is one that its policy tracks.  The converse holds too, but for the policy that
starts to track a key when it is read.
-/

namespace ClusterCache

/-- No sweep is under way. -/
def Stage.isBetween : Stage → Bool
  | .resting | .polling _ | .pausing _ | .draining _ | .measuring [] => true
  | _ => false

theorem Stage.pending_of_isBetween {stage : Stage} (h : stage.isBetween = true) :
    stage.pending = [] := by
  cases stage with
  | expiring now time keys issued => cases h
  | _ => rfl

namespace Keeper

/-- What a keeper does next: it hears an event, it goes on to another part of its pass, or it takes
a step of a sweep, whatever has become of the shard since. -/
inductive LoopStep (k : Keeper) : List Event → Keeper → Prop where
  | hear (e : Event) (hbetween : k.stage.isBetween = true) : LoopStep k [e] (k.observe e)
  | turn (stage : Stage) (hbetween : k.stage.isBetween = true)
      (hstage : stage.isBetween = true ∨ ∃ now, stage = .expiring now 0 [] []) :
      LoopStep k [] { k with stage }
  | sweep (listing : Listing) (clock : Clock) (s s' : Shard) (k' : Keeper)
      (hquiet : k.stage.budget? = none) (hstep : k.step listing clock s = some (s', k')) :
      LoopStep k [] k'

/-- Steps of a keeper, one after the other, with the events that it has heard and what it was when
it heard them. -/
inductive LoopRun (b : Keeper) : List (Keeper × Event) → Keeper → Prop where
  | start : LoopRun b [] b
  | step {past : List (Keeper × Event)} {k k' : Keeper} {heard : List Event}
      (h : LoopRun b past k) (hstep : LoopStep k heard k') :
      LoopRun b (past ++ heard.map fun e => (k, e)) k'

variable {k k' : Keeper} {e : Event} {heard : List Event} {past : List (Keeper × Event)}

/-- A step of a sweep forgets a key altogether, or nothing at all. -/
theorem Move.forgets {listing : Listing} {clock : Clock} {s s' : Shard} {rs : Journal}
    (h : Move listing clock s k rs s' k') (hk : k.Sound) (hquiet : k.stage.budget? = none) :
    (k'.policy = k.policy ∧ ∀ key, k'.indexed key = k.indexed key) ∨
      ∃ victim, k'.policy = k.policy.delete victim ∧
        ∀ key, k'.indexed key = if key = victim then none else k.indexed key := by
  -- Most steps only go on to another stage.
  have hsame : k.stage.pending = [] → k'.stage.pending = [] → k'.expiry = k.expiry →
      ∀ key, k'.indexed key = k.indexed key := fun hpending hpending' hexpiry key => by
    rw [indexed_of_pending hpending, indexed_of_pending hpending', hexpiry]
  cases h with
  | bucket now time now' issued keys x hstage hearliest hpoll hdue =>
      exact Or.inl ⟨rfl, indexed_bucket hk (by rw [hstage]; rfl) hearliest hpoll listing now issued⟩
  | expire now time victim rest issued hstage hnone =>
      exact Or.inr ⟨victim, rfl, indexed_expire hk hstage _ _⟩
  | giveBack now time victim rest issued failure hstage hrefusal =>
      exact Or.inl ⟨rfl, indexed_restore hk hstage false clock⟩
  | evict victim issued hstage hnone =>
      exact Or.inr ⟨victim, rfl, indexed_evict hk (by rw [hstage]; rfl) victim _ _⟩
  | note e rest left hwaiting hstage =>
      rcases hstage with ⟨d, hstage, _⟩ | hstage <;> simp [hstage, Stage.budget?] at hquiet
  | pause deadline hstage hspent => simp [hstage, Stage.budget?] at hquiet
  | sweep hstage =>
      rcases hstage with ⟨d, hstage, _⟩ | ⟨d, hstage, _⟩ | ⟨d, hstage, _⟩ <;>
        simp [hstage, Stage.budget?] at hquiet
  | swept now time issued hstage hnone =>
      exact Or.inl ⟨rfl, hsame (by rw [hstage]; rfl) rfl rfl⟩
  | choose issued victim hstage hover hvictim =>
      exact Or.inl ⟨rfl, hsame (by rw [hstage]; rfl) rfl rfl⟩
  | measured issued hstage henough => exact Or.inl ⟨rfl, hsame (by rw [hstage]; rfl) rfl rfl⟩
  | halt victim issued failure hstage hrefusal =>
      exact Or.inl ⟨rfl, hsame (by rw [hstage]; rfl) rfl rfl⟩
  | settled last deadline ticket issued hstage hdone =>
      exact Or.inl ⟨rfl, hsame (by rw [hstage]; rfl) rfl rfl⟩
  | turn deadline hstage => exact Or.inl ⟨rfl, hsame (by rw [hstage]; rfl) rfl rfl⟩
  | finish deadline hstage => exact Or.inl ⟨rfl, hsame (by rw [hstage]; rfl) rfl rfl⟩

theorem observe_stage (k : Keeper) (e : Event) : (k.observe e).stage = k.stage := by
  unfold observe
  cases e.change <;> rfl

theorem observe_kind (k : Keeper) (e : Event) : (k.observe e).policy.kind = k.policy.kind := by
  unfold observe
  cases e.change <;> simp only [Policy.kind_put, Policy.kind_get, Policy.kind_delete]

theorem sound_of_isBetween (hpolicy : k.policy.Sound) (hexpiry : k.expiry.Sound)
    (hbetween : k.stage.isBetween = true) : k.Sound := by
  refine sound_of_quiet hpolicy hexpiry (Stage.pending_of_isBetween hbetween)
    fun victim issued h => ?_
  rw [h] at hbetween
  cases hbetween

theorem LoopStep.sound (h : LoopStep k heard k') (hk : k.Sound) : k'.Sound := by
  cases h with
  | hear e hbetween =>
      obtain ⟨hpolicy, hexpiry⟩ := observe_sound hk.policy hk.expiry e
      refine sound_of_isBetween hpolicy hexpiry ?_
      rwa [observe_stage]
  | turn stage hbetween hstage =>
      rcases hstage with hstage | ⟨now, rfl⟩
      · exact sound_of_isBetween hk.policy hk.expiry hstage
      · exact sound_of_quiet hk.policy hk.expiry rfl (by simp)
  | sweep listing clock s s' k' hquiet hstep => exact (move_of_step hstep).sound hk

theorem LoopStep.kind (h : LoopStep k heard k') (hk : k.Sound) :
    k'.policy.kind = k.policy.kind := by
  cases h with
  | hear e hbetween => exact observe_kind k e
  | turn stage hbetween hstage => rfl
  | sweep listing clock s s' k' hquiet hstep =>
      rcases (move_of_step hstep).forgets hk hquiet with ⟨hpolicy, _⟩ | ⟨victim, hpolicy, _⟩ <;>
        simp [hpolicy]

theorem LoopStep.indexed_turn {stage : Stage} (hbetween : k.stage.isBetween = true)
    (hstage : stage.isBetween = true ∨ ∃ now, stage = .expiring now 0 [] []) (key : String) :
    { k with stage }.indexed key = k.indexed key := by
  rw [indexed_of_pending (Stage.pending_of_isBetween hbetween), indexed_of_pending]
  rcases hstage with hstage | ⟨now, rfl⟩
  · exact Stage.pending_of_isBetween hstage
  · rfl

/-- A key that a keeper knows to expire stays one that it can give up. -/
theorem LoopStep.tracked (h : LoopStep k heard k') (hk : k.Sound)
    (hputs : ∀ e ∈ heard, e.change ≠ .put none)
    (hall : ∀ key, k.indexed key ≠ none → k.policy.tracks key = true) (key : String)
    (hkey : k'.indexed key ≠ none) : k'.policy.tracks key = true := by
  cases h with
  | hear e hbetween =>
      have hpending := Stage.pending_of_isBetween hbetween
      rw [indexed_of_pending (by rwa [observe_stage])] at hkey
      have hbefore := hall key
      rw [indexed_of_pending hpending] at hbefore
      by_cases hother : key = e.key
      · obtain ⟨_, change⟩ := e
        subst hother
        cases change with
        | put entry =>
            cases entry with
            | none => exact absurd rfl (hputs _ List.mem_cons_self)
            | some entry => exact (observe_put hk key entry).1
        | get => exact hk.policy.tracks_get key (hbefore hkey)
        | delete => exact absurd (observe_delete hk key).2 hkey
      · rw [observe_tracks_of_ne hk hother]
        rw [observe_time?_of_ne hk hother] at hkey
        exact hbefore hkey
  | turn stage hbetween hstage =>
      rw [indexed_turn hbetween hstage] at hkey
      exact hall key hkey
  | sweep listing clock s s' k' hquiet hstep =>
      rcases (move_of_step hstep).forgets hk hquiet with ⟨hpolicy, hindexed⟩ |
        ⟨victim, hpolicy, hindexed⟩
      · rw [hpolicy]
        exact hall key (hindexed key ▸ hkey)
      · rw [hindexed] at hkey
        split_ifs at hkey with hvictim
        · exact absurd rfl hkey
        · rw [hpolicy, hk.policy.tracks_delete]
          exact ⟨hvictim, hall key hkey⟩

/-- A key that a keeper can give up stays one that it knows to expire, unless a read of a key that
it does not track makes it track the key. -/
theorem LoopStep.indexed (h : LoopStep k heard k') (hk : k.Sound)
    (hputs : ∀ e ∈ heard, e.change ≠ .put none)
    (hgets : k.policy.kind ≠ .lfu ∨
      ∀ e ∈ heard, e.change = .get → k.policy.tracks e.key = true)
    (hall : ∀ key, k.policy.tracks key = true → k.indexed key ≠ none) (key : String)
    (hkey : k'.policy.tracks key = true) : k'.indexed key ≠ none := by
  cases h with
  | hear e hbetween =>
      have hpending := Stage.pending_of_isBetween hbetween
      rw [indexed_of_pending (by rwa [observe_stage])]
      have hbefore := hall key
      rw [indexed_of_pending hpending] at hbefore
      by_cases hother : key = e.key
      · obtain ⟨_, change⟩ := e
        subst hother
        cases change with
        | put entry =>
            cases entry with
            | none => exact absurd rfl (hputs _ List.mem_cons_self)
            | some entry => simp [(observe_put hk key entry).2]
        | get =>
            rcases hgets with hkind | htracked
            · exact hbefore (hk.policy.tracks_of_get hkind hkey)
            · exact hbefore (htracked _ List.mem_cons_self rfl)
        | delete => simp [(observe_delete hk key).1] at hkey
      · rw [observe_time?_of_ne hk hother]
        rw [observe_tracks_of_ne hk hother] at hkey
        exact hbefore hkey
  | turn stage hbetween hstage =>
      rw [indexed_turn hbetween hstage]
      exact hall key hkey
  | sweep listing clock s s' k' hquiet hstep =>
      rcases (move_of_step hstep).forgets hk hquiet with ⟨hpolicy, hindexed⟩ |
        ⟨victim, hpolicy, hindexed⟩
      · rw [hindexed]
        exact hall key (hpolicy ▸ hkey)
      · rw [hpolicy, hk.policy.tracks_delete] at hkey
        rw [hindexed, if_neg hkey.1]
        exact hall key hkey.2

/-! ## All steps -/

theorem LoopRun.quiet {b : Keeper} (h : LoopRun b past k) (hstep : LoopStep k [] k') :
    LoopRun b past k' := by
  simpa using h.step hstep

theorem LoopRun.sound {b : Keeper} (h : LoopRun b past k) (hb : b.Sound) :
    k.Sound ∧ k.policy.kind = b.policy.kind := by
  induction h with
  | start => exact ⟨hb, rfl⟩
  | step h hstep ih => exact ⟨hstep.sound ih.1, (hstep.kind ih.1).trans ih.2⟩

theorem LoopRun.tracked {b : Keeper} (h : LoopRun b past k) (hb : b.Sound)
    (hall : ∀ key, b.indexed key ≠ none → b.policy.tracks key = true)
    (hputs : ∀ p ∈ past, p.2.change ≠ .put none) (key : String) (hkey : k.indexed key ≠ none) :
    k.policy.tracks key = true := by
  induction h generalizing key with
  | start => exact hall key hkey
  | @step past k k' heard h hstep ih =>
      apply hstep.tracked (h.sound hb).1 _ _ key hkey
      · exact fun e he => hputs (k, e) (List.mem_append_right _ (List.mem_map_of_mem he))
      · exact fun key => ih (fun p hp => hputs p (List.mem_append_left _ hp)) key

theorem LoopRun.indexed {b : Keeper} (h : LoopRun b past k) (hb : b.Sound)
    (hall : ∀ key, b.policy.tracks key = true → b.indexed key ≠ none)
    (hputs : ∀ p ∈ past, p.2.change ≠ .put none)
    (hgets : b.policy.kind ≠ .lfu ∨
      ∀ p ∈ past, p.2.change = .get → p.1.policy.tracks p.2.key = true)
    (key : String) (hkey : k.policy.tracks key = true) : k.indexed key ≠ none := by
  induction h generalizing key with
  | start => exact hall key hkey
  | @step past k k' heard h hstep ih =>
      obtain ⟨hsound, hkind⟩ := h.sound hb
      have hmem : ∀ e ∈ heard, (k, e) ∈ past ++ heard.map fun e => (k, e) := fun e he =>
        List.mem_append_right _ (List.mem_map_of_mem he)
      apply hstep.indexed hsound _ _ _ key hkey
      · exact fun e he => hputs (k, e) (hmem e he)
      · exact hgets.imp (fun hne => hkind ▸ hne) fun htracked e he => htracked (k, e) (hmem e he)
      · exact fun key => ih (fun p hp => hputs p (List.mem_append_left _ hp))
          (hgets.imp_right fun htracked p hp => htracked p (List.mem_append_left _ hp)) key

/-- Whatever a new keeper hears, and whatever becomes of the deletions of its sweeps, every key that
its index has is tracked by its policy, and no other key is, unless the policy has started to track
a key when it heard of a read. -/
theorem aligned (kind : PolicyKind) (limit pollMs : Nat) {past : List (Keeper × Event)}
    {k : Keeper} (hrun : LoopRun (make kind limit pollMs) past k)
    (hputs : ∀ p ∈ past, p.2.change ≠ .put none) :
    (∀ key, k.indexed key ≠ none → k.policy.tracks key = true) ∧
      ((kind ≠ .lfu ∨ ∀ p ∈ past, p.2.change = .get → p.1.policy.tracks p.2.key = true) →
        ∀ key, k.indexed key ≠ none ↔ k.policy.tracks key = true) ∧
      (k.stage.pending = [] → ∀ key, k.indexed key = k.expiry.time? key) := by
  have hb := sound_make kind limit pollMs
  have hnone : ∀ key, (make kind limit pollMs).indexed key = none := fun key => by
    rw [indexed_of_pending rfl]
    exact ExpiryIndex.time?_empty key
  have hempty : ∀ key, (make kind limit pollMs).policy.tracks key ≠ true := fun key h => by
    rw [hb.policy.tracks_iff, make, Policy.keys_empty] at h
    cases h
  have htracked := hrun.tracked hb (fun key h => absurd (hnone key) h) hputs
  refine ⟨htracked, fun hgets key => ⟨htracked key, ?_⟩, indexed_of_pending⟩
  refine hrun.indexed hb (fun key h => absurd h (hempty key)) hputs ?_ key
  rwa [make, Policy.kind_empty]

def putting (key : String) : Event := ⟨key, .put (some ⟨"v", 0, 5⟩)⟩

/-- A keeper that has heard of two puts. -/
def afterPuts : Keeper := ((make .lfu 1 0).observe (putting "k")).observe (putting "l")

/-- The same keeper and a shard with room for one request, after a read was heard of and so many
steps of a sweep. -/
def thwarted (steps : Nat) : Shard × Keeper :=
  run .ascending ⟨5, 0⟩ steps (Shard.make (Ring.empty "n" 1) 1 (EventQueue.make 1 1))
    ((afterPuts.observe ⟨"k", .get⟩).sweep ⟨5, 0⟩)

/-- The first deletion of the sweep is accepted and the second is refused, so that one key is
forgotten and the other one is put back. -/
theorem aligned_of_refusal :
    (thwarted 3).1.queue = [(0, ⟨"k", .delete⟩)] ∧ (thwarted 3).2.indexed "k" = none ∧
      (thwarted 3).2.indexed "l" = some 5 ∧
      (∀ key, (thwarted 3).2.indexed key ≠ none → (thwarted 3).2.policy.tracks key = true) ∧
      (∀ key, (thwarted 3).2.indexed key ≠ none ↔ (thwarted 3).2.policy.tracks key = true) ∧
      ∀ key, (thwarted 3).2.indexed key = (thwarted 3).2.expiry.time? key := by
  have hstart : LoopRun (make .lfu 1 0)
      [(make .lfu 1 0, putting "k"), ((make .lfu 1 0).observe (putting "k"), putting "l"),
        (afterPuts, ⟨"k", .get⟩)] (thwarted 0).2 := by
    have hputs : LoopRun (make .lfu 1 0) _ afterPuts :=
      .step (.step .start (.hear (putting "k") rfl)) (.hear (putting "l") rfl)
    exact (hputs.step (.hear ⟨"k", .get⟩ rfl)).quiet (.turn _ rfl (Or.inr ⟨5, rfl⟩))
  have hbucket := hstart.quiet (.sweep .ascending ⟨5, 0⟩ (thwarted 0).1 (thwarted 1).1
    (thwarted 1).2 rfl (by rfl))
  have haccepted := hbucket.quiet (.sweep .ascending ⟨5, 0⟩ (thwarted 1).1 (thwarted 2).1
    (thwarted 2).2 (by rfl) (by rfl))
  have hrefused := haccepted.quiet (.sweep .ascending ⟨5, 0⟩ (thwarted 2).1 (thwarted 3).1
    (thwarted 3).2 (by rfl) (by rfl))
  have hread : afterPuts.policy.tracks "k" = true := by rfl
  obtain ⟨htracked, hmatch, hquiet⟩ := aligned .lfu 1 0 hrefused (by simp [putting])
  exact ⟨by rfl, by rfl, by rfl, htracked, hmatch (Or.inr (by simp [putting, hread])),
    hquiet (by rfl)⟩

/-! ## The keeper of a node -/

/-- A step of a pass is a step of the loop, or it is two: an event is heard, and the next one is
looked for. -/
theorem LoopRun.keep {b : Keeper} (h : LoopRun b past k) (listing : Listing) (clock : Clock)
    (s : Shard) {s' : Shard} (hstep : k.step listing clock s = some (s', k')) :
    ∃ heard, LoopRun b (past ++ heard) k' ∧
      heard.map (·.2) = Journal.observed (Record.ofStep s k) := by
  have hmove := move_of_step hstep
  cases hbudget : k.stage.budget? with
  | none =>
      refine ⟨[], by simpa using h.quiet (.sweep listing clock s s' k' hbudget hstep), ?_⟩
      generalize Record.ofStep s k = rs at hmove ⊢
      cases hmove with
      | note e rest left hwaiting hstage =>
          rcases hstage with ⟨d, hstage, _⟩ | hstage <;> simp [hstage, Stage.budget?] at hbudget
      | _ => rfl
  | some budget =>
      have hbetween : k.stage.isBetween = true := by
        revert hbudget
        cases k.stage <;> simp [Stage.budget?, Stage.isBetween]
      generalize Record.ofStep s k = rs at hmove ⊢
      cases hmove with
      | note e rest left hwaiting hstage =>
          have hheard := h.step (.hear e hbetween)
          exact ⟨[(k, e)], hheard.quiet (.turn _ (by rwa [observe_stage]) (Or.inl rfl)), rfl⟩
      | pause deadline hstage hspent =>
          exact ⟨[], h.step (.turn _ hbetween (Or.inl rfl)), rfl⟩
      | sweep hstage =>
          exact ⟨[], h.step (.turn _ hbetween (Or.inr ⟨clock.seconds, rfl⟩)), rfl⟩
      | _ => simp_all [Stage.budget?]

end Keeper

namespace Node

/-- The keeper of a node does nothing but steps of the loop. -/
theorem exists_loopRun (n : Node) (acts : List Act) :
    ∃ past, Keeper.LoopRun n.keeper past (n.run acts).keeper ∧
      past.map (·.2) = Journal.observed (n.journal acts) := by
  induction acts using List.reverseRecOn with
  | nil => exact ⟨[], .start, rfl⟩
  | append_singleton acts a ih =>
      obtain ⟨past, hrun, hpast⟩ := ih
      rw [run_concat, journal_concat, Journal.observed_append]
      generalize n.run acts = m at *
      have hsame : (m.act a).keeper = m.keeper → Journal.observed (m.records a) = [] →
          ∃ past', Keeper.LoopRun n.keeper past' (m.act a).keeper ∧
            past'.map (·.2) = Journal.observed (n.journal acts) ++ Journal.observed (m.records a) :=
        fun hkeeper hnone => ⟨past, hkeeper ▸ hrun, by rw [hpast, hnone, List.append_nil]⟩
      cases a with
      | keep listing clock =>
          cases hstep : m.keeper.step listing clock m.shard with
          | none =>
              refine hsame (by simp [act, hstep]) ?_
              rw [records, Keeper.ofStep_of_stuck hstep]
              rfl
          | some found =>
              obtain ⟨heard, hnext, hheard⟩ := hrun.keep listing clock m.shard hstep
              refine ⟨past ++ heard, by simpa [act, hstep] using hnext, ?_⟩
              rw [List.map_append, hpast, hheard]
              rfl
      | begin clock =>
          by_cases hrests : m.keeper.isResting = true
          · have hbetween : m.keeper.stage.isBetween = true := by
              revert hrests
              rw [Keeper.isResting]
              cases m.keeper.stage <;> simp [Stage.isBetween]
            refine ⟨past, ?_, by rw [hpast]; exact (List.append_nil _).symm⟩
            simpa [act, hrests, Keeper.begin] using
              hrun.quiet (.turn (.polling (clock.millis + m.keeper.pollMs)) hbetween (Or.inl rfl))
          · exact hsame (by simp [act, hrests]) rfl
      | work now fatal =>
          refine hsame ?_ (m.shard.turn_work now).queue.2.2
          simp only [act]
          rcases m.shard.work now with ⟨shard, _ | ⟨ticket, call⟩⟩
          · rfl
          · cases fatal <;> rfl
      | answer ticket reply =>
          refine hsame ?_ rfl
          simp only [act]
          split_ifs <;> rfl
      | submit r =>
          refine hsame rfl ?_
          rw [records, Record.ofSubmit]
          cases (m.shard.submit r).2 <;> rfl
      | _ => exact hsame rfl rfl

end Node

end ClusterCache
