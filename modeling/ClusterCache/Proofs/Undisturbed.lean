import ClusterCache.Proofs.Pass
import Mathlib.Data.Prod.Lex
import Mathlib.Order.WellFounded

/-!
# Undisturbed passes

A pass is undisturbed if nobody submits anything while it goes on, if the worker takes its turns
while the keeper waits for deletions, and if the keeper does not lose patience.  However the steps
of the keeper and the turns of the worker are mixed, the pass goes through its stages, and it
comes to an end.
-/

namespace ClusterCache.Node

/-- Whether an act does not disturb a pass at a second of the clock. -/
def Allows (n : Node) (now : UInt64) : Act → Prop
  | .abandon _ | .answer _ _ => True
  | .work _ _ => n.shard.queue = [] ∨
      ∃ last deadline waited, n.keeper.stage = .settling last deadline waited
  | .keep _ clock => clock.seconds = now ∧ ∀ last deadline ticket rest,
      n.keeper.stage = .settling last deadline (ticket :: rest) → deadline ≤ clock.millis →
      n.shard.replies.contains ticket = true
  | _ => False

/-- Whether none of the acts of a run disturbs a pass. -/
def Undisturbed (now : UInt64) : Node → List Act → Prop
  | _, [] => True
  | n, a :: acts => n.Allows now a ∧ Undisturbed now (n.act a) acts

/-- Whether the acts of a run are those of one undisturbed pass, from its beginning to its end. -/
def Passes (n : Node) (clock : Clock) (acts : List Act) : Prop :=
  ∃ rest, acts = .begin clock :: rest ∧ Undisturbed clock.seconds (n.act (.begin clock)) rest ∧
    (n.run acts).keeper.stage = .resting

variable {n m : Node} {now : UInt64} {a : Act} {acts : List Act}

/-- How far a pass has come, and that no later request is away. -/
structure Passing (n : Node) (now : UInt64) (m : Node) : Prop where
  phase : n.Phase now m.shard m.keeper
  away : ∀ t ∈ m.away, t < n.shard.tickets

theorem Passing.act (h : n.Passing now m) (hr : n.Ready) (ha : m.Allows now a) :
    n.Passing now (m.act a) := by
  cases a with
  | submit | begin | join | part | close => cases ha
  | abandon ticket => exact ⟨h.phase, h.away⟩
  | answer ticket reply =>
      by_cases haway : ticket ∈ m.away
      · rw [act, if_pos haway]
        exact ⟨h.phase.answer (h.away ticket haway) reply,
          fun t ht => h.away t (List.mem_of_mem_filter ht)⟩
      · rw [act, if_neg haway]
        exact h
  | work time fatal =>
      rcases ha with hqueue | ⟨last, deadline, waited, hstage⟩
      · have hidle : m.shard.work time = (m.shard, none) := by simp [Shard.work, hqueue]
        rw [act, hidle]
        exact h
      · obtain ⟨s', hwork, hphase, _⟩ := h.phase.work hr hstage time
        rw [act, hwork]
        exact ⟨hphase, h.away⟩
  | keep listing clock =>
      rw [act]
      cases hstep : m.keeper.step listing clock m.shard with
      | none => exact h
      | some found =>
          exact ⟨h.phase.keep hr (Keeper.move_of_step hstep) ha.1 ha.2, h.away⟩

theorem Passing.run (h : n.Passing now m) (hr : n.Ready) (hacts : Undisturbed now m acts) :
    n.Passing now (m.run acts) := by
  induction acts generalizing m with
  | nil => exact h
  | cons a acts ih => exact ih (h.act hr hacts.1) hacts.2

theorem Ready.act_begin (hr : n.Ready) (clock : Clock) :
    n.act (.begin clock) = { n with keeper := n.keeper.begin clock } := by
  rw [act, if_pos (by simp [Keeper.isResting, hr.stage])]

theorem Ready.passing_begin (hr : n.Ready) (clock : Clock) :
    n.Passing now (n.act (.begin clock)) := by
  rw [hr.act_begin]
  refine ⟨.hearing (Keeper.drainLimit + 1) ⟨rfl, ?_, ?_, rfl, rfl, rfl, rfl, ?_, ?_⟩, hr.tidy.away⟩
  · exact deleting_start hr.alive hr.queue hr.tidy.shard.size hr.tidy.shard.replies
  · exact Keeper.sound_of_quiet hr.sound.policy hr.sound.expiry rfl (by simp [Keeper.begin])
  · rw [Keeper.begin, Keeper.hear_with, informed]
  · rw [Keeper.begin, Keeper.hear_with, informed]

theorem Passing.of_passes (hr : n.Ready) {clock : Clock} (h : n.Passes clock acts) :
    n.Passing clock.seconds (n.run acts) := by
  obtain ⟨rest, rfl, hrest, _⟩ := h
  exact (hr.passing_begin clock).run hr hrest

/-- A pass that is over is in its last stage. -/
theorem Passing.ended (h : n.Passing now m) (hstage : m.keeper.stage = .resting) :
    ∃ expired evicted, n.Expired now expired ∧ n.Evicted expired evicted ∧
      Deleting n.heard m.shard (expired ++ evicted) [] ∧
      n.Stands m.shard m.keeper expired evicted := by
  cases h.phase with
  | ended expired evicted _ hexpired hevicted hshard hstands =>
      exact ⟨expired, evicted, hexpired, hevicted, hshard, hstands⟩
  | hearing budget h =>
      have hbudget := h.stage
      rw [hstage] at hbudget
      cases hbudget
  | evicting b expired evicted hstage' => rcases hstage' with hstage' | ⟨_, hstage', _⟩ <;> simp_all
  | _ => simp_all

/-! ## A pass comes to an end -/

/-- What is left to be done in a pass: the stages to come, and within a stage the steps at most. -/
def rank (s : Shard) (k : Keeper) : Nat ×ₗ Nat :=
  match k.stage with
  | .resting => toLex (0, 0)
  | .settling true _ waited => toLex (1, waited.length + s.queue.length)
  | .evicting _ _ => toLex (2, 2 * (s.capacity - s.queue.length))
  | .measuring _ => toLex (2, 2 * (s.capacity - s.queue.length) + 1)
  | .settling false _ waited => toLex (3, waited.length + s.queue.length)
  | .expiring _ _ keys _ =>
      toLex (4, 2 * (s.capacity - s.queue.length) + if keys = [] then 1 else 0)
  | .draining left => toLex (5, left)
  | .pausing _ => toLex (6, 0)
  | .polling _ => toLex (7, 0)

section Rank

variable {listing : Listing} {clock : Clock} {s s' : Shard} {k k' : Keeper} {rs : Journal}

theorem rank_lt (h : Keeper.Move listing clock s k rs s' k') (hk : k.Sound) :
    rank s' k' < rank s k := by
  cases h with
  | note e rest left hwaiting hstage =>
      rcases hstage with ⟨deadline, hstage, _⟩ | hstage
      · simp [rank, hstage, Prod.Lex.toLex_lt_toLex]
      · simp [rank, hstage, Prod.Lex.toLex_lt_toLex]
  | pause deadline hstage hspent => simp [rank, hstage, Prod.Lex.toLex_lt_toLex]
  | sweep hstage =>
      rcases hstage with ⟨d, hstage, _⟩ | ⟨d, hstage, _⟩ | ⟨d, hstage, _⟩ <;>
        simp [rank, hstage, Keeper.sweep, Prod.Lex.toLex_lt_toLex]
  | bucket now time now' issued keys x hstage hearliest hpoll hdue =>
      obtain ⟨key, hkey⟩ := hk.expiry.exists_mem_earliest? hearliest
      have hne : listing.list keys ≠ [] := by
        apply List.ne_nil_of_mem (a := key)
        rw [(listing.perm keys).mem_iff, Std.ExtTreeSet.mem_toList]
        exact hkey
      simp [rank, hstage, hne, Prod.Lex.toLex_lt_toLex]
  | swept now time issued hstage hnone =>
      simp [rank, hstage, Keeper.settle, Prod.Lex.toLex_lt_toLex]
  | expire now time key rest issued hstage hnone =>
      have hroom := (Shard.refusal?_eq_none hnone).2.2
      simp only [rank, hstage, Shard.enqueue, Prod.Lex.toLex_lt_toLex, List.length_append,
        List.length_singleton, reduceCtorEq, if_false]
      right
      refine ⟨trivial, ?_⟩
      split_ifs <;> omega
  | giveBack now time key rest issued failure hstage hrefusal =>
      simp [rank, hstage, Keeper.settle, Prod.Lex.toLex_lt_toLex]
  | choose issued victim hstage hover hvictim =>
      simp [rank, hstage, Prod.Lex.toLex_lt_toLex]
  | measured issued hstage henough =>
      simp [rank, hstage, Keeper.settle, Prod.Lex.toLex_lt_toLex]
  | evict victim issued hstage hnone =>
      have hroom := (Shard.refusal?_eq_none hnone).2.2
      simp only [rank, hstage, Shard.enqueue, Prod.Lex.toLex_lt_toLex, List.length_append,
        List.length_singleton]
      right
      refine ⟨trivial, ?_⟩
      omega
  | halt victim issued failure hstage hrefusal =>
      simp [rank, hstage, Keeper.settle, Prod.Lex.toLex_lt_toLex]
  | settled last deadline ticket issued hstage hdone =>
      cases last <;>
        simp only [rank, hstage, Keeper.settle, Prod.Lex.toLex_lt_toLex, List.length_cons] <;>
        right <;> refine ⟨trivial, ?_⟩ <;> omega
  | turn deadline hstage => simp [rank, hstage, Prod.Lex.toLex_lt_toLex]
  | finish deadline hstage => simp [rank, hstage, Keeper.finish, Prod.Lex.toLex_lt_toLex]

end Rank

theorem rank_keep_lt (hk : m.keeper.Sound) {listing : Listing} {clock : Clock}
    (hstep : m.keeper.step listing clock m.shard ≠ none) :
    rank (m.act (.keep listing clock)).shard (m.act (.keep listing clock)).keeper <
      rank m.shard m.keeper := by
  obtain ⟨found, hfound⟩ := Option.ne_none_iff_exists'.mp hstep
  rw [act, hfound]
  exact rank_lt (Keeper.move_of_step hfound) hk

/-- As long as a pass is not over, something can be done that brings it nearer to its end. -/
theorem Passing.progress (h : n.Passing now m) (hr : n.Ready)
    (hstage : m.keeper.stage ≠ .resting) :
    ∃ a, m.Allows now a ∧ rank (m.act a).shard (m.act a).keeper < rank m.shard m.keeper := by
  have hk := h.phase.sound
  -- Whatever is not waiting for a deletion goes on when its time has come.
  have hkeep : ∀ millis, m.keeper.step .ascending ⟨now, millis⟩ m.shard ≠ none →
      (∀ last deadline ticket rest,
        m.keeper.stage = .settling last deadline (ticket :: rest) →
        m.shard.replies.contains ticket = true) →
      ∃ a, m.Allows now a ∧ rank (m.act a).shard (m.act a).keeper < rank m.shard m.keeper :=
    fun millis hstep hreplies => ⟨.keep .ascending ⟨now, millis⟩,
      ⟨rfl, fun last deadline ticket rest hs _ => hreplies last deadline ticket rest hs⟩,
      rank_keep_lt hk hstep⟩
  cases hs : m.keeper.stage with
  | resting => exact absurd hs hstage
  | polling deadline =>
      refine hkeep deadline ?_ (by simp [hs])
      simp only [Keeper.step, hs]
      cases m.shard.events.take? with
      | some found => simp
      | none => split_ifs <;> simp_all
  | pausing deadline => exact hkeep deadline (by simp [Keeper.step, hs]) (by simp [hs])
  | draining left =>
      refine hkeep 0 ?_ (by simp [hs])
      cases left with
      | zero => simp [Keeper.step, hs]
      | succ left => cases htake : m.shard.events.take? <;> simp [Keeper.step, hs, htake]
  | expiring time' time keys issued => exact hkeep 0 (by simp [Keeper.step, hs]) (by simp [hs])
  | measuring issued => exact hkeep 0 (by simp [Keeper.step, hs]) (by simp [hs])
  | evicting victim issued => exact hkeep 0 (by simp [Keeper.step, hs]) (by simp [hs])
  | settling last deadline waited =>
      cases waited with
      | nil => exact hkeep 0 (by simp [Keeper.step, hs]) (by simp [hs])
      | cons ticket rest =>
          by_cases hreply : m.shard.replies.contains ticket = true
          · apply hkeep 0 (by simp [Keeper.step, hs, hreply])
            intro l d t r heq
            obtain ⟨_, _, hlist⟩ := Stage.settling.inj (hs.symm.trans heq)
            rw [← (List.cons.inj hlist).1]
            exact hreply
          · obtain ⟨s', hwork, _, hshorter⟩ := h.phase.work hr hs 0
            have hlt := hshorter (h.phase.queue_ne_nil hs (Bool.eq_false_iff.mpr hreply))
            refine ⟨.work 0 false, Or.inr ⟨last, deadline, ticket :: rest, hs⟩, ?_⟩
            rw [Node.act, hwork]
            cases last <;> simp [rank, hs, Prod.Lex.toLex_lt_toLex, hlt]

theorem Passing.exists_rest (h : n.Passing now m) (hr : n.Ready) :
    ∃ rest, Undisturbed now m rest ∧ (m.run rest).keeper.stage = .resting := by
  generalize hrank : rank m.shard m.keeper = r
  induction r using WellFoundedLT.induction generalizing m with
  | ind r ih =>
      by_cases hstage : m.keeper.stage = .resting
      · exact ⟨[], trivial, hstage⟩
      · obtain ⟨a, ha, hlt⟩ := h.progress hr hstage
        obtain ⟨rest, hrest, hover⟩ := ih _ (hrank ▸ hlt) (h.act hr ha) rfl
        exact ⟨a :: rest, ⟨ha, hrest⟩, hover⟩

/-- There is always a way to go through a pass. -/
theorem Ready.exists_pass (hr : n.Ready) (clock : Clock) : ∃ acts, n.Passes clock acts := by
  have hbegin : n.Passing clock.seconds (n.act (.begin clock)) := hr.passing_begin clock
  obtain ⟨rest, hrest, hover⟩ := hbegin.exists_rest hr
  exact ⟨.begin clock :: rest, rest, rfl, hrest, hover⟩

end ClusterCache.Node
