import ClusterCache.Proofs.Keeper
import Mathlib.Data.Nat.Find

/-!
# A keeper among others

Between two steps of a keeper the others may do anything to the shard.  A course says what they do
before every step, in which order a bucket is listed then, and what time it is.  As long as time
goes on a keeper does not wait for ever.
-/

namespace ClusterCache.Keeper

/-- What surrounds a step of a keeper. -/
structure Surroundings where
  others : Shard → Shard
  listing : Listing
  clock : Clock

/-- The clock runs past any time for good. -/
def Timely (world : Nat → Surroundings) : Prop :=
  ∀ millis, ∃ i, ∀ j, i ≤ j → millis ≤ (world j).clock.millis

/-- A keeper on a shard, with what surrounds its steps, one after the other. -/
structure Course where
  world : Nat → Surroundings
  shard : Shard
  keeper : Keeper

namespace Course

/-- The shard and the keeper after so many steps.  A keeper that has to wait stays as it is. -/
def state (c : Course) : Nat → Shard × Keeper
  | 0 => (c.shard, c.keeper)
  | i + 1 =>
    let s := (c.world i).others (c.state i).1
    ((c.state i).2.step (c.world i).listing (c.world i).clock s).getD (s, (c.state i).2)

variable (c : Course)

def keeperAt (i : Nat) : Keeper := (c.state i).2

/-- The shard as a step finds it. -/
def met (i : Nat) : Shard := (c.world i).others (c.state i).1

/-- The keeper has to wait. -/
def Waits (i : Nat) : Prop :=
  (c.keeperAt i).step (c.world i).listing (c.world i).clock (c.met i) = none

/-- What is to be said of the first steps. -/
def journal (count : Nat) : Journal :=
  (List.range count).flatMap fun i => Record.ofStep (c.met i) (c.keeperAt i)

/-- By how much the first steps have raised a counter, whatever the others did to it. -/
def raised (counter : Counters → Nat) : Nat → Int
  | 0 => 0
  | i + 1 => raised counter i +
    (counter (c.state (i + 1)).1.counters - counter (c.met i).counters : Int)

variable {c} {i : Nat}

theorem journal_succ (i : Nat) :
    c.journal (i + 1) = c.journal i ++ Record.ofStep (c.met i) (c.keeperAt i) := by
  simp [journal, List.range_succ]

theorem raised_succ (counter : Counters → Nat) (i : Nat) :
    c.raised counter (i + 1) = c.raised counter i +
      (counter (c.state (i + 1)).1.counters - counter (c.met i).counters : Int) := rfl

theorem state_of_waits (h : c.Waits i) : c.state (i + 1) = (c.met i, c.keeperAt i) := by
  have hstep : (c.state i).2.step (c.world i).listing (c.world i).clock
      ((c.world i).others (c.state i).1) = none := h
  simp only [state, hstep]
  rfl

theorem keeperAt_of_waits (h : c.Waits i) : c.keeperAt (i + 1) = c.keeperAt i := by
  rw [keeperAt, state_of_waits h]

theorem journal_of_waits (h : c.Waits i) : c.journal (i + 1) = c.journal i := by
  rw [journal_succ, ofStep_of_stuck h, List.append_nil]

theorem raised_of_waits (h : c.Waits i) (counter : Counters → Nat) :
    c.raised counter (i + 1) = c.raised counter i := by
  rw [raised_succ, state_of_waits h, Int.sub_self, Int.add_zero]

theorem move (h : ¬ c.Waits i) :
    Move (c.world i).listing (c.world i).clock (c.met i) (c.keeperAt i)
      (Record.ofStep (c.met i) (c.keeperAt i)) (c.state (i + 1)).1 (c.keeperAt (i + 1)) := by
  obtain ⟨⟨s', k'⟩, hstep⟩ := Option.ne_none_iff_exists'.mp h
  have hstate : c.state (i + 1) = (s', k') := by
    have hnext : (c.state i).2.step (c.world i).listing (c.world i).clock
        ((c.world i).others (c.state i).1) = some (s', k') := hstep
    simp only [state, hnext, Option.getD_some]
  have hkeeper : c.keeperAt (i + 1) = k' := by rw [keeperAt, hstate]
  rw [hkeeper, hstate]
  exact move_of_step hstep

/-! ## Nobody waits for ever -/

theorem keeperAt_of_all_wait {j : Nat} (hij : i ≤ j) (h : ∀ l, i ≤ l → l < j → c.Waits l) :
    c.keeperAt j = c.keeperAt i := by
  induction j, hij using Nat.le_induction with
  | base => rfl
  | succ j hij ih =>
      rw [keeperAt_of_waits (h j hij (Nat.lt_succ_self j))]
      exact ih fun l hil hlj => h l hil (Nat.lt_succ_of_lt hlj)

theorem exists_move (htime : Timely c.world) (hstage : (c.keeperAt i).stage ≠ .resting) :
    ∃ j, i ≤ j ∧ ¬ c.Waits j := by
  by_contra hnone
  push Not at hnone
  -- The keeper would wait until one and the same time.
  obtain ⟨first, hfirst⟩ := htime ((c.keeperAt i).deadline?.getD 0)
  have hsame := keeperAt_of_all_wait (Nat.le_max_left i first) fun l hl _ => hnone l hl
  refine step_ne_none (k := c.keeperAt (max i first)) (hsame ▸ hstage) (fun deadline hd => ?_)
    (hnone _ (Nat.le_max_left i first))
  rw [hsame] at hd
  simpa [hd] using hfirst _ (Nat.le_max_right i first)

/-- What is kept while the keeper waits is kept until it goes on. -/
theorem exists_next (htime : Timely c.world) {I : Nat → Prop}
    (hstage : ∀ i, I i → (c.keeperAt i).stage ≠ .resting)
    (hwait : ∀ i, I i → c.Waits i → I (i + 1)) (hall : ∀ l, l ≤ i → I l) :
    ∃ j, ¬ c.Waits j ∧ (∀ l, l ≤ j → I l) ∧ c.keeperAt j = c.keeperAt i := by
  classical
  have hexists := exists_move htime (hstage i (hall i (Nat.le_refl i)))
  obtain ⟨hij, hmoves⟩ := Nat.find_spec hexists
  have hwaits : ∀ l, i ≤ l → l < Nat.find hexists → c.Waits l := fun l hil hl => by
    by_contra hnot
    exact Nat.find_min hexists hl ⟨hil, hnot⟩
  refine ⟨_, hmoves, fun l hl => ?_, keeperAt_of_all_wait hij hwaits⟩
  rcases Nat.le_total l i with hli | hil
  · exact hall l hli
  · induction l, hil using Nat.le_induction with
    | base => exact hall i (Nat.le_refl i)
    | succ l hil ih => exact hwait l (ih (Nat.le_of_succ_le hl)) (hwaits l hil hl)

/-- What is kept while the keeper waits, and by every step that does not bring something about,
ends by bringing it about if every such step comes closer to it. -/
theorem ends (htime : Timely c.world) {I P : Nat → Prop} (rank : Keeper → Nat)
    (hstage : ∀ i, I i → (c.keeperAt i).stage ≠ .resting)
    (hwait : ∀ i, I i → c.Waits i → I (i + 1))
    (hmove : ∀ i, I i → ¬ c.Waits i →
      P (i + 1) ∨ I (i + 1) ∧ rank (c.keeperAt (i + 1)) < rank (c.keeperAt i))
    (hstart : I 0) : ∃ n, P n ∧ ∀ i, i < n → I i := by
  have hfrom : ∀ bound i, rank (c.keeperAt i) < bound → (∀ l, l ≤ i → I l) →
      ∃ n, P n ∧ ∀ i, i < n → I i := by
    intro bound
    induction bound with
    | zero => exact fun i hlt => absurd hlt (Nat.not_lt_zero _)
    | succ bound ih =>
        intro i hrank hall
        obtain ⟨j, hmoves, hkept, hsame⟩ := exists_next htime hstage hwait hall
        rcases hmove j (hkept j (Nat.le_refl j)) hmoves with hdone | ⟨hnext, hless⟩
        · exact ⟨j + 1, hdone, fun l hl => hkept l (Nat.le_of_lt_succ hl)⟩
        · rw [hsame] at hless
          refine ih (j + 1) (by omega) fun l hl => ?_
          rcases Nat.lt_or_eq_of_le hl with hlt | rfl
          · exact hkept l (Nat.le_of_lt_succ hlt)
          · exact hnext
  refine hfrom _ 0 (Nat.lt_succ_self _) fun l hl => ?_
  obtain rfl := Nat.le_zero.mp hl
  exact hstart

end Course

end ClusterCache.Keeper
