import ClusterCache.Proofs.Conservation
import ClusterCache.Proofs.Hearing

/-!
# Evictions stop at the limit

The keeper looks at the size of the store while the worker goes on, and takes off the deletions
that it has issued, of which some may have been executed already.  It never issues a deletion too
many: those that still wait always fit between the limit and the size.
-/

namespace ClusterCache

open Std

def Act.isBegin : Act → Bool
  | .begin _ => true
  | _ => false

def Shard.deletions (s : Shard) : Nat := s.queue.countP (·.2.command.isDelete)

theorem Shard.deletions_cons {s : Shard} {p : Nat × Request} {rest : List (Nat × Request)}
    (hqueue : s.queue = p :: rest) :
    s.deletions = rest.countP (·.2.command.isDelete) + p.2.command.isDelete.toNat := by
  rw [deletions, hqueue, List.countP_cons]
  cases p.2.command.isDelete <;> rfl

/-- How many deletions may wait at a stage of a pass. -/
def Stage.Spares (limit size waiting : Nat) : Stage → Prop
  | .resting | .settling true _ _ => True
  | .measuring issued => waiting ≤ issued.length
  | .evicting _ issued => waiting ≤ issued.length ∧ limit + waiting < size
  | _ => waiting = 0

theorem Stage.Spares.mono {limit size waiting size' waiting' : Nat} {stage : Stage}
    (h : stage.Spares limit size waiting) (hle : waiting' ≤ waiting)
    (hsize : size + waiting' ≤ size' + waiting) : stage.Spares limit size' waiting' := by
  cases stage with
  | resting => trivial
  | settling last deadline issued =>
      cases last with
      | true => trivial
      | false => exact Nat.eq_zero_of_le_zero (h ▸ hle)
  | measuring issued => exact Nat.le_trans hle h
  | evicting victim issued =>
      obtain ⟨hissued, hroom⟩ := h
      exact ⟨Nat.le_trans hle hissued, by omega⟩
  | polling | pausing | draining | expiring => exact Nat.eq_zero_of_le_zero (h ▸ hle)

namespace Finding

theorem toNat_and_le (a b : Bool) : (a && b).toNat ≤ a.toNat := by
  cases a with
  | false => exact Nat.le_refl 0
  | true => exact Bool.toNat_le b

theorem toNat_isReplacement_le (f : Finding) : f.isReplacement.toNat ≤ f.command.isPut.toNat :=
  toNat_and_le _ _

theorem toNat_isRemoval_le (f : Finding) : f.isRemoval.toNat ≤ f.command.isDelete.toNat :=
  toNat_and_le _ _

end Finding

namespace Node

open Journal

/-- Whether no deletion waits whenever a pass begins. -/
def Settles : Node → List Act → Prop
  | _, [] => True
  | n, a :: acts =>
    (a.isBegin = true → n.keeper.isResting = true → n.shard.deletions = 0) ∧
      Settles (n.act a) acts

instance decidableSettles : (n : Node) → (acts : List Act) → Decidable (n.Settles acts)
  | _, [] => .isTrue trivial
  | n, a :: acts =>
    have := decidableSettles (n.act a) acts
    inferInstanceAs (Decidable ((_ → _ → _) ∧ _))

/-- The deletions that wait fit between the limit and the number of entries. -/
structure Roomy (n : Node) : Prop where
  room : 0 < n.shard.deletions → n.keeper.limit + n.shard.deletions ≤ n.shard.store.size
  spares : n.keeper.stage.Spares n.keeper.limit n.shard.store.size n.shard.deletions

variable {n n' : Node} {a : Act} {rs : Journal}

theorem Roomy.mono (hn : n.Roomy) (hkeeper : n'.keeper = n.keeper)
    (hle : n'.shard.deletions ≤ n.shard.deletions)
    (hsize : n.shard.store.size + n'.shard.deletions ≤
      n'.shard.store.size + n.shard.deletions) : n'.Roomy := by
  constructor
  · intro hpos
    have hroom := hn.room (Nat.lt_of_lt_of_le hpos hle)
    rw [hkeeper]
    omega
  · rw [hkeeper]
    exact hn.spares.mono hle hsize

theorem Roomy.skip (hn : n.Roomy) {p : Nat × Request} (hqueue : n.shard.queue = p :: n'.shard.queue)
    (hkeeper : n'.keeper = n.keeper) (hstore : n'.shard.store = n.shard.store) : n'.Roomy := by
  have hbefore := Shard.deletions_cons hqueue
  have hle : n'.shard.deletions ≤ n.shard.deletions := by
    rw [hbefore]
    exact Nat.le_add_right _ _
  apply hn.mono hkeeper hle
  rw [hstore]
  exact Nat.add_le_add_left hle _

theorem size_of_execute (n : Node) (x : Execution) {rest : List (Nat × Request)}
    (hqueue : n.shard.queue = (x.ticket, x.request) :: rest)
    (hlive : (n.shard.store.finding x).isLapse = false) :
    let s := Shard.execute { n.shard with queue := rest } x.now x.ticket x.request
    s.deletions + x.request.command.isDelete.toNat = n.shard.deletions ∧
      s.store.size + (n.shard.store.finding x).isRemoval.toNat ≥ n.shard.store.size := by
  intro s
  have hsize := n.shard.store.size_execute n.shard.counters x
  have hreplacement := Finding.toNat_isReplacement_le (n.shard.store.finding x)
  rw [hlive] at hsize
  constructor
  · rw [Shard.deletions_cons hqueue, Shard.deletions, Shard.execute_queue]
  · have hstore : s.store = (n.shard.store.execute n.shard.counters x.now x.request).store := by
      simp [s, Shard.execute_eq]
    rw [hstore]
    rw [Store.finding_command] at hreplacement
    rw [Bool.toNat_false] at hsize
    omega

theorem Roomy.execute (hn : n.Roomy) {x : Execution} {rest : List (Nat × Request)}
    (hqueue : n.shard.queue = (x.ticket, x.request) :: rest)
    (hlive : (n.shard.store.finding x).isLapse = false)
    (hkeeper : n'.keeper = n.keeper) (hshard : n'.shard =
      Shard.execute { n.shard with queue := rest } x.now x.ticket x.request) : n'.Roomy := by
  obtain ⟨hdeletions, hsize⟩ := n.size_of_execute x hqueue hlive
  rw [← hshard] at hdeletions hsize
  have hremoval : (n.shard.store.finding x).isRemoval.toNat ≤
      x.request.command.isDelete.toNat := Finding.toNat_isRemoval_le _
  apply hn.mono hkeeper
  · omega
  · omega

/-- A deletion that removes an entry leaves as many as the limit. -/
theorem Roomy.limit_le (hn : n.Roomy) {x : Execution} {rest : List (Nat × Request)}
    (hqueue : n.shard.queue = (x.ticket, x.request) :: rest)
    (hremoval : (n.shard.store.finding x).isRemoval = true) :
    n.keeper.limit ≤
      (Shard.execute { n.shard with queue := rest } x.now x.ticket x.request).store.size := by
  have hdelete : x.request.command.isDelete = true := ((Bool.and_eq_true _ _).mp hremoval).1
  have hlive : (n.shard.store.finding x).isLapse = false := by
    rw [Finding.isLapse, Store.finding_command, Command.isDelete_iff.mp hdelete]
    rfl
  obtain ⟨hdeletions, hsize⟩ := n.size_of_execute x hqueue hlive
  rw [hdelete, Bool.toNat_true] at hdeletions
  rw [hremoval, Bool.toNat_true] at hsize
  have hroom := hn.room (by omega)
  omega

theorem Roomy.accept (hn : n.Roomy) {r : Request} (hkeeper : n'.keeper = n.keeper)
    (hstore : n'.shard.store = n.shard.store)
    (hqueue : n'.shard.queue = n.shard.queue ++ [(n.shard.tickets, r)])
    (hdelete : r.command.isDelete = false) : n'.Roomy := by
  have hsame : n'.shard.deletions = n.shard.deletions := by
    rw [Shard.deletions, hqueue, countP_concat, hdelete]
    rfl
  apply hn.mono hkeeper (Nat.le_of_eq hsame)
  exact Nat.le_of_eq (by rw [hsame, hstore])

theorem Roomy.turn {now : UInt64} {s' : Shard} {handed : Option (Nat × Call)} {away : List Nat}
    (hn : n.Roomy) (h : n.shard.Turn now rs (s', handed))
    (hlive : ∀ x ∈ executed rs, (n.shard.store.finding x).isLapse = false) :
    { n with shard := s', away }.Roomy := by
  cases h with
  | idle hqueue => exact ⟨hn.room, hn.spares⟩
  | execute ticket r rest hqueue hlocal =>
      rw [executed_execution] at hlive
      exact hn.execute (x := ⟨now, ticket, r⟩) hqueue (hlive _ List.mem_cons_self) rfl rfl
  | giveUp ticket r rest hqueue hforeign haddress => exact hn.skip hqueue rfl rfl
  | handOn ticket r rest address hqueue hforeign haddress => exact hn.skip hqueue rfl rfl

theorem Roomy.move {listing : Listing} {clock : Clock} {s' : Shard} {k' : Keeper}
    (hn : n.Roomy) (hsize : n.shard.size = n.shard.store.size)
    (h : Keeper.Move listing clock n.shard n.keeper rs s' k')
    (hdeletes : ∀ origin ticket r, .accepted origin ticket r ∈ rs → r.command = .delete →
      origin = .eviction) : { n with shard := s', keeper := k' }.Roomy := by
  obtain ⟨hroom, hspares⟩ := hn
  cases h with
  | note e rest left hwaiting hstage =>
      refine ⟨?_, ?_⟩
      · simp only [Keeper.observe_limit]
        exact hroom
      · rcases hstage with ⟨deadline, hstage, _⟩ | hstage
        · rw [hstage] at hspares
          exact hspares
        · rw [hstage] at hspares
          exact hspares
  | pause deadline hstage hspent =>
      rw [hstage] at hspares
      exact ⟨hroom, hspares⟩
  | sweep hstage =>
      refine ⟨hroom, ?_⟩
      rcases hstage with ⟨deadline, hstage, _⟩ | ⟨deadline, hstage, _⟩ | ⟨left, hstage, _⟩
      all_goals
        rw [hstage] at hspares
        exact hspares
  | bucket now time now' issued keys x hstage hearliest hpoll hdue =>
      rw [hstage] at hspares
      exact ⟨hroom, hspares⟩
  | swept now time issued hstage hnone =>
      rw [hstage] at hspares
      exact ⟨hroom, hspares⟩
  | expire now time key rest issued hstage hnone =>
      cases hdeletes _ _ _ List.mem_cons_self rfl
  | giveBack now time key rest issued failure hstage hrefusal =>
      rw [hstage] at hspares
      exact ⟨hroom, hspares⟩
  | choose issued victim hstage hover hvictim =>
      rw [hstage] at hspares
      refine ⟨hroom, hspares, ?_⟩
      -- Those of the pass that were executed already are taken off the size once more, so that
      -- the sweep sees fewer entries than will be left, never more.
      have hissued : n.shard.deletions ≤ issued.length := hspares
      rw [hsize] at hover
      simp only
      omega
  | measured issued hstage henough => exact ⟨hroom, trivial⟩
  | evict victim issued hstage hnone =>
      rw [hstage] at hspares
      -- The room for one more deletion was there when the victim was chosen, and nothing that the
      -- worker or a caller can have done since has made it smaller.
      obtain ⟨hissued, hover⟩ := hspares
      have hmore : (n.shard.enqueue ⟨victim, .delete⟩).deletions = n.shard.deletions + 1 :=
        countP_concat _ _ _
      have hfits : n.keeper.limit + (n.shard.enqueue ⟨victim, .delete⟩).deletions ≤
          n.shard.store.size := by
        rw [hmore]
        exact hover
      refine ⟨fun _ => hfits, ?_⟩
      have hcounted : (n.shard.enqueue ⟨victim, .delete⟩).deletions ≤
          (issued ++ [n.shard.tickets]).length := by
        rw [hmore, List.length_append]
        exact Nat.succ_le_succ hissued
      exact hcounted
  | halt victim issued failure hstage hrefusal => exact ⟨hroom, trivial⟩
  | settled last deadline ticket issued hstage hdone =>
      rw [hstage] at hspares
      refine ⟨hroom, ?_⟩
      cases last with
      | true => trivial
      | false => exact hspares
  | turn deadline hstage =>
      rw [hstage] at hspares
      exact ⟨hroom, Nat.le_of_eq hspares⟩
  | finish deadline hstage => exact ⟨hroom, trivial⟩

theorem Roomy.step (hn : n.Roomy) (hsize : n.shard.size = n.shard.store.size)
    (h : n.Step a rs n') (halive : n'.shard.alive = true)
    (hsettles : a.isBegin = true → n.keeper.isResting = true → n.shard.deletions = 0)
    (hdeletes : ∀ origin ticket r, .accepted origin ticket r ∈ rs → r.command = .delete →
      origin = .eviction)
    (hlive : ∀ x ∈ executed rs, (n.shard.store.finding x).isLapse = false) :
    n'.Roomy := by
  cases h with
  | accept r hnone =>
      have hother : r.command.isDelete = false := by
        rw [Bool.eq_false_iff, ne_eq, Command.isDelete_iff]
        intro hdelete
        cases hdeletes _ _ _ List.mem_cons_self hdelete
      exact hn.accept rfl rfl rfl hother
  | turn now fatal records shard hturn => exact hn.turn hturn hlive
  | handOn now ticket call shard records hturn => exact hn.turn hturn hlive
  | perish now ticket call shard records hturn => cases halive
  | begin clock hstage =>
      exact ⟨hn.room, hsettles rfl (by rw [Keeper.isResting, hstage])⟩
  | move listing clock records shard keeper hmove => exact hn.move hsize hmove hdeletes
  | _ => exact ⟨hn.room, hn.spares⟩

theorem settles_concat {acts : List Act} (h : n.Settles (acts ++ [a])) :
    n.Settles acts ∧
      (a.isBegin = true → (n.run acts).keeper.isResting = true →
        (n.run acts).shard.deletions = 0) := by
  induction acts generalizing n with
  | nil => exact ⟨trivial, h.1⟩
  | cons b acts ih =>
      obtain ⟨hhere, hrest⟩ := h
      obtain ⟨hacts, hlast⟩ := ih hrest
      exact ⟨⟨hhere, hacts⟩, hlast⟩

theorem roomy_run (settings : Settings) (ring : Ring) (senders pollMs : Nat) {acts : List Act}
    (halive : ((make settings ring senders pollMs).run acts).shard.alive = true)
    (hsettles : (make settings ring senders pollMs).Settles acts)
    (hdeletes : ∀ origin ticket r,
      .accepted origin ticket r ∈ (make settings ring senders pollMs).journal acts →
      r.command = .delete → origin = .eviction)
    (hlive : ∀ f ∈ (make settings ring senders pollMs).findings acts, f.isLapse = false) :
    ((make settings ring senders pollMs).run acts).Roomy := by
  induction acts using List.reverseRecOn with
  | nil => exact ⟨fun hpos => absurd hpos (Nat.lt_irrefl 0), trivial⟩
  | append_singleton acts a ih =>
      obtain ⟨hacts, hlast⟩ := settles_concat hsettles
      rw [journal_concat] at hdeletes
      rw [findings_concat] at hlive
      rw [run_concat] at halive ⊢
      have hstep := step_act ((make settings ring senders pollMs).run acts) a
      have hbefore := hstep.alive halive
      have htidy := tidy_run (tidy_make settings ring senders pollMs) hbefore
      have hroomy := ih hbefore hacts
        (fun origin ticket r hmem => hdeletes origin ticket r (List.mem_append_left _ hmem))
        fun f hf => hlive f (List.mem_append_left _ hf)
      apply hroomy.step htidy.shard.size hstep halive hlast
      · exact fun origin ticket r hmem => hdeletes origin ticket r (List.mem_append_right _ hmem)
      · intro x hx
        exact hlive _ (List.mem_append_right _ (List.mem_map_of_mem hx))

/-- Nobody but the sweep for room deletes anything, no read finds an entry past its time, and no
deletion waits when a pass begins.  Then a deletion that removes an entry is one of that sweep, and
it leaves as many entries as the limit. -/
theorem limit_kept_by_eviction (settings : Settings) (ring : Ring) (senders pollMs : Nat)
    (acts : List Act) (a : Act) (f : Finding)
    (hdeletes : ∀ origin ticket r,
      .accepted origin ticket r ∈ (make settings ring senders pollMs).journal acts →
      r.command = .delete → origin = .eviction)
    (hlive : ∀ f ∈ (make settings ring senders pollMs).findings acts, f.isLapse = false)
    (hsettles : (make settings ring senders pollMs).Settles acts)
    (hfound : f ∈ ((make settings ring senders pollMs).run acts).found a)
    (hremoval : f.isRemoval = true) :
    .accepted .eviction f.execution.ticket f.execution.request ∈
        (make settings ring senders pollMs).journal acts ∧
      settings.maximumSize ≤
        (((make settings ring senders pollMs).run acts).act a).shard.store.size := by
  obtain ⟨horderly, _⟩ := orderly_run settings ring senders pollMs acts
  have hroomy := fun halive => roomy_run settings ring senders pollMs halive hsettles hdeletes hlive
  have hlimit : ((make settings ring senders pollMs).run acts).keeper.limit =
      settings.maximumSize := limit_run acts
  generalize (make settings ring senders pollMs).journal acts = j at *
  generalize (make settings ring senders pollMs).run acts = n at *
  obtain ⟨x, hx, rfl⟩ := List.mem_map.mp hfound
  rcases (n.step_act a).executed_cases with hnone | ⟨now, ticket, r, rest, hqueue, _, hone, _, hact⟩
  · rw [hnone] at hx
    cases hx
  · obtain rfl : x = ⟨now, ticket, r⟩ := by simpa [hone] using hx
    have halive := horderly.alive_of_queue (hqueue ▸ List.mem_cons_self)
    refine ⟨?_, ?_⟩
    · have hdelete : r.command = .delete :=
        Command.isDelete_iff.mp ((Bool.and_eq_true _ _).mp hremoval).1
      have hmem : (ticket, r) ∈ accepted j := by
        rw [← horderly.alive halive, hqueue]
        simp
      obtain ⟨origin, hrecord⟩ := exists_origin_of_accepted hmem
      rwa [hdeletes _ _ _ hrecord hdelete] at hrecord
    · rw [hact, ← hlimit]
      exact (hroomy halive).limit_le hqueue hremoval

/-- Two puts, and a pass until the sweep for room has had a deletion accepted. -/
def putTwoAndPass : List Act :=
  [.submit ⟨"k", .put "v" 5⟩, .submit ⟨"l", .put "w" 5⟩, .work 0 false, .work 0 false,
    .begin ⟨0, 0⟩] ++ List.replicate 7 (.keep Listing.ascending ⟨0, 0⟩)

/-- With room for one entry, one is left. -/
theorem limit_kept_by_eviction_of_two :
    .accepted .eviction 2 ⟨"k", .delete⟩ ∈
        (make { maxSize := 1, headroom := 0 } (Ring.empty "n" 1) 1 0).journal putTwoAndPass ∧
      1 ≤ (((make { maxSize := 1, headroom := 0 } (Ring.empty "n" 1) 1 0).run putTwoAndPass).act
        (.work 0 false)).shard.store.size := by
  apply limit_kept_by_eviction { maxSize := 1, headroom := 0 } (Ring.empty "n" 1) 1 0
    putTwoAndPass (.work 0 false) ⟨⟨0, 2, ⟨"k", .delete⟩⟩, some ⟨"v", 0, 5⟩⟩
  · have hrecords : ∀ record ∈
        (make { maxSize := 1, headroom := 0 } (Ring.empty "n" 1) 1 0).journal putTwoAndPass,
        record = .accepted .eviction 2 ⟨"k", .delete⟩ ∨
          ∀ r ∈ record.accepted?, r.2.command ≠ .delete := by
      decide +kernel
    intro origin ticket r hmem hdelete
    rcases hrecords _ hmem with heq | hother
    · exact (Record.accepted.inj heq).1
    · exact absurd hdelete (hother _ rfl)
  · decide +kernel
  · decide +kernel
  · decide +kernel
  · rfl

end Node

end ClusterCache
