import ClusterCache.Proofs.ExpiredDeletions

/-!
# When replies come

A request is open until its reply comes: its ticket has not been given out, or it waits in the
queue, or it is away at the owner of its key.  Nothing has been answered before, nothing changes
the reply afterwards, and what is away is answered by its owner and nobody else.
-/

namespace ClusterCache

/-- What an act answers to a request that is away. -/
def Act.outcome? (t : Nat) : Act → Option Reply
  | .answer ticket reply => if ticket = t then some reply else none
  | _ => none

namespace Node

open Journal

variable {n n' : Node} {a : Act} {rs j : Journal} {t : Nat}

/-- A ticket whose reply is still to come. -/
def Open (n : Node) (t : Nat) : Prop :=
  t ∈ n.away ∨ t ∈ n.shard.queue.map (·.1) ∨ n.shard.tickets ≤ t

/-- No reply has come for what is open. -/
def Unanswered (n : Node) : Prop := ∀ t, n.Open t → n.shard.replies[t]? = none

theorem Step.open_of (h : n.Step a rs n') (hopen : n'.Open t) : n.Open t := by
  obtain ⟨hle, haccepted⟩ := h.tickets_of_accepted
  rcases hopen with haway | hqueue | hfresh
  · rcases h.away_sub haway with hold | ⟨_, r, rest, hqueue, _⟩
    · exact Or.inl hold
    · exact Or.inr (Or.inl (by simp [hqueue]))
  · obtain ⟨p, hp, rfl⟩ := List.mem_map.mp hqueue
    have hmem := h.queue_prefix.subset (List.mem_append_right _ hp)
    rcases List.mem_append.mp hmem with hold | hnew
    · exact Or.inr (Or.inl (List.mem_map_of_mem hold))
    · exact Or.inr (Or.inr (haccepted p hnew))
  · exact Or.inr (Or.inr (Nat.le_trans hle hfresh))

theorem Orderly.given (hj : n.Orderly j) {p : Nat × Request} (hp : p ∈ taken j ++ n.shard.queue) :
    p.1 < n.shard.tickets := by
  have hmem : p.1 ∈ (accepted j).map (·.1) := List.mem_map_of_mem (hj.order.subset hp)
  rwa [hj.tickets, List.mem_range] at hmem

theorem Orderly.away_given (hj : n.Orderly j) (ht : t ∈ n.away) :
    t < n.shard.tickets ∧ t ∉ n.shard.queue.map (·.1) := by
  obtain ⟨p, hp, rfl⟩ := List.mem_map.mp (hj.away t ht).1
  refine ⟨hj.given (List.mem_append_left _ hp), fun hqueue => ?_⟩
  have hnodup := hj.nodup
  rw [List.map_append, List.nodup_append] at hnodup
  exact hnodup.2.2 p.1 (List.mem_map_of_mem hp) p.1 hqueue rfl

theorem Orderly.ne_of_open (hj : n.Orderly j) {p : Nat × Request} {rest : List (Nat × Request)}
    (hqueue : n.shard.queue = p :: rest)
    (hopen : t ∈ n.away ∨ t ∈ rest.map (·.1) ∨ n.shard.tickets ≤ t) : t ≠ p.1 := by
  rintro rfl
  rcases hopen with haway | hrest | hfresh
  · exact (hj.away_given haway).2 (by simp [hqueue])
  · have hnodup := hj.nodup
    rw [hqueue, List.map_append, List.nodup_append, List.map_cons, List.nodup_cons] at hnodup
    exact hnodup.2.1.1 hrest
  · have hgiven := hj.given (List.mem_append_right (taken j) (by simp [hqueue] : p ∈ _))
    omega

/-- A reply comes only for a ticket that is open no more. -/
theorem Step.replies_of_open (h : n.Step a rs n') (hj : n.Orderly j) (hopen : n'.Open t) :
    n'.shard.replies[t]? = n.shard.replies[t]? := by
  cases h with
  | turn now fatal records shard hturn =>
      cases hturn with
      | idle hqueue => rfl
      | execute ticket r rest hqueue hlocal =>
          have hne : t ≠ ticket := hj.ne_of_open hqueue (by simpa [Open] using hopen)
          simp [Shard.execute_eq, lookup_insert, hne]
      | giveUp ticket r rest hqueue hforeign haddress =>
          have hne : t ≠ ticket := hj.ne_of_open hqueue hopen
          simp [Shard.answer, lookup_insert, hne]
  | handOn now ticket call shard records hturn => cases hturn; rfl
  | perish now ticket call shard records hturn =>
      cases hturn with
      | handOn ticket r rest address hqueue hforeign haddress =>
          -- The worker answers all that waited, and none of that was away.
          have hother : t ∈ n.away ∨ n.shard.tickets ≤ t := by
            rcases hopen with haway | hnil | hfresh
            · exact Or.inl haway
            · cases hnil
            · exact Or.inr hfresh
          have hout : t ∉ n.shard.queue.map (·.1) := by
            rcases hother with haway | hfresh
            · exact (hj.away_given haway).2
            · intro hmem
              obtain ⟨p, hp, rfl⟩ := List.mem_map.mp hmem
              have hgiven := hj.given (List.mem_append_right (taken j) hp)
              omega
          rw [hqueue] at hout
          simp only [Shard.lookup_die]
          rw [if_neg (by simpa using hout)]
  | answer ticket reply haway =>
      have hne : t ≠ ticket := by
        rintro rfl
        rcases hopen with hmem | hqueue | hfresh
        · simp at hmem
        · exact (hj.away_given haway).2 hqueue
        · exact Nat.not_le_of_lt (hj.away_given haway).1 hfresh
      simp [Shard.answer, lookup_insert, hne]
  | move listing clock records shard keeper hmove => simp only [hmove.frame.2.2.2.2.2]
  | _ => rfl

theorem Unanswered.step (hn : n.Unanswered) (hj : n.Orderly j) (h : n.Step a rs n') :
    n'.Unanswered := by
  intro t hopen
  rw [h.replies_of_open hj hopen]
  exact hn t (h.open_of hopen)

theorem unanswered_run (settings : Settings) (ring : Ring) (senders pollMs : Nat)
    (acts : List Act) : ((make settings ring senders pollMs).run acts).Unanswered := by
  induction acts using List.reverseRecOn with
  | nil => exact fun t _ => by simp [make, Shard.make]
  | append_singleton acts a ih =>
      rw [run_concat]
      exact ih.step (orderly_run settings ring senders pollMs acts).1 (step_act _ a)

/-! ## Replies stay -/

theorem replies_of_closed (hclosed : ¬ n.Open t) (acts : List Act) :
    (n.run acts).shard.replies[t]? = n.shard.replies[t]? := by
  induction acts generalizing n with
  | nil => rfl
  | cons a acts ih =>
      have hstep := n.step_act a
      have hstays : ¬ (n.act a).Open t := fun hopen => hclosed (hstep.open_of hopen)
      apply (ih hstays).trans
      exact hstep.replies_eq (fun haway => hclosed (Or.inl haway))
        (fun hqueue => hclosed (Or.inr (Or.inl hqueue)))

theorem Unanswered.reply_stays (hn : n.Unanswered) {reply : Reply}
    (h : n.shard.replies[t]? = some reply) (acts : List Act) :
    (n.run acts).shard.replies[t]? = some reply := by
  have hclosed : ¬ n.Open t := by
    intro hopen
    rw [hn t hopen] at h
    cases h
  exact (replies_of_closed hclosed acts).trans h

/-! ## Replies of others -/

theorem Step.stays_away (h : n.Step a rs n') (haway : t ∈ n.away) (hnone : a.outcome? t = none) :
    t ∈ n'.away := by
  cases h with
  | handOn now ticket call shard records hturn => exact List.mem_append_left _ haway
  | answer ticket reply hticket =>
      have hne : ticket ≠ t := by simpa [Act.outcome?] using hnone
      exact List.mem_filter.mpr ⟨haway, by simpa using Ne.symm hne⟩
  | _ => exact haway

/-- The reply of a request that is away is the first that comes, whenever it comes. -/
theorem reply_of_away (hn : n.Unanswered) (hj : n.Orderly j) (haway : t ∈ n.away)
    (acts : List Act) : (n.run acts).shard.replies[t]? = acts.findSome? (Act.outcome? t) := by
  induction acts generalizing n j with
  | nil => exact hn t (Or.inl haway)
  | cons a acts ih =>
      have hstep := n.step_act a
      have hn' := hn.step hj hstep
      cases houtcome : a.outcome? t with
      | none =>
          rw [List.findSome?_cons_of_isNone (by rw [houtcome]; rfl)]
          exact ih hn' (hj.step hstep) (hstep.stays_away haway houtcome)
      | some reply =>
          rw [List.findSome?_cons_of_isSome (by rw [houtcome]; rfl), houtcome]
          refine hn'.reply_stays ?_ acts
          cases a with
          | answer ticket given =>
              obtain ⟨rfl, rfl⟩ : ticket = t ∧ given = reply := by
                simpa [Act.outcome?] using houtcome
              rw [act, if_pos haway]
              exact Std.ExtTreeMap.getElem?_insert_self
          | _ => cases houtcome

end Node

end ClusterCache
