import ClusterCache.Proofs.Node
import ClusterCache.Proofs.Tracking
import Mathlib.Data.List.Induction

/-!
# The bookkeeping agrees with the store

The keeper learns late and forgets early: an event may wait behind others, and a key is forgotten
as soon as its deletion is accepted.  Yet for every key whose last change was not lost, either
that change still waits to be heard with nothing but reads of the key behind it, or the keeper
knows of the key what the store holds, or a deletion of the key waits in the queue and will set
things right.
-/

namespace ClusterCache.Node

open Journal

/-- The events about a key that wait to be heard. -/
def waitingOf (n : Node) (key : String) : List Event :=
  n.shard.events.waiting.filter (·.key = key)

/-- The keeper knows of a key what the store holds. -/
def Booked (n : Node) (key : String) : Prop :=
  (n.keeper.policy.tracks key = true ↔ n.shard.store[key]? ≠ none) ∧
    n.keeper.indexed key = n.shard.store[key]?.map (·.expires)

/-- How the bookkeeping of a key stands to the store while requests and events are under way. -/
structure Agrees (n : Node) (j : Journal) (key : String) : Prop where
  silent : lastChange j key = none → n.shard.store[key]? = none ∧ n.waitingOf key = [] ∧
    n.keeper.policy.tracks key = false ∧ n.keeper.indexed key = none
  own : lastChange j key ≠ none → n.shard.ring.isLocal key = true
  told : ∀ c o, lastChange j key = some (c, o) → n.shard.store[key]? = c.entry? ∧
    (c = .delete ∨ ∃ entry, c = .put (some entry))
  booked : ∀ c, lastChange j key = some (c, .accepted) →
    ∃ reads, (∀ e ∈ reads, e.change = .get) ∧ (reads ≠ [] → n.shard.store[key]? ≠ none) ∧
      ((∃ before, n.waitingOf key = before ++ ⟨key, c⟩ :: reads) ∨
        n.waitingOf key = reads ∧
          (n.Booked key ∨ ∃ ticket, (ticket, ⟨key, .delete⟩) ∈ n.shard.queue))

variable {n n' : Node} {j rs : Journal} {a : Act} {key : String}

/-- What has nothing to do with a key leaves its bookkeeping as it was. -/
theorem Agrees.frame (hj : n.Agrees j key) (hchange : lastChange rs key = none)
    (hring : n'.shard.ring = n.shard.ring) (hstore : n'.shard.store[key]? = n.shard.store[key]?)
    (hwaiting : n'.waitingOf key = n.waitingOf key)
    (hqueue : ∀ ticket, (ticket, ⟨key, .delete⟩) ∈ n.shard.queue →
      n.shard.ring.isLocal key = true → (ticket, ⟨key, .delete⟩) ∈ n'.shard.queue)
    (htracks : n'.keeper.policy.tracks key = true ↔ n.keeper.policy.tracks key = true)
    (hindexed : n'.keeper.indexed key = n.keeper.indexed key) : n'.Agrees (j ++ rs) key := by
  have hlast : lastChange (j ++ rs) key = lastChange j key := by
    rw [lastChange_append, hchange, Option.none_or]
  have htracks' : n'.keeper.policy.tracks key = n.keeper.policy.tracks key :=
    Bool.eq_iff_iff.mpr htracks
  constructor
  · rw [hlast, hstore, hwaiting, htracks', hindexed]
    exact hj.silent
  · rw [hlast, hring]
    exact hj.own
  · rw [hlast, hstore]
    exact hj.told
  · rw [hlast, hstore, hwaiting]
    intro c hc
    obtain ⟨reads, hreads, hheld, hwhere⟩ := hj.booked c hc
    refine ⟨reads, hreads, hheld, ?_⟩
    rcases hwhere with hwaits | ⟨hheard, hbooked | ⟨ticket, hticket⟩⟩
    · exact Or.inl hwaits
    · refine Or.inr ⟨hheard, Or.inl ?_⟩
      rw [Booked, htracks', hindexed, hstore]
      exact hbooked
    · exact Or.inr ⟨hheard, Or.inr ⟨ticket, hqueue ticket hticket (hj.own (by simp [hc]))⟩⟩

/-! ## Turns of the worker -/

section Execute

variable {now : UInt64} {ticket : Nat} {r : Request} {rest : List (Nat × Request)}

/-- The node after the worker has executed its oldest request. -/
def afterExecution (n : Node) (now : UInt64) (ticket : Nat) (r : Request)
    (rest : List (Nat × Request)) : Node :=
  { n with shard := Shard.execute { n.shard with queue := rest } now ticket r }

theorem waitingOf_of_untold (h : r.command.tells now n.shard.store[r.key]? = none) :
    (n.afterExecution now ticket r rest).waitingOf key = n.waitingOf key := by
  simp [afterExecution, waitingOf, Shard.execute_eq, h]

theorem waitingOf_of_accepted (ticket : Nat) (rest : List (Nat × Request)) (key : String)
    {c : Change} (h : r.command.tells now n.shard.store[r.key]? = some c)
    (ho : (n.shard.events.offer ⟨r.key, c⟩).2 = .accepted) :
    (n.afterExecution now ticket r rest).waitingOf key =
      n.waitingOf key ++ if r.key = key then [⟨r.key, c⟩] else [] := by
  simp only [afterExecution, waitingOf, Shard.execute_eq, h, Option.map_some, Option.elim_some,
    EventQueue.offer_of_accepted ho, List.filter_append]
  by_cases hkey : r.key = key <;> simp [hkey]

theorem waitingOf_of_lost {c : Change} (h : r.command.tells now n.shard.store[r.key]? = some c)
    (ho : (n.shard.events.offer ⟨r.key, c⟩).2 ≠ .accepted) :
    (n.afterExecution now ticket r rest).waitingOf key = n.waitingOf key := by
  simp only [afterExecution, waitingOf, Shard.execute_eq, h, Option.map_some, Option.elim_some,
    EventQueue.offer_of_lost ho]

theorem Agrees.execute_other (hj : n.Agrees j key) (hqueue : n.shard.queue = (ticket, r) :: rest)
    (hkey : r.key ≠ key) (hchange : lastChange rs key = none) :
    (n.afterExecution now ticket r rest).Agrees (j ++ rs) key := by
  refine hj.frame hchange ?_ ?_ ?_ (fun t ht _ => ?_) Iff.rfl rfl
  · simp [afterExecution]
  · simp [afterExecution, Shard.lookup_execute, Ne.symm hkey]
  · cases htells : r.command.tells now n.shard.store[r.key]? with
    | none => exact waitingOf_of_untold htells
    | some c =>
        by_cases ho : (n.shard.events.offer ⟨r.key, c⟩).2 = .accepted
        · rw [waitingOf_of_accepted _ _ _ htells ho, if_neg hkey, List.append_nil]
        · exact waitingOf_of_lost htells ho
  · rw [hqueue] at ht
    rcases List.mem_cons.mp ht with heq | ht
    · obtain ⟨_, rfl⟩ := Prod.mk.inj heq
      exact absurd rfl hkey
    · simpa [afterExecution] using ht

theorem Agrees.execute_untold (hj : n.Agrees j r.key)
    (hqueue : n.shard.queue = (ticket, r) :: rest)
    (htells : r.command.tells now n.shard.store[r.key]? = none)
    (hchange : lastChange rs r.key = none) :
    (n.afterExecution now ticket r rest).Agrees (j ++ rs) r.key := by
  obtain ⟨hslot, hleaves⟩ := Command.leaves_of_tells_none htells
  refine hj.frame hchange ?_ ?_ (waitingOf_of_untold htells) (fun t ht _ => ?_) Iff.rfl rfl
  · simp [afterExecution]
  · simp only [afterExecution, Shard.lookup_execute, if_true]
    rw [hleaves, hslot]
  · rw [hqueue] at ht
    rcases List.mem_cons.mp ht with heq | ht
    · obtain ⟨_, hr⟩ := Prod.mk.inj heq
      rw [← hr] at htells
      simp [Command.tells] at htells
    · simpa [afterExecution] using ht

theorem Agrees.execute_read (hj : n.Agrees j r.key)
    (hqueue : n.shard.queue = (ticket, r) :: rest)
    (htells : r.command.tells now n.shard.store[r.key]? = some .get)
    (hchange : lastChange rs r.key = none) :
    (n.afterExecution now ticket r rest).Agrees (j ++ rs) r.key := by
  obtain ⟨hget, hleaves, hslot⟩ := Command.leaves_of_tells_get htells
  have hring : (n.afterExecution now ticket r rest).shard.ring = n.shard.ring := by
    simp [afterExecution]
  have hstore : (n.afterExecution now ticket r rest).shard.store[r.key]? =
      n.shard.store[r.key]? := by
    simp [afterExecution, Shard.lookup_execute, hleaves]
  have hdelete : ∀ t, (t, ⟨r.key, .delete⟩) ∈ n.shard.queue →
      (t, ⟨r.key, .delete⟩) ∈ (n.afterExecution now ticket r rest).shard.queue := by
    intro t ht
    rw [hqueue] at ht
    rcases List.mem_cons.mp ht with heq | ht
    · obtain ⟨_, hr⟩ := Prod.mk.inj heq
      rw [← hr] at hget
      cases hget
    · simpa [afterExecution] using ht
  by_cases ho : (n.shard.events.offer ⟨r.key, .get⟩).2 = .accepted
  · have hwaiting := waitingOf_of_accepted ticket rest r.key htells ho
    rw [if_pos rfl] at hwaiting
    have hlast : lastChange (j ++ rs) r.key = lastChange j r.key := by
      rw [lastChange_append, hchange, Option.none_or]
    constructor
    · rw [hlast]
      exact fun hnone => absurd (hj.silent hnone).1 hslot
    · rw [hlast, hring]
      exact hj.own
    · rw [hlast, hstore]
      exact hj.told
    · rw [hlast, hstore, hwaiting]
      intro c hc
      obtain ⟨reads, hreads, hheld, hwhere⟩ := hj.booked c hc
      refine ⟨reads ++ [⟨r.key, .get⟩], fun e he => ?_, fun _ => hslot, ?_⟩
      · rcases List.mem_append.mp he with he | he
        · exact hreads e he
        · rw [List.mem_singleton.mp he]
      · rcases hwhere with ⟨before, hwaits⟩ | ⟨hheard, hbooked | ⟨t, ht⟩⟩
        · exact Or.inl ⟨before, by rw [hwaits]; simp⟩
        · refine Or.inr ⟨by rw [hheard], Or.inl ?_⟩
          rw [Booked, hstore]
          exact hbooked
        · exact Or.inr ⟨by rw [hheard], Or.inr ⟨t, hdelete t ht⟩⟩
  · exact hj.frame hchange hring hstore (waitingOf_of_lost htells ho)
      (fun t ht _ => hdelete t ht) Iff.rfl rfl

theorem Agrees.execute_change (hlocal : n.shard.ring.isLocal r.key = true) {c : Change}
    (htells : r.command.tells now n.shard.store[r.key]? = some c) (hc : c ≠ .get)
    (hoffered : offered rs = [(⟨r.key, c⟩, (n.shard.events.offer ⟨r.key, c⟩).2)]) :
    (n.afterExecution now ticket r rest).Agrees (j ++ rs) r.key := by
  have hlast : lastChange (j ++ rs) r.key =
      some (c, (n.shard.events.offer ⟨r.key, c⟩).2) := by
    rw [lastChange_append, lastChange_of_offered hoffered, if_pos ⟨rfl, hc⟩, Option.some_or]
  have hstore : (n.afterExecution now ticket r rest).shard.store[r.key]? =
      r.command.leaves now n.shard.store[r.key]? := by
    simp [afterExecution, Shard.lookup_execute]
  constructor
  · rw [hlast]
    simp
  · intro _
    simpa [afterExecution] using hlocal
  · intro c' o hc'
    rw [hlast] at hc'
    obtain ⟨rfl, _⟩ := Prod.mk.inj (Option.some.inj hc')
    rw [hstore]
    cases c with
    | get => exact absurd rfl hc
    | delete => exact ⟨Command.leaves_of_tells_delete htells, Or.inl rfl⟩
    | put entry =>
        obtain ⟨hleaves, hsome⟩ := Command.leaves_of_tells_put htells
        obtain ⟨e, rfl⟩ := Option.ne_none_iff_exists'.mp hsome
        exact ⟨hleaves, Or.inr ⟨e, rfl⟩⟩
  · intro c' hc'
    rw [hlast] at hc'
    obtain ⟨rfl, ho⟩ := Prod.mk.inj (Option.some.inj hc')
    refine ⟨[], by simp, by simp, Or.inl ⟨n.waitingOf r.key, ?_⟩⟩
    rw [waitingOf_of_accepted _ _ _ htells ho, if_pos rfl]

theorem Agrees.execute (hj : n.Agrees j key) (hqueue : n.shard.queue = (ticket, r) :: rest)
    (hlocal : n.shard.ring.isLocal r.key = true)
    (hoffered : offered rs = ((r.command.tells now n.shard.store[r.key]?).map fun c =>
      ((⟨r.key, c⟩ : Event), (n.shard.events.offer ⟨r.key, c⟩).2)).toList) :
    (n.afterExecution now ticket r rest).Agrees (j ++ rs) key := by
  cases htells : r.command.tells now n.shard.store[r.key]? with
  | none =>
      rw [htells] at hoffered
      have hchange := lastChange_of_offered_nil hoffered
      by_cases hkey : r.key = key
      · subst hkey
        exact hj.execute_untold hqueue htells (hchange r.key)
      · exact hj.execute_other hqueue hkey (hchange key)
  | some c =>
      rw [htells] at hoffered
      have hchange := lastChange_of_offered hoffered
      by_cases hkey : r.key = key
      · subst hkey
        by_cases hc : c = .get
        · subst hc
          exact hj.execute_read hqueue htells (by rw [hchange, if_neg (by simp)])
        · exact Agrees.execute_change hlocal htells hc hoffered
      · exact hj.execute_other hqueue hkey (by rw [hchange, if_neg fun h => hkey h.1])

end Execute

/-! ## Steps of the keeper -/

section Keep

variable {listing : Listing} {clock : Clock} {s' : Shard} {k' : Keeper}

/-- Hearing of a key takes the oldest of its events away, and if that is the last change then the
keeper knows what the store holds. -/
theorem Agrees.hear (hj : n.Agrees j key) (hk : n.keeper.Sound) {e : Event} {left : Nat}
    (hchange : lastChange rs key = none) (hpending : n.keeper.stage.pending = [])
    (hwaiting : n.waitingOf key = e :: n'.waitingOf key) (hring : n'.shard.ring = n.shard.ring)
    (hstore : n'.shard.store = n.shard.store) (hqueue : n'.shard.queue = n.shard.queue)
    (hkeeper : n'.keeper = { n.keeper.observe e with stage := .draining left }) :
    n'.Agrees (j ++ rs) key := by
  have hlast : lastChange (j ++ rs) key = lastChange j key := by
    rw [lastChange_append, hchange, Option.none_or]
  have htracks : n'.keeper.policy = (n.keeper.observe e).policy := by rw [hkeeper]
  have hindexed : n'.keeper.indexed key = (n.keeper.observe e).expiry.time? key := by
    rw [hkeeper]
    exact Keeper.indexed_of_pending rfl key
  constructor
  · rw [hlast]
    intro hnone
    have hnil := (hj.silent hnone).2.1
    rw [hwaiting] at hnil
    cases hnil
  · rw [hlast, hring]
    exact hj.own
  · rw [hlast, hstore]
    exact hj.told
  · rw [hlast, hstore, hqueue]
    intro c hc
    obtain ⟨reads, hreads, hheld, hwhere⟩ := hj.booked c hc
    obtain ⟨hslot, hkind⟩ := hj.told c _ hc
    rw [hwaiting] at hwhere
    -- The event is older than the last change, or it is the last change, or a read behind it.
    rcases hwhere with ⟨before, hwaits⟩ | ⟨hheard, hknown⟩
    · cases before with
      | cons b before => exact ⟨reads, hreads, hheld, Or.inl ⟨before, (List.cons.inj hwaits).2⟩⟩
      | nil =>
          obtain ⟨rfl, hrest⟩ := List.cons.inj hwaits
          refine ⟨reads, hreads, hheld, Or.inr ⟨hrest, Or.inl ?_⟩⟩
          rw [Booked, hstore, hslot, htracks, hindexed]
          rcases hkind with rfl | ⟨entry, rfl⟩
          · obtain ⟨hgone, htime⟩ := Keeper.observe_delete hk key
            simp [hgone, htime, Change.entry?]
          · obtain ⟨htracked, htime⟩ := Keeper.observe_put hk key entry
            simp [htracked, htime, Change.entry?]
    · cases reads with
      | nil => cases hheard
      | cons b reads =>
          obtain ⟨rfl, hrest⟩ := List.cons.inj hheard
          have hget := hreads e List.mem_cons_self
          have hsome := hheld (List.cons_ne_nil _ _)
          refine ⟨reads, fun e' he' => hreads e' (List.mem_cons_of_mem _ he'), fun _ => hsome,
            Or.inr ⟨hrest, ?_⟩⟩
          -- A read may make the policy track the key, which does no harm as it is stored.
          rcases hknown with ⟨htracked, htime⟩ | hdelete
          · left
            rw [Booked, hstore, htracks, hindexed]
            rw [Keeper.indexed_of_pending hpending] at htime
            simp only [Keeper.observe, hget]
            exact ⟨⟨fun _ => hsome, fun _ => hk.policy.tracks_get e.key (htracked.mpr hsome)⟩,
              htime⟩
          · exact Or.inr hdelete

/-- Once a deletion of the key waits in the queue, it does not matter what the keeper knows. -/
theorem Agrees.forget (hj : n.Agrees j key) (hchange : lastChange rs key = none)
    (hknown : n.keeper.policy.tracks key = true ∨ n.keeper.indexed key ≠ none)
    (hring : n'.shard.ring = n.shard.ring) (hstore : n'.shard.store = n.shard.store)
    (hwaiting : n'.waitingOf key = n.waitingOf key)
    (hqueue : ∃ ticket, (ticket, ⟨key, .delete⟩) ∈ n'.shard.queue) :
    n'.Agrees (j ++ rs) key := by
  have hlast : lastChange (j ++ rs) key = lastChange j key := by
    rw [lastChange_append, hchange, Option.none_or]
  constructor
  · rw [hlast]
    intro hnone
    obtain ⟨_, _, htracks, hindexed⟩ := hj.silent hnone
    rcases hknown with hknown | hknown
    · rw [htracks] at hknown
      cases hknown
    · exact absurd hindexed hknown
  · rw [hlast, hring]
    exact hj.own
  · rw [hlast, hstore]
    exact hj.told
  · rw [hlast, hstore, hwaiting]
    intro c hc
    obtain ⟨reads, hreads, hheld, hwhere⟩ := hj.booked c hc
    refine ⟨reads, hreads, hheld, ?_⟩
    rcases hwhere with hwaits | ⟨hheard, _⟩
    · exact Or.inl hwaits
    · exact Or.inr ⟨hheard, Or.inr hqueue⟩

theorem Agrees.move (hj : n.Agrees j key) (hk : n.keeper.Sound)
    (h : Keeper.Move listing clock n.shard n.keeper rs s' k') :
    { n with shard := s', keeper := k' }.Agrees (j ++ rs) key := by
  obtain ⟨hring, _, _, hstore, _, _⟩ := h.frame
  have hchange := lastChange_of_offered_nil h.quiet.2.2 key
  have hevents : (observed rs).filter (·.key = key) ++
      { n with shard := s', keeper := k' }.waitingOf key = n.waitingOf key := by
    rw [waitingOf, waitingOf, ← h.events.2, List.filter_append]
  have hqueue : ∀ p ∈ n.shard.queue, p ∈ s'.queue := by
    intro p hp
    rcases h.queue with ⟨_, hsame, _⟩ | ⟨_, _, _, hmore, _⟩
    · rwa [hsame]
    · rw [hmore]
      exact List.mem_append_left _ hp
  rcases h.view hk key with ⟨htracks, hindexed, hother⟩ |
    ⟨e, left, hobserved, hkey, hpending, hkeeper⟩ | ⟨hdelete, hobserved, hknown, _⟩
  · refine hj.frame hchange hring (by rw [hstore]) ?_ (fun t ht _ => hqueue _ ht) htracks
      hindexed
    have hnone : (observed rs).filter (·.key = key) = [] := by
      rcases h.observed with hnil | ⟨e, hone, _⟩
      · rw [hnil]
        rfl
      · rw [hone, List.filter_cons_of_neg (by simpa using hother e hone)]
        rfl
    rw [← hevents, hnone, List.nil_append]
  · refine hj.hear hk hchange hpending ?_ hring hstore ?_ hkeeper
    · rw [← hevents, hobserved, List.filter_cons_of_pos (by simpa using hkey)]
      rfl
    · rcases h.observed with hnil | ⟨_, _, hsame⟩
      · rw [hobserved] at hnil
        cases hnil
      · exact hsame
  · rw [hobserved] at hevents
    exact hj.forget hchange hknown hring hstore hevents hdelete

end Keep

/-! ## Runs -/

theorem Step.keeper_sound (h : n.Step a rs n') (hk : n.keeper.Sound) : n'.keeper.Sound := by
  cases h with
  | begin clock hstage =>
      exact Keeper.sound_of_quiet hk.policy hk.expiry rfl (by simp [Keeper.begin])
  | move listing clock records shard keeper hmove => exact hmove.sound hk
  | _ => exact hk

theorem Agrees.turn {now : UInt64} {s' : Shard} {handed : Option (Nat × Call)}
    {away : List Nat} (hj : n.Agrees j key) (h : n.shard.Turn now rs (s', handed)) :
    { n with shard := s', away }.Agrees (j ++ rs) key := by
  have hforeign : ∀ {ticket r rest}, n.shard.queue = (ticket, r) :: rest →
      n.shard.ring.isLocal r.key = false → ∀ t, (t, ⟨key, .delete⟩) ∈ n.shard.queue →
      n.shard.ring.isLocal key = true → (t, ⟨key, .delete⟩) ∈ rest := by
    intro ticket r rest hqueue hforeign t ht hlocal
    rw [hqueue] at ht
    rcases List.mem_cons.mp ht with heq | ht
    · obtain ⟨_, rfl⟩ := Prod.mk.inj heq
      rw [hlocal] at hforeign
      cases hforeign
    · exact ht
  cases h with
  | idle hqueue =>
      exact hj.frame rfl rfl rfl rfl (fun t ht _ => ht) Iff.rfl rfl
  | execute ticket r rest hqueue hlocal =>
      have hstep := Agrees.execute hj hqueue hlocal
        (offered_execution ⟨now, ticket, r⟩ (r.command.tells now n.shard.store[r.key]?) _ _)
      exact ⟨hstep.silent, hstep.own, hstep.told, hstep.booked⟩
  | giveUp ticket r rest hqueue hno haddress =>
      exact hj.frame rfl rfl rfl rfl (hforeign hqueue hno) Iff.rfl rfl
  | handOn ticket r rest address hqueue hno haddress =>
      exact hj.frame rfl rfl rfl rfl (hforeign hqueue hno) Iff.rfl rfl

theorem Agrees.step (hj : n.Agrees j key) (hk : n.keeper.Sound) (h : n.Step a rs n')
    (hmembers : a.keepsMembers = true) (hreader : a.keepsReader = true)
    (halive : n'.shard.alive = true) : n'.Agrees (j ++ rs) key := by
  cases h with
  | accept r hnone =>
      exact hj.frame rfl rfl rfl rfl (fun t ht _ => List.mem_append_left _ ht) Iff.rfl rfl
  | turn now fatal records shard hturn => exact hj.turn hturn
  | handOn now ticket call shard records hturn => exact hj.turn hturn
  | perish now ticket call shard records hturn => cases halive
  | begin clock hstage =>
      refine hj.frame rfl rfl rfl rfl (fun t ht _ => ht) Iff.rfl ?_
      rw [Keeper.indexed_of_pending rfl, Keeper.indexed_of_pending (by rw [hstage]; rfl)]
      rfl
  | move listing clock records shard keeper hmove => exact hj.move hk hmove
  | join id address => cases hmembers
  | part id => cases hmembers
  | close => cases hreader
  | _ => exact hj.frame rfl rfl rfl rfl (fun t ht _ => ht) Iff.rfl rfl

theorem agrees_make (settings : Settings) (ring : Ring) (senders pollMs : Nat) (key : String) :
    (make settings ring senders pollMs).Agrees [] key := by
  have hk := Keeper.sound_make settings.policy settings.maximumSize pollMs
  constructor
  · intro _
    refine ⟨by simp [make, Shard.make], rfl, ?_, ?_⟩
    · rw [Bool.eq_false_iff]
      intro htracks
      have hmem := hk.policy.tracks_iff.mp htracks
      rw [Keeper.make, Policy.keys_empty] at hmem
      cases hmem
    · rw [Keeper.indexed_of_pending rfl]
      exact ExpiryIndex.time?_empty key
  · intro hne
    exact absurd rfl hne
  · intro c o h
    cases h
  · intro c h
    cases h

/-- A run in which the membership is fixed and the keeper goes on hearing events. -/
def Steady (acts : List Act) : Prop :=
  ∀ a ∈ acts, a.keepsMembers = true ∧ a.keepsReader = true

instance (acts : List Act) : Decidable (Steady acts) :=
  inferInstanceAs (Decidable (∀ a ∈ acts, a.keepsMembers = true ∧ a.keepsReader = true))

theorem agrees_run (settings : Settings) (ring : Ring) (senders pollMs : Nat) {acts : List Act}
    (hsteady : Steady acts) (key : String)
    (halive : ((make settings ring senders pollMs).run acts).shard.alive = true) :
    ((make settings ring senders pollMs).run acts).keeper.Sound ∧
      ((make settings ring senders pollMs).run acts).Agrees
        ((make settings ring senders pollMs).journal acts) key := by
  induction acts using List.reverseRecOn with
  | nil =>
      exact ⟨Keeper.sound_make _ _ _, agrees_make settings ring senders pollMs key⟩
  | append_singleton acts a ih =>
      rw [run_concat] at halive
      rw [run_concat, journal_concat]
      have hstep := ((make settings ring senders pollMs).run acts).step_act a
      obtain ⟨hmembers, hreader⟩ := hsteady a (by simp)
      obtain ⟨hk, hj⟩ := ih (fun b hb => hsteady b (by simp [hb])) (hstep.alive halive)
      exact ⟨hstep.keeper_sound hk, hj.step hk hstep hmembers hreader halive⟩

/-- While the keeper goes on hearing events, it hears what the worker tells, in order, and the
worker never tells nobody. -/
theorem told_run (settings : Settings) (ring : Ring) (senders pollMs : Nat) {acts : List Act}
    (hsteady : Steady acts) :
    ((make settings ring senders pollMs).run acts).shard.events.hasReader = true ∧
      (∀ p ∈ offered ((make settings ring senders pollMs).journal acts), p.2 ≠ .closed) ∧
      observed ((make settings ring senders pollMs).journal acts) ++
          ((make settings ring senders pollMs).run acts).shard.events.waiting =
        told ((make settings ring senders pollMs).journal acts) := by
  have hreader : ((make settings ring senders pollMs).run acts).shard.events.hasReader = true := by
    rw [hasReader_run, Bool.and_eq_true]
    exact ⟨rfl, List.all_eq_true.mpr fun a ha => (hsteady a ha).2⟩
  exact ⟨hreader, events_run _ acts hreader⟩

/-- When nothing about a key is under way, the keeper knows of it what the store holds. -/
theorem Agrees.known (hj : n.Agrees j key) (hwaiting : n.waitingOf key = [])
    (hqueue : n.shard.queue = []) (hpending : n.keeper.stage.pending = []) {c : Change}
    (hc : lastChange j key = some (c, .accepted)) :
    (n.keeper.policy.tracks key = true ↔ n.shard.store[key]? ≠ none) ∧
      n.keeper.expiry.time? key = n.shard.store[key]?.map (·.expires) := by
  obtain ⟨reads, _, _, hwhere⟩ := hj.booked c hc
  rcases hwhere with ⟨before, hwaits⟩ | ⟨_, hbooked | ⟨ticket, hticket⟩⟩
  · rw [hwaiting] at hwaits
    exact absurd hwaits (by simp)
  · rw [Booked, Keeper.indexed_of_pending hpending] at hbooked
    exact hbooked
  · rw [hqueue] at hticket
    cases hticket

theorem Agrees.unknown (hj : n.Agrees j key) (hpending : n.keeper.stage.pending = [])
    (hnone : lastChange j key = none) :
    n.keeper.policy.tracks key = false ∧ n.keeper.expiry.time? key = none ∧
      n.shard.store[key]? = none := by
  obtain ⟨hstore, _, htracks, hindexed⟩ := hj.silent hnone
  rw [Keeper.indexed_of_pending hpending] at hindexed
  exact ⟨htracks, hindexed, hstore⟩

/-- If no event was ever lost, this holds of every key. -/
theorem Agrees.lossless (hj : n.Agrees j key) (hwaiting : n.waitingOf key = [])
    (hqueue : n.shard.queue = []) (hpending : n.keeper.stage.pending = [])
    (hkept : ∀ p ∈ offered j, p.2 = .accepted) :
    (n.keeper.policy.tracks key = true ↔ n.shard.store[key]? ≠ none) ∧
      n.keeper.expiry.time? key = n.shard.store[key]?.map (·.expires) := by
  rcases hlast : lastChange j key with _ | ⟨c, o⟩
  · obtain ⟨htracks, htime, hstore⟩ := hj.unknown hpending hlast
    simp [htracks, htime, hstore]
  · obtain ⟨e, hmem⟩ := mem_offered_of_lastChange hlast
    obtain rfl : o = .accepted := hkept _ hmem
    exact hj.known hwaiting hqueue hpending hlast

/-- At a moment at which no request waits, no event waits and no bucket is half swept, the
keeper knows of a key what the store holds, unless the event of its last change was lost. -/
theorem bookkeeping_agrees (settings : Settings) (ring : Ring) (senders pollMs : Nat)
    (acts : List Act) (hsteady : Steady acts)
    (halive : ((make settings ring senders pollMs).run acts).shard.alive = true)
    (hqueue : ((make settings ring senders pollMs).run acts).shard.queue = [])
    (hwaiting : ((make settings ring senders pollMs).run acts).shard.events.waiting = [])
    (hpending : ((make settings ring senders pollMs).run acts).keeper.stage.pending = []) :
    let n := (make settings ring senders pollMs).run acts
    let j := (make settings ring senders pollMs).journal acts
    (∀ before e after, offered j = before ++ (e, .accepted) :: after → e.change ≠ .get →
      (∀ p ∈ after, p.1.key = e.key → p.1.change = .get) →
      (n.keeper.policy.tracks e.key = true ↔ n.shard.store[e.key]? ≠ none) ∧
        n.keeper.expiry.time? e.key = n.shard.store[e.key]?.map (·.expires)) ∧
    (∀ key, (∀ p ∈ offered j, p.1.key = key → p.1.change = .get) →
      n.keeper.policy.tracks key = false ∧ n.keeper.expiry.time? key = none ∧
        n.shard.store[key]? = none) ∧
    ((∀ p ∈ offered j, p.2 ≠ .full) → ∀ key,
      (n.keeper.policy.tracks key = true ↔ n.shard.store[key]? ≠ none) ∧
        n.keeper.expiry.time? key = n.shard.store[key]?.map (·.expires)) ∧
    observed j = told j := by
  intro n j
  have hkeys : ∀ key, n.Agrees j key := fun key =>
    (agrees_run settings ring senders pollMs hsteady key halive).2
  obtain ⟨_, hopen, htold⟩ := told_run settings ring senders pollMs hsteady
  have hsilent : ∀ key, n.waitingOf key = [] := by
    intro key
    rw [waitingOf, hwaiting]
    rfl
  refine ⟨fun before e after hoffered hchange hafter => ?_, fun key hreads => ?_,
    fun hfull key => ?_, ?_⟩
  · exact (hkeys e.key).known (hsilent e.key) hqueue hpending
      (lastChange_of_last hoffered hchange hafter)
  · exact (hkeys key).unknown hpending (lastChange_eq_none hreads)
  · apply (hkeys key).lossless (hsilent key) hqueue hpending
    intro p hp
    cases ho : p.2 with
    | accepted => rfl
    | full => exact absurd ho (hfull p hp)
    | closed => exact absurd ho (hopen p hp)
  · rw [← htold, hwaiting, List.append_nil]

/-- After a put and a pass. -/
theorem bookkeeping_agrees_after_put :
    let n := (make {} (Ring.empty "n" 1) 1 0).run
      ([.submit ⟨"k", .put "v" 5⟩, .work 0 false, .begin ⟨0, 0⟩] ++
        List.replicate 8 (.keep Listing.ascending ⟨0, 0⟩))
    n.shard.queue = [] ∧ n.shard.events.waiting = [] ∧ n.keeper.policy.tracks "k" = true ∧
      n.keeper.expiry.time? "k" = some 5 := by
  have hagrees := bookkeeping_agrees {} (Ring.empty "n" 1) 1 0
    ([.submit ⟨"k", .put "v" 5⟩, .work 0 false, .begin ⟨0, 0⟩] ++
      List.replicate 8 (.keep Listing.ascending ⟨0, 0⟩))
    (by decide) (by decide +kernel) (by decide +kernel) (by decide +kernel) (by decide +kernel)
  obtain ⟨htracks, htime⟩ := hagrees.2.2.1 (by decide +kernel) "k"
  exact ⟨by decide +kernel, by decide +kernel, htracks.mpr (by decide +kernel),
    htime.trans (by decide +kernel)⟩

end ClusterCache.Node
