import ClusterCache.Proofs.Shard

/-!
# A batch of deletions

Deletions of stored keys that nobody else gets in between: they are submitted one after the other
to an empty queue, and then the worker executes them one after the other.
-/

namespace ClusterCache

open Std

/-- Deletions of keys, with tickets from a first one on. -/
def deletions : Nat → List String → List (Nat × Request)
  | _, [] => []
  | first, key :: keys => (first, ⟨key, .delete⟩) :: deletions (first + 1) keys

@[simp] theorem length_deletions (first : Nat) (keys : List String) :
    (deletions first keys).length = keys.length := by
  induction keys generalizing first with
  | nil => rfl
  | cons key keys ih => rw [deletions, List.length_cons, ih, List.length_cons]

theorem deletions_concat (first : Nat) (keys : List String) (key : String) :
    deletions first (keys ++ [key]) =
      deletions first keys ++ [(first + keys.length, ⟨key, .delete⟩)] := by
  induction keys generalizing first with
  | nil => rfl
  | cons k keys ih =>
      rw [List.cons_append, deletions, ih, deletions, List.cons_append, List.length_cons]
      congr 4
      omega

/-- How far a shard `s` has come with the deletions of keys that it had all of at `b`: the worker
has done with some, the others are in the queue. -/
structure Deleting (b s : Shard) (done left : List String) : Prop where
  ring : s.ring = b.ring
  capacity : s.capacity = b.capacity
  alive : s.alive = true
  queue : s.queue = deletions (b.tickets + done.length) left
  tickets : s.tickets = b.tickets + done.length + left.length
  store : ∀ key, s.store[key]? = if key ∈ done then none else b.store[key]?
  size : s.size = s.store.size
  removes : s.counters.removes = b.counters.removes + done.length
  others : s.counters.hits = b.counters.hits ∧ s.counters.misses = b.counters.misses ∧
    s.counters.puts = b.counters.puts
  dropped : b.counters.droppedEvents ≤ s.counters.droppedEvents ∧
    s.counters.droppedEvents ≤ b.counters.droppedEvents + done.length
  replies : ∀ t, b.tickets ≤ t →
    (s.replies.contains t = true ↔ t < b.tickets + done.length)
  answered : ∀ t, b.replies.contains t = true → s.replies.contains t = true
  events : ∀ e ∈ s.events.waiting, e ∈ b.events.waiting ∨ ∃ key ∈ done, e = ⟨key, .delete⟩

variable {b s : Shard} {done left : List String} {key : String}

theorem Deleting.length_queue (h : Deleting b s done left) : s.queue.length = left.length := by
  rw [h.queue, length_deletions]

theorem Deleting.enqueue (h : Deleting b s [] left) (counters : Counters)
    (hremoves : counters.removes = s.counters.removes)
    (hothers : counters.hits = s.counters.hits ∧ counters.misses = s.counters.misses ∧
      counters.puts = s.counters.puts)
    (hdropped : counters.droppedEvents = s.counters.droppedEvents) :
    Deleting b { s.enqueue ⟨key, .delete⟩ with counters } [] (left ++ [key]) := by
  refine ⟨h.ring, h.capacity, h.alive, ?_, ?_, h.store, h.size, hremoves.trans h.removes, ?_,
    hdropped ▸ h.dropped, h.replies, h.answered, h.events⟩
  · have htickets : s.tickets = b.tickets + left.length := h.tickets
    rw [deletions_concat]
    simp only [Shard.enqueue, h.queue, htickets, List.length_nil, Nat.add_zero]
  · simp only [Shard.enqueue, h.tickets, List.length_append, List.length_singleton]
    omega
  · obtain ⟨hhits, hmisses, hputs⟩ := h.others
    exact ⟨hothers.1.trans hhits, hothers.2.1.trans hmisses, hothers.2.2.trans hputs⟩

theorem execute_delete (s : Shard) (now : UInt64) (ticket : Nat) (hstored : s.store[key]? ≠ none) :
    s.execute now ticket ⟨key, .delete⟩ =
      { s with
        events := (s.events.offer ⟨key, .delete⟩).1
        counters := s.counters.remove.noteOffer (s.events.offer ⟨key, .delete⟩).2
        store := s.store.erase key
        size := (s.store.erase key).size
        replies := s.replies.insert ticket (.done none) } := by
  have hcontains : s.store.contains key = true := by
    rw [ExtTreeMap.contains_eq_isSome_getElem?, Option.isSome_iff_ne_none]
    exact hstored
  rw [Shard.execute_eq]
  simp [Store.execute, Store.delete, Command.tells, Command.finds, hcontains]

theorem Deleting.work (h : Deleting b s done (key :: left)) (now : UInt64)
    (hlocal : b.ring.isLocal key = true) (hstored : b.store[key]? ≠ none) (hnew : key ∉ done) :
    ∃ s', s.work now = (s', none) ∧ Deleting b s' (done ++ [key]) left ∧
      s'.counters.expirations = s.counters.expirations ∧
      s'.counters.evictions = s.counters.evictions := by
  have hqueue := h.queue
  rw [deletions] at hqueue
  have hslot : s.store[key]? ≠ none := by
    rw [h.store, if_neg hnew]
    exact hstored
  have hring : s.ring.isLocal key = true := h.ring ▸ hlocal
  have hwork : s.work now = (Shard.execute
      { s with queue := deletions (b.tickets + done.length + 1) left } now
        (b.tickets + done.length) ⟨key, .delete⟩, none) := Shard.work_of_local hqueue hring
  refine ⟨_, hwork, ?_, ?_⟩
  · rw [execute_delete _ _ _ (by exact hslot)]
    refine ⟨h.ring, h.capacity, h.alive, ?_, ?_, fun k => ?_, rfl, ?_, ?_, ?_, fun t ht => ?_,
      fun t ht => ?_, fun e he => ?_⟩
    · simp [Nat.add_assoc]
    · simp only [h.tickets, List.length_append, List.length_cons, List.length_nil]
      omega
    · simp only [lookup_erase, h.store, List.mem_append, List.mem_singleton]
      by_cases hk : k = key <;> simp [hk]
    · simp only [Counters.noteOffer_eq, Counters.remove, h.removes, List.length_append,
        List.length_singleton]
      omega
    · simpa only [Counters.noteOffer_eq, Counters.remove] using h.others
    · obtain ⟨hle, hge⟩ := h.dropped
      simp only [Counters.noteOffer_eq, Counters.remove, List.length_append,
        List.length_singleton]
      split_ifs <;> omega
    · simp only [ExtTreeMap.contains_insert, Bool.or_eq_true, h.replies t ht, List.length_append,
        List.length_singleton, beq_iff_eq]
      rw [Std.compare_eq_iff_eq]
      omega
    · simp [ExtTreeMap.contains_insert, h.answered t ht]
    · simp only [EventQueue.offer_waiting] at he
      rcases List.mem_append.mp he with he | he
      · rcases h.events e he with hold | ⟨k, hk, rfl⟩
        · exact Or.inl hold
        · exact Or.inr ⟨k, List.mem_append_left _ hk, rfl⟩
      · split_ifs at he
        · exact Or.inr ⟨key, by simp, List.mem_singleton.mp he⟩
        · cases he
  · rw [execute_delete _ _ _ (by exact hslot)]
    simp [Counters.noteOffer_eq, Counters.remove]

theorem Deleting.answer (h : Deleting b s done left) {ticket : Nat} (hearlier : ticket < b.tickets)
    (reply : Reply) : Deleting b (s.answer ticket reply) done left := by
  refine ⟨h.ring, h.capacity, h.alive, h.queue, h.tickets, h.store, h.size, h.removes, h.others,
    h.dropped, fun t ht => ?_, fun t ht => ?_, h.events⟩
  · have hne : ticket ≠ t := by omega
    rw [← h.replies t ht]
    simp [Shard.answer, ExtTreeMap.contains_insert, hne]
  · simp [Shard.answer, ExtTreeMap.contains_insert, h.answered t ht]

theorem deleting_start (halive : s.alive = true) (hqueue : s.queue = [])
    (hsize : s.size = s.store.size) (hreplies : ∀ t, s.tickets ≤ t → s.replies.contains t = false) :
    Deleting s s [] [] := by
  refine ⟨rfl, rfl, halive, hqueue, rfl, fun key => ?_, hsize, rfl, ⟨rfl, rfl, rfl⟩,
    ⟨Nat.le_refl _, Nat.le_refl _⟩, fun t ht => ?_, fun t ht => ht, fun e he => Or.inl he⟩
  · rw [if_neg List.not_mem_nil]
  · rw [hreplies t ht, List.length_nil, Nat.add_zero]
    simpa using ht

/-- Events of the shard and of the one before the batch may be taken away. -/
theorem Deleting.take_events (h : Deleting b s done left) (events events' : EventQueue)
    (hevents : ∀ e ∈ events'.waiting,
      e ∈ events.waiting ∨ ∃ key ∈ done, e = ⟨key, .delete⟩) :
    Deleting { b with events } { s with events := events' } done left :=
  ⟨h.ring, h.capacity, h.alive, h.queue, h.tickets, h.store, h.size, h.removes, h.others,
    h.dropped, h.replies, h.answered, hevents⟩

/-- When a batch is done, the shard has been asked nothing new. -/
theorem Deleting.again (h : Deleting b s done []) : Deleting s s [] [] := by
  apply deleting_start h.alive h.queue h.size
  intro t ht
  have htickets : s.tickets = b.tickets + done.length := h.tickets
  rw [← Bool.not_eq_true, h.replies t (by omega)]
  omega

/-- Two batches, one after the other. -/
theorem Deleting.trans {c : Shard} {more : List String} (h : Deleting b s done [])
    (h' : Deleting s c more []) : Deleting b c (done ++ more) [] := by
  have htickets : s.tickets = b.tickets + done.length := h.tickets
  have htickets' : c.tickets = s.tickets + more.length := h'.tickets
  refine ⟨h'.ring.trans h.ring, h'.capacity.trans h.capacity, h'.alive, h'.queue, ?_,
    fun key => ?_, h'.size, ?_, ?_, ?_, fun t ht => ?_,
    fun t ht => h'.answered t (h.answered t ht), fun e he => ?_⟩
  · rw [htickets', htickets, List.length_append, List.length_nil]
    omega
  · rw [h'.store, h.store]
    by_cases hdone : key ∈ done <;> by_cases hmore : key ∈ more <;> simp [hdone, hmore]
  · rw [h'.removes, h.removes, List.length_append, Nat.add_assoc]
  · obtain ⟨hhits, hmisses, hputs⟩ := h.others
    obtain ⟨hhits', hmisses', hputs'⟩ := h'.others
    exact ⟨hhits'.trans hhits, hmisses'.trans hmisses, hputs'.trans hputs⟩
  · have hdropped := h.dropped
    have hdropped' := h'.dropped
    rw [List.length_append]
    omega
  · rw [List.length_append]
    by_cases hlater : s.tickets ≤ t
    · rw [h'.replies t hlater]
      omega
    · have hanswered := h'.answered t ((h.replies t ht).mpr (by omega))
      simp only [hanswered, true_iff]
      omega
  · rcases h'.events e he with hold | ⟨key, hkey, rfl⟩
    · rcases h.events e hold with hold | ⟨key, hkey, rfl⟩
      · exact Or.inl hold
      · exact Or.inr ⟨key, List.mem_append_left _ hkey, rfl⟩
    · exact Or.inr ⟨key, List.mem_append_right _ hkey, rfl⟩

theorem Deleting.size_add (h : Deleting b s done left) (hnodup : done.Nodup)
    (hstored : ∀ key ∈ done, b.store[key]? ≠ none) : s.size + done.length = b.store.size := by
  rw [h.size]
  exact size_of_erased hnodup hstored h.store

/-! ## Waiting for a batch -/

/-- Deletions of keys have all been submitted, and those that are not waited for any more have
been executed. -/
structure Settling (b s : Shard) (keys : List String) (waited : List Nat) : Prop where
  split : ∃ done left, keys = done ++ left ∧ Deleting b s done left
  passed : ∃ passed, List.range' b.tickets keys.length = passed ++ waited ∧
    ∀ t ∈ passed, s.replies.contains t = true

variable {keys : List String} {waited : List Nat}

theorem Deleting.settling (h : Deleting b s [] keys) :
    Settling b s keys (List.range' b.tickets keys.length) :=
  ⟨⟨[], keys, rfl, h⟩, [], rfl, by simp⟩

theorem Settling.pass {ticket : Nat} (h : Settling b s keys (ticket :: waited))
    (hreply : s.replies.contains ticket = true) : Settling b s keys waited := by
  obtain ⟨passed, hrange, hpassed⟩ := h.passed
  refine ⟨h.split, passed ++ [ticket], by rw [hrange]; simp, fun t ht => ?_⟩
  rcases List.mem_append.mp ht with ht | ht
  · exact hpassed t ht
  · rw [List.mem_singleton.mp ht]
    exact hreply

/-- Nothing is waited for any more only when everything is done. -/
theorem Settling.ended (h : Settling b s keys []) : Deleting b s keys [] := by
  obtain ⟨done, left, rfl, hdel⟩ := h.split
  obtain ⟨passed, hrange, hpassed⟩ := h.passed
  rw [List.append_nil] at hrange
  cases left with
  | nil => simpa using hdel
  | cons key left =>
      have hmem : b.tickets + done.length ∈ passed := by
        rw [← hrange, List.mem_range'_1, List.length_append, List.length_cons]
        omega
      have hdone := (hdel.replies _ (Nat.le_add_right _ _)).mp (hpassed _ hmem)
      exact absurd hdone (Nat.lt_irrefl _)

/-- A deletion that has not been answered is still in the queue. -/
theorem Settling.queue_ne_nil {ticket : Nat} (h : Settling b s keys (ticket :: waited))
    (hreply : s.replies.contains ticket = false) : s.queue ≠ [] := by
  obtain ⟨done, left, rfl, hdel⟩ := h.split
  obtain ⟨passed, hrange, _⟩ := h.passed
  intro hqueue
  have hleft : left = [] := by
    rw [← List.length_eq_zero_iff, ← hdel.length_queue, hqueue, List.length_nil]
  have hmem : ticket ∈ List.range' b.tickets (done ++ left).length := by
    rw [hrange]
    simp
  rw [List.mem_range'_1, hleft, List.append_nil] at hmem
  rw [(hdel.replies ticket hmem.1).mpr hmem.2] at hreply
  cases hreply

theorem Settling.work (h : Settling b s keys waited) (now : UInt64) (hnodup : keys.Nodup)
    (hkeys : ∀ key ∈ keys, b.ring.isLocal key = true ∧ b.store[key]? ≠ none) :
    ∃ s', s.work now = (s', none) ∧ Settling b s' keys waited ∧
      s'.counters.expirations = s.counters.expirations ∧
      s'.counters.evictions = s.counters.evictions ∧
      (s.queue ≠ [] → s'.queue.length < s.queue.length) := by
  obtain ⟨done, left, rfl, hdel⟩ := h.split
  cases left with
  | nil =>
      have hqueue : s.queue = [] := hdel.queue
      refine ⟨s, by simp [Shard.work, hqueue], h, rfl, rfl, fun hne => absurd hqueue hne⟩
  | cons key left =>
      obtain ⟨hlocal, hstored⟩ := hkeys key (by simp)
      have hnew : key ∉ done := by
        rw [List.nodup_append] at hnodup
        exact fun hmem => hnodup.2.2 key hmem key (by simp) rfl
      obtain ⟨s', hwork, hdel', hexpirations, hevictions⟩ := hdel.work now hlocal hstored hnew
      refine ⟨s', hwork, ⟨⟨done ++ [key], left, by simp, hdel'⟩, ?_⟩, hexpirations, hevictions,
        fun _ => ?_⟩
      · obtain ⟨passed, hrange, hpassed⟩ := h.passed
        refine ⟨passed, hrange, fun t ht => ?_⟩
        have hfirst : b.tickets ≤ t := by
          have hmem : t ∈ List.range' b.tickets (done ++ key :: left).length := by
            rw [hrange]
            exact List.mem_append_left _ ht
          exact (List.mem_range'_1.mp hmem).1
        rw [hdel'.replies t hfirst, List.length_append, List.length_singleton]
        have hold := (hdel.replies t hfirst).mp (hpassed t ht)
        omega
      · rw [hdel'.length_queue, hdel.length_queue, List.length_cons]
        omega

theorem Settling.answer (h : Settling b s keys waited) {ticket : Nat}
    (hearlier : ticket < b.tickets) (reply : Reply) :
    Settling b (s.answer ticket reply) keys waited := by
  obtain ⟨done, left, hkeys, hdel⟩ := h.split
  obtain ⟨passed, hrange, hpassed⟩ := h.passed
  refine ⟨⟨done, left, hkeys, hdel.answer hearlier reply⟩, passed, hrange, fun t ht => ?_⟩
  simp [Shard.answer, ExtTreeMap.contains_insert, hpassed t ht]

end ClusterCache
