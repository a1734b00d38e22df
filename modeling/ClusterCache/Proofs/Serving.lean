import ClusterCache.Proofs.Deletions
import ClusterCache.Proofs.Node

/-!
# The worker alone

The worker takes one turn after the other while nobody else does anything.  What it does with the
requests in front does not depend on those behind.  Deletions at the end of the queue take the keys
of the node out of the store, and every one of them is told.
-/

namespace ClusterCache

open Std

namespace Shard

/-- The shard after turns of the worker at some times. -/
def workAll (s : Shard) (times : List UInt64) : Shard := times.foldl (fun s now => (s.work now).1) s

/-- What is to be said of turns of the worker. -/
def workLog : Shard → List UInt64 → Journal
  | _, [] => []
  | s, now :: times => Record.ofWork s now ++ workLog (s.work now).1 times

/-- The shard with more requests at the end of its queue. -/
def trailed (s : Shard) (d : List (Nat × Request)) : Shard := { s with queue := s.queue ++ d }

variable {s : Shard} {now : UInt64} {times : List UInt64} {d : List (Nat × Request)}

@[simp] theorem workAll_nil (s : Shard) : s.workAll [] = s := rfl

@[simp] theorem workAll_cons (s : Shard) (now : UInt64) (times : List UInt64) :
    s.workAll (now :: times) = (s.work now).1.workAll times := rfl

@[simp] theorem workLog_nil (s : Shard) : s.workLog [] = [] := rfl

@[simp] theorem workLog_cons (s : Shard) (now : UInt64) (times : List UInt64) :
    s.workLog (now :: times) = Record.ofWork s now ++ (s.work now).1.workLog times := rfl

@[simp] theorem trailed_queue (s : Shard) (d : List (Nat × Request)) :
    (s.trailed d).queue = s.queue ++ d := rfl

theorem execute_trailed (s : Shard) (now : UInt64) (ticket : Nat) (r : Request)
    (queue : List (Nat × Request)) :
    Shard.execute { s with queue } now ticket r = { s.execute now ticket r with queue } := by
  simp only [execute_eq]

/-- A turn at the front of the queue leaves the end of the queue alone. -/
theorem work_trailed (hqueue : s.queue ≠ []) (now : UInt64) (d : List (Nat × Request)) :
    (s.trailed d).work now = ((s.work now).1.trailed d, (s.work now).2) ∧
      Record.ofWork (s.trailed d) now = Record.ofWork s now := by
  obtain ⟨⟨ticket, r⟩, rest, hq⟩ := List.exists_cons_of_ne_nil hqueue
  have hboth : (s.trailed d).queue = (ticket, r) :: (rest ++ d) := by simp [hq]
  constructor
  · cases hlocal : s.ring.isLocal r.key with
    | true =>
        rw [work_of_local hboth hlocal, work_of_local hq hlocal]
        simp only [trailed, execute_trailed]
    | false =>
        cases haddress : s.ring.address? (s.ring.owner r.key) with
        | none =>
            rw [work_of_unknown hboth hlocal haddress, work_of_unknown hq hlocal haddress]
            rfl
        | some address =>
            rw [work_of_known hboth hlocal haddress, work_of_known hq hlocal haddress]
            rfl
  · rw [Record.ofWork, Record.ofWork, hboth, hq]
    rfl

/-- A worker that comes to the end of its queue first does what it would do if the requests at the
end were not there. -/
theorem workAll_trailed (hdone : ((s.trailed d).workAll times).queue = []) :
    (s.trailed d).workAll times =
        Shard.workAll { s.workAll (times.take s.queue.length) with queue := d }
          (times.drop s.queue.length) ∧
      (s.trailed d).workLog times = s.workLog (times.take s.queue.length) ++
        Shard.workLog { s.workAll (times.take s.queue.length) with queue := d }
          (times.drop s.queue.length) := by
  generalize hlength : s.queue.length = length
  induction length generalizing s times with
  | zero =>
      have hqueue : s.queue = [] := List.eq_nil_of_length_eq_zero hlength
      simp [trailed, hqueue]
  | succ length ih =>
      have hqueue : s.queue ≠ [] := by
        intro hnil
        simp [hnil] at hlength
      cases times with
      | nil => exact absurd (List.append_eq_nil_iff.mp hdone).1 hqueue
      | cons now times =>
          obtain ⟨hwork, hrecords⟩ := work_trailed hqueue now d
          have hrest : (s.work now).1.queue.length = length := by
            rw [queue_work, List.length_tail, hlength, Nat.add_sub_cancel]
          rw [workAll_cons, hwork] at hdone
          obtain ⟨hall, hlog⟩ := ih hdone hrest
          simp only [workAll_cons, workLog_cons, hwork, hrecords, List.take_succ_cons,
            List.drop_succ_cons, hall, hlog, List.append_assoc, and_self]

theorem ring_workAll (s : Shard) (times : List UInt64) : (s.workAll times).ring = s.ring := by
  induction times generalizing s with
  | nil => rfl
  | cons now times ih =>
      have hturn : s.Turn now (Record.ofWork s now) ((s.work now).1, (s.work now).2) :=
        s.turn_work now
      rw [workAll_cons, ih, hturn.frame.1]

end Shard

/-! ## Deletions at the end -/

/-- How far a shard `s` has come with deletions of keys when nothing else is asked of it, `b` being
the shard before them.  Those of keys of other nodes are handed on. -/
structure Clearing (b s : Shard) (first : Nat) (done left : List String) : Prop where
  ring : s.ring = b.ring
  queue : s.queue = deletions first left
  store : ∀ key, s.store[key]? =
    if key ∈ done ∧ b.ring.isLocal key = true then none else b.store[key]?
  size : s.size = if ∃ key ∈ done, b.ring.isLocal key = true then s.store.size else b.size
  counters : s.counters = { b.counters with
    removes := b.counters.removes +
      done.countP fun key => b.ring.isLocal key && b.store.contains key }
  events : s.events.waiting =
    b.events.waiting ++ (done.filter b.ring.isLocal).map fun key => ⟨key, .delete⟩

variable {b s : Shard} {first : Nat} {done left : List String} {key : String} {now : UInt64}

theorem clearing_start (b : Shard) (first : Nat) (left : List String) :
    Clearing b { b with queue := deletions first left } first [] left where
  ring := rfl
  queue := rfl
  store := by simp
  size := by simp
  counters := by simp
  events := by simp

theorem Clearing.handOn (h : Clearing b s first done (key :: left))
    (hforeign : b.ring.isLocal key = false) {s' : Shard}
    (hqueue : s'.queue = deletions (first + 1) left) (hring : s'.ring = s.ring)
    (hstore : s'.store = s.store) (hsize : s'.size = s.size)
    (hcounters : s'.counters = s.counters) (hevents : s'.events = s.events) :
    Clearing b s' (first + 1) (done ++ [key]) left where
  ring := hring.trans h.ring
  queue := hqueue
  store := fun other => by
    rw [hstore, h.store]
    by_cases hother : other = key <;> simp [hother, hforeign]
  size := by
    rw [hsize, h.size, hstore]
    simp [or_and_right, exists_or, hforeign]
  counters := by
    rw [hcounters, h.counters]
    simp [hforeign]
  events := by
    rw [hevents, h.events]
    simp [hforeign]

theorem Clearing.execute (h : Clearing b s first done (key :: left))
    (hlocal : b.ring.isLocal key = true) (hnew : key ∉ done)
    (hkept : (s.events.offer ⟨key, .delete⟩).2 = .accepted) (now : UInt64) (ticket : Nat) :
    Clearing b (Shard.execute { s with queue := deletions (first + 1) left } now ticket
      ⟨key, .delete⟩) (first + 1) (done ++ [key]) left where
  ring := by
    rw [Shard.execute_ring]
    exact h.ring
  queue := by rw [Shard.execute_queue]
  store := fun other => by
    rw [Shard.lookup_execute]
    by_cases hother : other = key
    · simp [hother, hlocal, Command.leaves]
    · simp [hother, h.store]
  size := by
    rw [if_pos ⟨key, by simp, hlocal⟩, Shard.execute_eq]
  counters := by
    have hslot : s.store.contains key = b.store.contains key := by
      rw [ExtTreeMap.contains_eq_isSome_getElem?, ExtTreeMap.contains_eq_isSome_getElem?, h.store,
        if_neg fun hdone => hnew hdone.1]
    simp only [Shard.execute_eq, Command.tells, Option.map_some, Option.elim_some, hkept,
      Counters.noteOffer, Store.execute, Store.delete, hslot, h.counters, List.countP_append,
      List.countP_singleton, hlocal, Bool.true_and]
    cases b.store.contains key <;> simp [Counters.remove, Nat.add_assoc]
  events := by
    simp only [Shard.execute_eq, Command.tells, Option.map_some, Option.elim_some,
      EventQueue.offer_waiting, hkept, if_true, h.events, List.filter_append, List.map_append,
      List.append_assoc]
    simp [hlocal]

theorem Clearing.work (h : Clearing b s first done (key :: left)) (hnew : key ∉ done)
    (hkept : ∀ p ∈ Journal.offered (Record.ofWork s now), p.2 = .accepted) :
    Clearing b (s.work now).1 (first + 1) (done ++ [key]) left := by
  have hqueue : s.queue = (first, ⟨key, .delete⟩) :: deletions (first + 1) left := h.queue
  cases hlocal : b.ring.isLocal key with
  | true =>
      have hturn : s.ring.isLocal key = true := h.ring ▸ hlocal
      have hoffer : (s.events.offer ⟨key, .delete⟩).2 = .accepted := by
        apply hkept (⟨key, .delete⟩, _)
        simp [Record.ofWork, hqueue, hturn, Store.execute, Store.delete, Journal.offered,
          Record.offered?]
      rw [Shard.work_of_local hqueue hturn]
      exact h.execute hlocal hnew hoffer now first
  | false =>
      have hturn : s.ring.isLocal key = false := h.ring ▸ hlocal
      cases haddress : s.ring.address? (s.ring.owner key) with
      | none =>
          rw [Shard.work_of_unknown hqueue hturn haddress]
          exact h.handOn hlocal rfl rfl rfl rfl rfl rfl
      | some address =>
          rw [Shard.work_of_known hqueue hturn haddress]
          exact h.handOn hlocal rfl rfl rfl rfl rfl rfl

/-- A worker that has come to the end of the queue has done all the deletions. -/
theorem Clearing.workAll {times : List UInt64} (h : Clearing b s first done left)
    (hnodup : (done ++ left).Nodup) (hdone : (s.workAll times).queue = [])
    (hkept : ∀ p ∈ Journal.offered (s.workLog times), p.2 = .accepted) :
    ∃ last, Clearing b (s.workAll times) last (done ++ left) [] := by
  induction times generalizing s first done left with
  | nil =>
      have hleft : left = [] := by
        have hlength := length_deletions first left
        rw [← h.queue, show s.queue = [] from hdone] at hlength
        exact List.eq_nil_of_length_eq_zero hlength.symm
      subst hleft
      exact ⟨first, by simpa using h⟩
  | cons now times ih =>
      rw [Shard.workLog_cons, Journal.offered_append] at hkept
      have hlater : ∀ p ∈ Journal.offered ((s.work now).1.workLog times), p.2 = .accepted :=
        fun p hp => hkept p (List.mem_append_right _ hp)
      cases left with
      | nil =>
          have hidle : (s.work now).1 = s := by rw [Shard.work_of_idle h.queue]
          rw [Shard.workAll_cons] at hdone ⊢
          rw [hidle] at hdone hlater ⊢
          exact ih h hnodup hdone hlater
      | cons key left =>
          have hnew : key ∉ done := by
            rw [List.nodup_append] at hnodup
            exact fun hmem => hnodup.2.2 key hmem key List.mem_cons_self rfl
          have hstep := h.work hnew fun p hp => hkept p (List.mem_append_left _ hp)
          have hnext := ih hstep (by simpa using hnodup) hdone hlater
          simpa using hnext

end ClusterCache
