import ClusterCache.Proofs.Keeper

/-!
# The event queue between its senders and its reader

Senders offer events and go away.  The reader takes an event if there is one, or waits some time
for one, and may go away too.  In whatever order all this happens, the events come out as they were
accepted, and none is refused but for want of room or of a reader.
-/

namespace ClusterCache.EventQueue

/-- What the reader is doing.  It waits for an event until a time, and once it finds that none can
come any more it only lets as much time go by again. -/
inductive Reading where
  | free
  | waiting (deadline millis : Nat)
  | pausing (deadline : Nat)

/-- What can happen to a queue.  A reader that waits looks again whenever it is woken. -/
inductive Use where
  | submit (e : Event)
  | tryTake
  | poll (now millis : Nat)
  | wake (now : Nat)
  | dropSender
  | close

/-- What a sender or the reader is told. -/
inductive Answer where
  | offered (e : Event) (outcome : Offer)
  | taken (found : Option Event)
deriving DecidableEq

/-- A queue in use, with the counters of its senders. -/
structure Traffic where
  queue : EventQueue
  counters : Counters := {}
  reading : Reading := .free

namespace Answer

def accepted? : Answer → Option Event
  | offered e .accepted => some e
  | _ => none

def taken? : Answer → Option Event
  | taken found => found
  | _ => none

def isFull : Answer → Bool
  | offered _ .full => true
  | _ => false

end Answer

/-- The events that were accepted. -/
def accepted (answers : List Answer) : List Event := answers.filterMap Answer.accepted?

/-- The events that the reader got. -/
def taken (answers : List Answer) : List Event := answers.filterMap Answer.taken?

/-- How many events were refused because the queue was full. -/
def refusedFull (answers : List Answer) : Nat := answers.countP Answer.isFull

@[simp] theorem accepted_append (as bs : List Answer) :
    accepted (as ++ bs) = accepted as ++ accepted bs := List.filterMap_append

@[simp] theorem taken_append (as bs : List Answer) : taken (as ++ bs) = taken as ++ taken bs :=
  List.filterMap_append

@[simp] theorem refusedFull_append (as bs : List Answer) :
    refusedFull (as ++ bs) = refusedFull as + refusedFull bs := List.countP_append

section Answers

variable (e : Event) (outcome : Offer) (found : Option Event)

@[simp] theorem accepted_offered :
    accepted [.offered e outcome] = if outcome = .accepted then [e] else [] := by
  cases outcome <;> rfl

@[simp] theorem taken_offered : taken [.offered e outcome] = [] := rfl

@[simp] theorem refusedFull_offered :
    refusedFull [.offered e outcome] = if outcome = .full then 1 else 0 := by
  cases outcome <;> rfl

@[simp] theorem accepted_taken : accepted [.taken found] = [] := rfl

@[simp] theorem taken_taken : taken [.taken found] = found.toList := by
  cases found <;> rfl

@[simp] theorem refusedFull_taken : refusedFull [.taken found] = 0 := rfl

end Answers

theorem offer_eq (q : EventQueue) (e : Event) :
    (q.offer e).1 =
      { q with waiting := q.waiting ++ if (q.offer e).2 = .accepted then [e] else [] } := by
  by_cases h : (q.offer e).2 = .accepted
  · rw [if_pos h, offer_of_accepted h]
  · rw [if_neg h, offer_of_lost h, List.append_nil]

namespace Traffic

/-- Gives the reader the first event, or tells it that there is none. -/
def receive (t : Traffic) : List Answer × Traffic :=
  match t.queue.take? with
  | some (e, queue) => ([.taken (some e)], { t with queue, reading := .free })
  | none => ([.taken none], { t with reading := .free })

def next (t : Traffic) : Use → List Answer × Traffic
  | .submit e =>
    if t.queue.senders = 0 then ([], t)
    else
      let (queue, outcome) := t.queue.offer e
      ([.offered e outcome], { t with queue, counters := t.counters.noteOffer outcome })
  | .tryTake =>
    match t.reading with
    | .free => if t.queue.hasReader then t.receive else ([], t)
    | _ => ([], t)
  | .poll now millis =>
    match t.reading with
    | .free =>
      ([], if t.queue.hasReader then { t with reading := .waiting (now + millis) millis } else t)
    | _ => ([], t)
  | .wake now =>
    match t.reading with
    | .free => ([], t)
    | .waiting deadline millis =>
      if t.queue.isExhausted then ([], { t with reading := .pausing (now + millis) })
      else if t.queue.waiting ≠ [] ∨ deadline ≤ now then t.receive
      else ([], t)
    | .pausing deadline =>
      if deadline ≤ now then ([.taken none], { t with reading := .free }) else ([], t)
  | .dropSender => ([], { t with queue := t.queue.dropSender })
  | .close => ([], { t with queue := t.queue.close, reading := .free })

/-- One use after the other: what is answered, and the queue then. -/
def run (t : Traffic) : List Use → List Answer × Traffic
  | [] => ([], t)
  | u :: uses => ((t.next u).1 ++ ((t.next u).2.run uses).1, ((t.next u).2.run uses).2)

/-- A queue with nothing in it that nobody has used yet. -/
def start (capacity senders : Nat) : Traffic := { queue := EventQueue.make capacity senders }

/-- One use with what must hold before it, what is answered and what it leaves. -/
inductive Step (t : Traffic) : Use → List Answer → Traffic → Prop where
  | submit (e : Event) (hsenders : t.queue.senders ≠ 0) :
      Step t (.submit e) [.offered e (t.queue.offer e).2]
      { t with
        queue := (t.queue.offer e).1
        counters := t.counters.noteOffer (t.queue.offer e).2 }
  | take (u : Use) (e : Event) (rest : List Event) (hkeeps : u ≠ .close)
      (hwaiting : t.queue.waiting = e :: rest) :
      Step t u [.taken (some e)]
        { t with queue := { t.queue with waiting := rest }, reading := .free }
  | nothing (u : Use) (hkeeps : u ≠ .close) (hempty : t.queue.waiting = []) :
      Step t u [.taken none] { t with reading := .free }
  | idle (u : Use) (reading : Reading) (hkeeps : u ≠ .close)
      (hspent : ∀ deadline, reading = .pausing deadline → t.queue.isExhausted = true) :
      Step t u [] { t with reading }
  | dropSender : Step t .dropSender [] { t with queue := t.queue.dropSender }
  | close : Step t .close [] { t with queue := t.queue.close, reading := .free }

variable {t t' : Traffic} {u : Use} {uses : List Use} {answers : List Answer}

theorem step_receive (t : Traffic) (hkeeps : u ≠ .close) : t.Step u t.receive.1 t.receive.2 := by
  rw [receive]
  cases htake : t.queue.take? with
  | none => exact .nothing u hkeeps (Keeper.take?_eq_none htake)
  | some found =>
      obtain ⟨e, queue⟩ := found
      obtain ⟨rest, hwaiting, rfl⟩ := Keeper.take?_eq_some htake
      exact .take u e rest hkeeps hwaiting

/-- A reader pauses only where no event waits and none can come any more. -/
def Spent (t : Traffic) : Prop :=
  ∀ deadline, t.reading = .pausing deadline → t.queue.isExhausted = true

theorem Spent.stay (h : t.Spent) (hkeeps : u ≠ .close) : t.Step u [] t :=
  .idle u t.reading hkeeps h

theorem waiting_of_isExhausted {q : EventQueue} (h : q.isExhausted = true) : q.waiting = [] := by
  rw [isExhausted, Bool.and_eq_true, List.isEmpty_iff] at h
  exact h.1

theorem Spent.step (h : t.Spent) (u : Use) : t.Step u (t.next u).1 (t.next u).2 := by
  cases u with
  | submit e =>
      by_cases hsenders : t.queue.senders = 0
      · rw [next, if_pos hsenders]
        exact h.stay (by simp)
      · rw [next, if_neg hsenders]
        exact .submit e hsenders
  | tryTake =>
      cases hreading : t.reading with
      | free =>
          simp only [next, hreading]
          split_ifs
          · exact t.step_receive (by simp)
          · exact h.stay (by simp)
      | _ =>
          simp only [next, hreading]
          exact h.stay (by simp)
  | poll now millis =>
      cases hreading : t.reading with
      | free =>
          simp only [next, hreading]
          split_ifs
          · exact .idle _ _ (by simp) (by simp)
          · exact h.stay (by simp)
      | _ =>
          simp only [next, hreading]
          exact h.stay (by simp)
  | wake now =>
      cases hreading : t.reading with
      | free =>
          simp only [next, hreading]
          exact h.stay (by simp)
      | waiting deadline millis =>
          simp only [next, hreading]
          split_ifs with hspent
          · exact .idle _ _ (by simp) fun _ _ => hspent
          · exact t.step_receive (by simp)
          · exact h.stay (by simp)
      | pausing deadline =>
          simp only [next, hreading]
          split_ifs
          · exact .nothing _ (by simp) (waiting_of_isExhausted (h deadline hreading))
          · exact h.stay (by simp)
  | dropSender => exact .dropSender
  | close => exact .close

/-! ## What every use keeps -/

/-- How a queue for so many events stands that was put to these uses with these answers. -/
structure Served (room : Nat) (uses : List Use) (answers : List Answer) (t : Traffic) : Prop where
  capacity : t.queue.capacity = max 1 room
  bounded : t.queue.waiting.length ≤ max 1 room
  reader : t.queue.hasReader = true ↔ .close ∉ uses
  spent : t.Spent
  order : t.queue.hasReader = true → taken answers ++ t.queue.waiting = accepted answers
  earlier : taken answers ++ t.queue.waiting <+: accepted answers
  counters : t.counters = { droppedEvents := refusedFull answers }

variable {room : Nat}

theorem served_start (room senders : Nat) : Served room [] [] (start room senders) where
  capacity := rfl
  bounded := Nat.zero_le _
  reader := by simp [start, EventQueue.make]
  spent := by simp [Spent, start]
  order := fun _ => rfl
  earlier := List.prefix_refl _
  counters := rfl

/-- There is room for an event exactly if the reader is there and the queue is not full. -/
theorem Served.offer (h : Served room uses answers t) (e : Event) :
    (t.queue.offer e).2 =
      if t.queue.hasReader = false then .closed
      else if t.queue.waiting.length = max 1 room then .full else .accepted := by
  have hbounded := h.bounded
  rw [EventQueue.offer, h.capacity]
  cases t.queue.hasReader with
  | false => rfl
  | true =>
      by_cases hfull : t.queue.waiting.length = max 1 room
      · simp [hfull]
      · have hroom : ¬ max 1 room ≤ t.queue.waiting.length := by omega
        simp only [Bool.not_true, Bool.false_eq_true, if_false, hroom, hfull, Bool.true_eq_false]

theorem Served.submit (h : Served room uses answers t) (e : Event)
    (hsenders : t.queue.senders ≠ 0) :
    Served room (uses ++ [.submit e]) (answers ++ [.offered e (t.queue.offer e).2])
      { t with
        queue := (t.queue.offer e).1
        counters := t.counters.noteOffer (t.queue.offer e).2 } := by
  have hbounded := h.bounded
  have hoffer := h.offer e
  rw [offer_eq]
  generalize (t.queue.offer e).2 = outcome at *
  refine ⟨h.capacity, ?_, ?_, fun deadline hd => ?_, fun hopen => ?_, ?_, ?_⟩
  · by_cases haccepted : outcome = .accepted
    · have hroom : t.queue.waiting.length ≠ max 1 room := by
        intro hfull
        rw [if_pos hfull, haccepted] at hoffer
        split_ifs at hoffer
      simp only [haccepted, if_true, List.length_append, List.length_singleton]
      omega
    · simpa [haccepted] using hbounded
  · simpa using h.reader
  · -- Where the reader pauses there is nobody left to offer anything.
    have hspent := h.spent deadline hd
    simp [isExhausted, hsenders] at hspent
  · simp [← h.order hopen]
  · by_cases haccepted : outcome = .accepted
    · have hopen : t.queue.hasReader = true := by
        by_contra hclosed
        rw [if_pos (Bool.eq_false_iff.mpr hclosed), haccepted] at hoffer
        cases hoffer
      simp [haccepted, ← h.order hopen]
    · simpa [haccepted] using h.earlier
  · rw [Counters.noteOffer_eq, h.counters, refusedFull_append, refusedFull_offered]

theorem Served.step (h : Served room uses answers t) {more : List Answer}
    (hstep : t.Step u more t') : Served room (uses ++ [u]) (answers ++ more) t' := by
  have hreader : u ≠ .close → (t.queue.hasReader = true ↔ .close ∉ uses ++ [u]) := by
    intro hkeeps
    rw [h.reader]
    simp [Ne.symm hkeeps]
  cases hstep with
  | submit e hsenders => exact h.submit e hsenders
  | take u e rest hkeeps hwaiting =>
      have hbounded := h.bounded
      have horder := h.order
      have hearlier := h.earlier
      rw [hwaiting] at hbounded horder hearlier
      rw [List.length_cons] at hbounded
      refine ⟨h.capacity, Nat.le_of_succ_le hbounded, hreader hkeeps, by simp [Spent],
        fun hopen => ?_, ?_, ?_⟩
      · simp [← horder hopen]
      · simpa using hearlier
      · simpa using h.counters
  | nothing u hkeeps hempty =>
      refine ⟨h.capacity, h.bounded, hreader hkeeps, by simp [Spent], fun hopen => ?_, ?_, ?_⟩
      · simpa using h.order hopen
      · simpa using h.earlier
      · simpa using h.counters
  | idle u reading hkeeps hspent =>
      rw [List.append_nil]
      exact ⟨h.capacity, h.bounded, hreader hkeeps, hspent, h.order, h.earlier, h.counters⟩
  | dropSender =>
      rw [List.append_nil]
      refine ⟨h.capacity, h.bounded, hreader (by simp), fun d hd => ?_, h.order, h.earlier,
        h.counters⟩
      have hspent := h.spent d hd
      rw [isExhausted, Bool.and_eq_true, decide_eq_true_eq] at hspent ⊢
      exact ⟨hspent.1, by rw [EventQueue.dropSender, hspent.2]⟩
  | close =>
      rw [List.append_nil]
      refine ⟨h.capacity, Nat.zero_le _, by simp [EventQueue.close], by simp [Spent],
        fun hopen => by simp [EventQueue.close] at hopen, ?_, h.counters⟩
      simpa [EventQueue.close] using (List.prefix_append _ _).trans h.earlier

theorem Served.run (h : Served room uses answers t) (us : List Use) :
    Served room (uses ++ us) (answers ++ (t.run us).1) (t.run us).2 := by
  induction us generalizing uses answers t with
  | nil => simpa [Traffic.run] using h
  | cons u us ih => simpa [Traffic.run] using ih (h.step (h.spent.step u))

/-! ## What the reader gets -/

/-- The use by which a reader looks for an event, whatever it is doing. -/
def look (t : Traffic) (now : Nat) : Use :=
  match t.reading with
  | .free => .tryTake
  | _ => .wake now

theorem receive_of_cons {e : Event} {rest : List Event} (hwaiting : t.queue.waiting = e :: rest) :
    t.receive =
      ([.taken (some e)],
        { t with queue := { t.queue with waiting := rest }, reading := .free }) := by
  simp [receive, take?, hwaiting]

theorem next_tryTake (hopen : t.queue.hasReader = true) (hfree : t.reading = .free) :
    t.next .tryTake = t.receive := by
  simp [next, hfree, hopen]

/-- While an event waits, a reader that looks gets it. -/
theorem Spent.look {e : Event} {rest : List Event} (h : t.Spent) (hopen : t.queue.hasReader = true)
    (hwaiting : t.queue.waiting = e :: rest) (now : Nat) :
    (t.next (t.look now)).1 = [.taken (some e)] := by
  have hlive : t.queue.isExhausted = false := by simp [isExhausted, hwaiting]
  cases hreading : t.reading with
  | free =>
      rw [Traffic.look, hreading, next_tryTake hopen hreading, receive_of_cons hwaiting]
  | waiting deadline millis =>
      have hsome : t.queue.waiting ≠ [] := by simp [hwaiting]
      simp only [Traffic.look, hreading, next, hlive, Bool.false_eq_true, if_false, hsome, ne_eq,
        not_false_eq_true, true_or, if_true, receive_of_cons hwaiting]
  | pausing deadline =>
      rw [h deadline hreading] at hlive
      cases hlive

/-- A reader that takes one event after the other gets what waits, in order. -/
theorem taken_run_tryTake (hopen : t.queue.hasReader = true) (hfree : t.reading = .free) (n : Nat) :
    taken (t.run (List.replicate n .tryTake)).1 = t.queue.waiting.take n := by
  induction n generalizing t with
  | zero => rfl
  | succ n ih =>
      simp only [List.replicate_succ, run, next_tryTake hopen hfree, taken_append]
      cases hwaiting : t.queue.waiting with
      | nil =>
          have hreceive : t.receive = ([.taken none], { t with reading := .free }) := by
            simp [receive, take?, hwaiting]
          have hrest := ih (t := { t with reading := .free }) hopen rfl
          simp only [hreceive, hrest, hwaiting, taken_taken, Option.toList_none, List.take_nil,
            List.append_nil]
      | cons e rest =>
          have hrest := ih
            (t := { t with queue := { t.queue with waiting := rest }, reading := .free }) hopen rfl
          simp only [receive_of_cons hwaiting, hrest, taken_taken, Option.toList_some,
            List.take_succ_cons, List.singleton_append]

/-- A reader is told that there is nothing only where nothing waits. -/
theorem Step.nothing_waits {more : List Answer} (h : t.Step u more t')
    (hnone : .taken none ∈ more) : t.queue.waiting = [] := by
  cases h with
  | nothing u hkeeps hempty => exact hempty
  | _ => simp at hnone

/-- A reader that waits while nobody does anything. -/
theorem run_poll (q : EventQueue) (counters : Counters) (hopen : q.hasReader = true)
    (now millis : Nat) :
    (run ⟨q, counters, .free⟩ [.poll now millis, .wake now, .wake (now + millis)]) =
      ([.taken (q.poll millis).1], ⟨(q.poll millis).2.1, counters, .free⟩) := by
  cases hwaiting : q.waiting with
  | cons e rest =>
      simp [run, next, hopen, receive, EventQueue.poll, take?, hwaiting, isExhausted]
  | nil =>
      by_cases hsenders : q.senders = 0
      · simp [run, next, hopen, EventQueue.poll, take?, hwaiting, isExhausted, hsenders]
      · by_cases hnow : now + millis ≤ now
        · simp [run, next, hopen, receive, EventQueue.poll, take?, hwaiting, isExhausted, hsenders,
            hnow]
        · simp [run, next, hopen, receive, EventQueue.poll, take?, hwaiting, isExhausted, hsenders,
            hnow]

/-- However its senders and its reader use it and go away, a queue holds no more events than it has
room for, refuses an event exactly if it is full or has no reader, and counts the refusals for want
of room and no others.  The reader gets what was accepted, in order and without a gap, also once
the senders are gone. -/
theorem bounded_fifo (room senders : Nat) (uses : List Use) :
    let answers := ((start room senders).run uses).1
    let t := ((start room senders).run uses).2
    t.queue.waiting.length ≤ max 1 room ∧
      (t.queue.hasReader = true ↔ .close ∉ uses) ∧
      (∀ e, t.queue.senders ≠ 0 → ∃ outcome, (t.next (.submit e)).1 = [.offered e outcome] ∧
        (outcome ≠ .accepted ↔
          t.queue.waiting.length = max 1 room ∨ t.queue.hasReader = false) ∧
        (outcome = .closed ↔ t.queue.hasReader = false)) ∧
      (t.queue.hasReader = true → taken answers ++ t.queue.waiting = accepted answers ∧
        (∀ e rest now, t.queue.waiting = e :: rest →
          (t.next (t.look now)).1 = [.taken (some e)]) ∧
        (t.reading = .free →
          ∀ n, taken (t.run (List.replicate n .tryTake)).1 = t.queue.waiting.take n)) ∧
      taken answers <+: accepted answers ∧
      (∀ u, .taken none ∈ (t.next u).1 → t.queue.waiting = []) ∧
      t.counters = { droppedEvents := refusedFull answers } := by
  have h := (served_start room senders).run uses
  simp only [List.nil_append] at h
  generalize ((start room senders).run uses).1 = answers at h ⊢
  generalize ((start room senders).run uses).2 = t at h ⊢
  refine ⟨h.bounded, h.reader, fun e hsenders => ?_, fun hopen => ⟨h.order hopen, ?_, ?_⟩, ?_,
    fun u => (h.spent.step u).nothing_waits, h.counters⟩
  · refine ⟨(t.queue.offer e).2, by simp [next, hsenders], ?_, ?_⟩
    all_goals
      rw [h.offer e]
      split_ifs <;> simp [*]
  · exact fun e rest now hwaiting => h.spent.look hopen hwaiting now
  · exact fun hfree => taken_run_tryTake hopen hfree
  · exact (List.prefix_append _ _).trans h.earlier

end Traffic

end ClusterCache.EventQueue
