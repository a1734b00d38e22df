import ClusterCache.Cluster.Client
import ClusterCache.Proofs.Cluster.Hops

/-!
# One request through a cluster at rest

A request that comes to a cluster in which nothing else goes on is done within three rounds.  If
the host owns the key, its worker executes it.  If another host does, the first round brings the
call there, the second executes it there and brings the reply back.
-/

namespace ClusterCache

open Std

/-- Only a read finds a value. -/
theorem Command.finds_of_ne_get {command : Command} (hget : command ≠ .get) (now : UInt64)
    (slot : Option Entry) : command.finds now slot = none := by
  cases command with
  | get => exact absurd rfl hget
  | put value ttl => rfl
  | delete => rfl

namespace Shard

/-- A shard that has nothing to do and takes requests. -/
structure Free (s : Shard) : Prop where
  queue : s.queue = []
  alive : s.alive = true
  room : 0 < s.capacity
  fresh : ∀ t, s.tickets ≤ t → s.replies[t]? = none

/-- A free shard after it has taken a request and let it go again. -/
def tick (s : Shard) : Shard := { s with tickets := s.tickets + 1 }

/-- A free shard after it has taken a request and executed it. -/
def serve (s : Shard) (now : UInt64) (r : Request) : Shard := s.tick.execute now s.tickets r

variable {s : Shard} {now : UInt64} {r : Request}

@[simp] theorem tick_ring : s.tick.ring = s.ring := rfl

@[simp] theorem tick_store : s.tick.store = s.store := rfl

@[simp] theorem answer_ring (ticket : Nat) (reply : Reply) :
    (s.answer ticket reply).ring = s.ring := rfl

@[simp] theorem answer_store (ticket : Nat) (reply : Reply) :
    (s.answer ticket reply).store = s.store := rfl

@[simp] theorem serve_ring : (s.serve now r).ring = s.ring := by
  rw [serve, execute_ring, tick_ring]

@[simp] theorem serve_queue : (s.serve now r).queue = s.queue := by
  rw [serve, execute_queue]
  rfl

theorem serve_store : (s.serve now r).store = (s.store.execute s.counters now r).store := by
  rw [serve, execute_eq]
  rfl

theorem serve_reply :
    (s.serve now r).replies[s.tickets]? = some (.done (r.command.finds now s.store[r.key]?)) := by
  rw [serve, execute_eq]
  exact ExtTreeMap.getElem?_insert_self

theorem Free.tick (h : s.Free) : s.tick.Free :=
  ⟨h.queue, h.alive, h.room, fun t ht => h.fresh t (Nat.le_of_succ_le ht)⟩

theorem Free.answer (h : s.Free) {ticket : Nat} (hgiven : ticket < s.tickets) (reply : Reply) :
    (s.answer ticket reply).Free := by
  refine ⟨h.queue, h.alive, h.room, fun t ht => ?_⟩
  have hlater : s.tickets ≤ t := ht
  simp only [Shard.answer, lookup_insert]
  rw [if_neg (by omega)]
  exact h.fresh t hlater

theorem Free.serve (h : s.Free) (now : UInt64) (r : Request) : (s.serve now r).Free := by
  refine ⟨by rw [serve_queue, h.queue], ?_, ?_, fun t ht => ?_⟩
  · rw [Shard.serve, execute_alive]
    exact h.alive
  · rw [Shard.serve, execute_capacity]
    exact h.room
  · rw [Shard.serve, execute_tickets] at ht
    have hlater : s.tickets + 1 ≤ t := ht
    rw [Shard.serve, execute_eq]
    simp only [lookup_insert]
    rw [if_neg (by omega)]
    exact h.fresh t (by omega)

theorem Free.submit (h : s.Free) (hkey : r.key ≠ "") :
    s.submit r = (s.enqueue r, .ok s.tickets) := by
  have hroom : ¬ s.capacity ≤ s.queue.length := by
    rw [h.queue]
    exact Nat.not_le.mpr h.room
  have hnone : s.refusal? r = none := by
    rw [refusal?, if_neg hkey, if_neg (by simp [h.alive]), if_neg hroom]
  rw [submit_eq, hnone]
  rfl

theorem Free.enqueue_queue (h : s.Free) : (s.enqueue r).queue = [(s.tickets, r)] := by
  rw [enqueue, h.queue]
  rfl

theorem Free.work_own (h : s.Free) (hlocal : s.ring.isLocal r.key = true) :
    (s.enqueue r).work now = (s.serve now r, none) := by
  rw [work_of_local h.enqueue_queue hlocal, Shard.serve, Shard.tick, ← h.queue]
  rfl

theorem Free.work_foreign (h : s.Free) {address : String}
    (hforeign : s.ring.isLocal r.key = false)
    (haddress : s.ring.address? (s.ring.owner r.key) = some address) :
    (s.enqueue r).work now = (s.tick, some (s.tickets, ⟨address, r⟩)) := by
  rw [work_of_known h.enqueue_queue hforeign haddress, Shard.tick, ← h.queue]
  rfl

end Shard

namespace Cluster

/-- A cluster in which nothing goes on. -/
structure Quiet (c : Cluster) : Prop where
  flights : c.flights = []
  scripts : c.scripts = []
  free : ∀ i h, c.host? i = some h → h.shard.Free
  idle : ∀ i h, c.host? i = some h → h.background = .idle

/-- The cluster with other calls made and other calls under way. -/
def carrying (c : Cluster) (log : List Call) (flights : List Flight) : Cluster :=
  { c with log, flights }

section Carrying

variable (c : Cluster) (log : List Call) (flights : List Flight) (i : Nat)

@[simp] theorem carrying_hosts : (c.carrying log flights).hosts = c.hosts := rfl

@[simp] theorem carrying_clock : (c.carrying log flights).clock = c.clock := rfl

@[simp] theorem carrying_hasWork : (c.carrying log flights).hasWork i = c.hasWork i := rfl

@[simp] theorem carrying_reply? (ticket : Nat) :
    (c.carrying log flights).reply? i ticket = c.reply? i ticket := rfl

theorem carrying_modifyShard (change : Shard → Shard) :
    (c.carrying log flights).modifyShard i change =
      (c.modifyShard i change).carrying log flights := rfl

theorem flightTurn_carrying :
    (c.carrying log flights).flightTurn = followAll (c.carrying log []) flights := rfl

end Carrying

variable {c : Cluster} {i : Nat}

theorem Quiet.carrying (hq : c.Quiet) (log : List Call) : (c.carrying log []).Quiet :=
  ⟨rfl, hq.scripts, hq.free, hq.idle⟩

/-! ## Turns -/

theorem script?_eq_none (hscripts : c.scripts = []) (address : String) :
    c.script? address = none := by
  rw [script?, hscripts, List.lookup_nil]

theorem isFatal_eq_false (hscripts : c.scripts = []) (address : String) :
    c.isFatal address = false := by
  rw [isFatal, script?_eq_none hscripts]

theorem work_of_kept {h : Host} {s : Shard} (hi : c.host? i = some h)
    (hwork : h.shard.work c.clock.seconds = (s, none)) : c.work i = c.modifyShard i fun _ => s := by
  rw [work, hi]
  simp only [hwork]

theorem work_of_handed {h : Host} {s : Shard} {ticket : Nat} {call : Call}
    (hi : c.host? i = some h) (hscripts : c.scripts = [])
    (hwork : h.shard.work c.clock.seconds = (s, some (ticket, call))) :
    c.work i = (c.modifyShard i fun _ => s).carrying (c.log ++ [call])
      (c.flights ++ [⟨i, ticket, call, .launched⟩]) := by
  rw [work, hi]
  simp only [hwork]
  refine if_neg ?_
  rw [Bool.not_eq_true]
  exact isFatal_eq_false hscripts call.address

theorem host?_enqueue {h : Host} (hi : c.host? i = some h) (r : Request) :
    (c.modifyShard i fun s => s.enqueue r).host? i =
      some { h with shard := h.shard.enqueue r } :=
  host?_modifyShard_self hi _

/-- Whatever becomes of a request, it leaves the queue as it was. -/
theorem modifyShard_enqueue {h : Host} (hi : c.host? i = some h) (r : Request)
    (change : Shard → Shard) :
    ((c.modifyShard i fun s => s.enqueue r).modifyShard i fun _ => change h.shard) =
      c.modifyShard i change := by
  rw [modifyShard_modifyShard]
  exact modifyShard_congr hi rfl

theorem workTurn_idle (hidle : c.hasWork i = false) (count : Nat) :
    workTurn count c i = c := by
  cases count with
  | zero => rfl
  | succ count => rw [workTurn, hidle, if_neg (by decide)]

/-- If only one worker has something to do and is done after one request, then nothing else
happens in the turns of all workers. -/
theorem foldl_workTurn (hwork : ∀ k, c.hasWork k = true ↔ k = i)
    (hdone : ∀ k, (c.work i).hasWork k = false) {order : List Nat} (hi : i ∈ order) :
    order.foldl (workTurn burst) c = c.work i := by
  -- After the one turn nobody has anything to do.
  have hrest : ∀ ks : List Nat, ks.foldl (workTurn burst) (c.work i) = c.work i := by
    intro ks
    induction ks with
    | nil => rfl
    | cons k ks ih => rw [List.foldl_cons, workTurn_idle (hdone k), ih]
  induction order with
  | nil => cases hi
  | cons k order ih =>
      rw [List.foldl_cons]
      by_cases hk : k = i
      · have hturn : workTurn burst c k = c.work i := by
          rw [hk, burst, workTurn, if_pos ((hwork i).mpr rfl), workTurn_idle (hdone i)]
        rw [hturn, hrest]
      · have hidle : c.hasWork k = false := by
          rw [← Bool.not_eq_true, hwork]
          exact hk
        rw [workTurn_idle hidle, ih ((List.mem_cons.mp hi).resolve_left (Ne.symm hk))]

theorem mem_workOrder (hi : i < c.hosts.length) : i ∈ c.workOrder := by
  rw [workOrder, List.mem_append, List.mem_filter, List.mem_range]
  by_cases hcalled : i ∈ c.called
  · exact Or.inl hcalled
  · exact Or.inr ⟨hi, by simpa using hcalled⟩

theorem keeperTurn_idle (hidle : ∀ k h, c.host? k = some h → h.background = .idle) (k : Nat) :
    c.keeperTurn k = c := by
  rw [keeperTurn]
  cases hk : c.host? k with
  | none => rfl
  | some h => simp only [hidle k h hk]

theorem round_eq (hwork : ∀ k, c.hasWork k = true ↔ k = i)
    (hdone : ∀ k, (c.work i).hasWork k = false)
    (hidle : ∀ k h, (c.work i).flightTurn.host? k = some h → h.background = .idle) :
    c.round = (c.work i).flightTurn := by
  obtain ⟨h, hi, _⟩ := hasWork_iff.mp ((hwork i).mpr rfl)
  have hkeepers : ∀ ks : List Nat,
      ks.foldl keeperTurn (c.work i).flightTurn = (c.work i).flightTurn := by
    intro ks
    induction ks with
    | nil => rfl
    | cons k ks ih => rw [List.foldl_cons, keeperTurn_idle hidle, ih]
  rw [round, foldl_workTurn hwork hdone (mem_workOrder (lt_of_host? hi))]
  exact hkeepers _

theorem isBusy_of_hasWork (hwork : c.hasWork i = true) : c.isBusy = true := by
  obtain ⟨h, hi, _⟩ := hasWork_iff.mp hwork
  have hany : (List.range c.hosts.length).any c.hasWork = true :=
    List.any_eq_true.mpr ⟨i, List.mem_range.mpr (lt_of_host? hi), hwork⟩
  rw [isBusy, hany, Bool.true_or, Bool.true_or]

theorem Quiet.hasWork_eq_false (h : c.Quiet) (k : Nat) : c.hasWork k = false := by
  rw [← Bool.not_eq_true, hasWork_iff]
  rintro ⟨host, hk, hqueue⟩
  exact hqueue (h.free k host hk).queue

theorem Quiet.isBusy_eq_false (h : c.Quiet) : c.isBusy = false := by
  have hkeepers : c.hosts.any c.canTurn = false := by
    rw [List.any_eq_false]
    intro host hmem
    obtain ⟨k, hk⟩ := List.getElem?_of_mem hmem
    rw [canTurn, h.idle k host hk]
    exact Bool.false_ne_true
  have hworkers : (List.range c.hosts.length).any c.hasWork = false := by
    rw [List.any_eq_false]
    exact fun k _ => by simp [h.hasWork_eq_false]
  rw [isBusy, hworkers, hkeepers, h.flights]
  rfl

theorem Quiet.settle_eq (h : c.Quiet) (fuel : Nat) : c.settle fuel = c := by
  cases fuel with
  | zero => rfl
  | succ fuel => rw [settle, h.isBusy_eq_false, if_neg (by decide)]

theorem idle_modifyShard (hidle : ∀ k h, c.host? k = some h → h.background = .idle) (i : Nat)
    (change : Shard → Shard) (k : Nat) (h : Host)
    (hk : (c.modifyShard i change).host? k = some h) : h.background = .idle := by
  rw [modifyShard, host?_modify] at hk
  split_ifs at hk with hki
  · obtain ⟨h', hi, rfl⟩ := Option.map_eq_some_iff.mp hk
    exact hidle i h' hi
  · exact hidle k h hk

theorem Quiet.changed (hq : c.Quiet) {h : Host} (hi : c.host? i = some h)
    {change : Shard → Shard} (hfree : (change h.shard).Free) :
    (c.modifyShard i change).Quiet := by
  refine ⟨hq.flights, hq.scripts, fun k h' hk => ?_, idle_modifyShard hq.idle i change⟩
  rw [modifyShard, host?_modify] at hk
  split_ifs at hk with hki
  · rw [hi, Option.map_some, Option.some.injEq] at hk
    rwa [← hk]
  · exact hq.free k h' hk

theorem flightTurn_of_nil (hflights : c.flights = []) : c.flightTurn = c := by
  rw [flightTurn, hflights, followAll, ← hflights]

/-! ## A request for a key of the host's own -/

theorem hasWork_enqueue (hfree : ∀ k h, c.host? k = some h → h.shard.queue = [])
    {h : Host} (hi : c.host? i = some h) (r : Request) (k : Nat) :
    (c.modifyShard i fun s => s.enqueue r).hasWork k = true ↔ k = i := by
  rw [hasWork_iff, modifyShard, host?_modify]
  by_cases hk : k = i
  · simp [hk, hi, Shard.enqueue]
  · simp only [hk, iff_false]
    rintro ⟨h', hk', hqueue⟩
    exact hqueue (hfree k h' hk')

theorem settle_busy (hbusy : c.isBusy = true) (fuel : Nat) :
    c.settle (fuel + 1) = c.round.settle fuel := by
  rw [settle, if_pos hbusy]

/-- The worker executes a request for a key of its own, whatever else is under way. -/
theorem Quiet.work_own (hq : c.Quiet) {h : Host} (hi : c.host? i = some h) {r : Request}
    (hlocal : h.shard.ring.isLocal r.key = true) (log : List Call) (flights : List Flight) :
    ((c.modifyShard i fun s => s.enqueue r).carrying log flights).work i =
      (c.modifyShard i fun s => s.serve c.clock.seconds r).carrying log flights := by
  have hhost : ((c.modifyShard i fun s => s.enqueue r).carrying log flights).host? i =
      some { h with shard := h.shard.enqueue r } := host?_enqueue hi r
  rw [work_of_kept hhost ((hq.free i h hi).work_own hlocal), carrying_modifyShard]
  exact congrArg (·.carrying log flights)
    (modifyShard_enqueue hi r fun s => s.serve c.clock.seconds r)

theorem Quiet.settle_own (hq : c.Quiet) {h : Host} (hi : c.host? i = some h) {r : Request}
    (hlocal : h.shard.ring.isLocal r.key = true) (fuel : Nat) :
    (c.modifyShard i fun s => s.enqueue r).settle (fuel + 1) =
      c.modifyShard i fun s => s.serve c.clock.seconds r := by
  have hfree := hq.free i h hi
  have hwork := hasWork_enqueue (fun k h' hk => (hq.free k h' hk).queue) hi r
  have hquiet : (c.modifyShard i fun s => s.serve c.clock.seconds r).Quiet :=
    hq.changed hi (hfree.serve _ r)
  have hturn : (c.modifyShard i fun s => s.enqueue r).work i =
      c.modifyShard i fun s => s.serve c.clock.seconds r :=
    hq.work_own hi hlocal c.log c.flights
  have hround := round_eq hwork (fun k => by rw [hturn, hquiet.hasWork_eq_false])
    (by rw [hturn, flightTurn_of_nil hquiet.flights]; exact hquiet.idle)
  rw [settle_busy (isBusy_of_hasWork ((hwork i).mpr rfl)), hround, hturn,
    flightTurn_of_nil hquiet.flights, hquiet.settle_eq]

/-! ## A request for a key of another host -/

section Foreign

variable {call : Call} {j : Nat} {h' : Host}

/-- A call that a free host receives waits there. -/
theorem launch_free (hscripts : c.scripts = []) (hlistener : c.listener? call.address = some j)
    (hj : c.host? j = some h') (hfree : h'.shard.Free) (htimeout : 0 < h'.timeoutMs)
    (hkey : call.request.key ≠ "") (hlimit : call.request.wireSize ≤ Service.bodyLimit) :
    c.launch call = (c.modifyShard j fun s => s.enqueue call.request,
      .held j h'.shard.tickets (c.clock.millis + h'.timeoutMs)) := by
  have hreceive : c.receive j call =
      (c.modifyShard j fun s => s.enqueue call.request, .inr h'.shard.tickets) := by
    rw [receive, hj, Service.read_toHttp call hlimit]
    simp only [hfree.submit hkey]
    rw [modifyShard_congr hj (g := fun s => s.enqueue call.request) rfl]
  rw [launch, script?_eq_none hscripts, hlistener]
  simp only [hreceive, hj, Option.elim_some]
  rw [if_neg (by omega)]

variable {log : List Call} {ticket ticket' due : Nat}

theorem flightTurn_launched (hscripts : c.scripts = [])
    (hlistener : c.listener? call.address = some j) (hj : c.host? j = some h')
    (hfree : h'.shard.Free) (htimeout : 0 < h'.timeoutMs) (hkey : call.request.key ≠ "")
    (hlimit : call.request.wireSize ≤ Service.bodyLimit) (i ticket : Nat) (log : List Call) :
    (c.carrying log [⟨i, ticket, call, .launched⟩]).flightTurn =
      (c.modifyShard j fun s => s.enqueue call.request).carrying log
        [⟨i, ticket, call, .held j h'.shard.tickets (c.clock.millis + h'.timeoutMs)⟩] := by
  have hlaunch : (c.carrying log []).launch call =
      ((c.modifyShard j fun s => s.enqueue call.request).carrying log [],
        .held j h'.shard.tickets (c.clock.millis + h'.timeoutMs)) :=
    launch_free (c := c.carrying log []) hscripts hlistener hj hfree htimeout hkey hlimit
  have hunanswered : (c.modifyShard j fun s => s.enqueue call.request).reply? j
      h'.shard.tickets = none := by
    rw [reply?, host?_enqueue hj, Option.bind_some]
    exact hfree.fresh _ (Nat.le_refl _)
  have hlater : ¬ c.clock.millis + h'.timeoutMs ≤ c.clock.millis := by omega
  rw [flightTurn_carrying, followAll, follow]
  simp only [hlaunch, carrying_clock, carrying_reply?, hunanswered]
  rw [if_neg hlater]
  rfl

theorem flightTurn_answered {value : Option String}
    (hreply : c.reply? j ticket' = some (.done value))
    (hvalue : call.request.command ≠ .get → value = none) (i ticket due : Nat)
    (log : List Call) :
    (c.carrying log [⟨i, ticket, call, .held j ticket' due⟩]).flightTurn =
      (c.modifyShard i fun s => s.answer ticket (.done value)).carrying log [] := by
  rw [flightTurn_carrying, followAll, follow]
  simp only [carrying_reply?, hreply, peerReply_done call hvalue]
  rfl

theorem Quiet.work_foreign (hq : c.Quiet) {h : Host} (hi : c.host? i = some h)
    (hforeign : h.shard.ring.isLocal call.request.key = false)
    (haddress : h.shard.ring.address? (h.shard.ring.owner call.request.key) = some call.address) :
    (c.modifyShard i fun s => s.enqueue call.request).work i =
      (c.modifyShard i Shard.tick).carrying (c.log ++ [call])
        [⟨i, h.shard.tickets, call, .launched⟩] := by
  have hflights : (c.modifyShard i fun s => s.enqueue call.request).flights = [] := hq.flights
  rw [work_of_handed (host?_enqueue hi call.request) hq.scripts
    ((hq.free i h hi).work_foreign hforeign haddress), modifyShard_enqueue hi _ Shard.tick,
    hflights]
  rfl

/-- The first round: the worker hands the request on, and the call comes to the other host. -/
theorem Quiet.round_foreign (hq : c.Quiet) {h : Host} (hi : c.host? i = some h)
    (hforeign : h.shard.ring.isLocal call.request.key = false)
    (haddress : h.shard.ring.address? (h.shard.ring.owner call.request.key) = some call.address)
    (hlistener : c.listener? call.address = some j) (hj : c.host? j = some h') (hij : i ≠ j)
    (htimeout : 0 < h'.timeoutMs) (hkey : call.request.key ≠ "")
    (hlimit : call.request.wireSize ≤ Service.bodyLimit) :
    (c.modifyShard i fun s => s.enqueue call.request).round =
      ((c.modifyShard i Shard.tick).modifyShard j fun s => s.enqueue call.request).carrying
        (c.log ++ [call])
        [⟨i, h.shard.tickets, call, .held j h'.shard.tickets (c.clock.millis + h'.timeoutMs)⟩] := by
  have hticked : (c.modifyShard i Shard.tick).Quiet := hq.changed hi (hq.free i h hi).tick
  have hj' : (c.modifyShard i Shard.tick).host? j = some h' := by
    rw [host?_modifyShard_of_ne (Ne.symm hij), hj]
  have hhanded := hq.work_foreign hi hforeign haddress
  have harrived := flightTurn_launched hticked.scripts
    (by rw [listener?_modifyShard, hlistener]) hj' (hq.free j h' hj) htimeout hkey hlimit
    i h.shard.tickets (c.log ++ [call])
  have hwork := hasWork_enqueue (fun k h' hk => (hq.free k h' hk).queue) hi call.request
  have hdone : ∀ k, ((c.modifyShard i fun s => s.enqueue call.request).work i).hasWork k =
      false := by
    intro k
    rw [hhanded, carrying_hasWork, hticked.hasWork_eq_false]
  rw [round_eq hwork hdone, hhanded, harrived]
  · rfl
  · rw [hhanded, harrived]
    exact idle_modifyShard hticked.idle j fun s => s.enqueue call.request

/-- The second round: the other host executes the request, and the reply comes back. -/
theorem Quiet.settle_held (hq : c.Quiet) {h : Host} (hi : c.host? i = some h)
    (hgiven : ticket < h.shard.tickets) (hj : c.host? j = some h') (hij : i ≠ j)
    (hlocal : h'.shard.ring.isLocal call.request.key = true) (fuel : Nat) :
    ((c.modifyShard j fun s => s.enqueue call.request).carrying log
        [⟨i, ticket, call, .held j h'.shard.tickets due⟩]).settle (fuel + 1) =
      ((c.modifyShard j fun s => s.serve c.clock.seconds call.request).modifyShard i
        fun s => s.answer ticket (.done (call.request.command.finds c.clock.seconds
          h'.shard.store[call.request.key]?))).carrying log [] := by
  have hfree' := hq.free j h' hj
  have hserved : (c.modifyShard j fun s => s.serve c.clock.seconds call.request).Quiet :=
    hq.changed hj (hfree'.serve _ _)
  have hi' : (c.modifyShard j fun s => s.serve c.clock.seconds call.request).host? i = some h := by
    rw [host?_modifyShard_of_ne hij, hi]
  have hquiet : ((c.modifyShard j fun s => s.serve c.clock.seconds call.request).modifyShard i
      fun s => s.answer ticket (.done (call.request.command.finds c.clock.seconds
        h'.shard.store[call.request.key]?))).Quiet :=
    hserved.changed hi' ((hq.free i h hi).answer hgiven _)
  have hreply : (c.modifyShard j fun s => s.serve c.clock.seconds call.request).reply? j
      h'.shard.tickets = some (.done (call.request.command.finds c.clock.seconds
        h'.shard.store[call.request.key]?)) := by
    rw [reply?, host?_modifyShard_self hj, Option.bind_some]
    exact Shard.serve_reply
  have hreturned := flightTurn_answered hreply (fun hget => Command.finds_of_ne_get hget _ _)
    i ticket due log
  have hexecuted := hq.work_own hj hlocal log
    [⟨i, ticket, call, .held j h'.shard.tickets due⟩]
  have hwork : ∀ k, ((c.modifyShard j fun s => s.enqueue call.request).carrying log
      [⟨i, ticket, call, .held j h'.shard.tickets due⟩]).hasWork k = true ↔ k = j :=
    hasWork_enqueue (fun k h' hk => (hq.free k h' hk).queue) hj call.request
  have hround := round_eq hwork (fun k => by
    rw [hexecuted, carrying_hasWork, hserved.hasWork_eq_false]) (by
    rw [hexecuted, hreturned]
    exact hquiet.idle)
  rw [settle_busy (isBusy_of_hasWork ((hwork j).mpr rfl)), hround, hexecuted, hreturned]
  exact (hquiet.carrying log).settle_eq fuel

/-- A request for a key of another host comes back with what the other host has found. -/
theorem Quiet.settle_foreign (hq : c.Quiet) (call : Call) {h : Host} (hi : c.host? i = some h)
    (hforeign : h.shard.ring.isLocal call.request.key = false)
    (haddress : h.shard.ring.address? (h.shard.ring.owner call.request.key) = some call.address)
    (hlistener : c.listener? call.address = some j) (hj : c.host? j = some h') (hij : i ≠ j)
    (hlocal : h'.shard.ring.isLocal call.request.key = true) (htimeout : 0 < h'.timeoutMs)
    (hkey : call.request.key ≠ "") (hlimit : call.request.wireSize ≤ Service.bodyLimit)
    (fuel : Nat) :
    (c.modifyShard i fun s => s.enqueue call.request).settle (fuel + 2) =
      (((c.modifyShard i Shard.tick).modifyShard j
        fun s => s.serve c.clock.seconds call.request).modifyShard i
          fun s => s.answer h.shard.tickets (.done (call.request.command.finds c.clock.seconds
            h'.shard.store[call.request.key]?))).carrying (c.log ++ [call]) [] := by
  have hticked : (c.modifyShard i Shard.tick).Quiet := hq.changed hi (hq.free i h hi).tick
  have hi' : (c.modifyShard i Shard.tick).host? i = some { h with shard := h.shard.tick } :=
    host?_modifyShard_self hi _
  have hj' : (c.modifyShard i Shard.tick).host? j = some h' := by
    rw [host?_modifyShard_of_ne (Ne.symm hij), hj]
  have hwork := hasWork_enqueue (fun k h' hk => (hq.free k h' hk).queue) hi call.request
  rw [settle_busy (isBusy_of_hasWork ((hwork i).mpr rfl)),
    hq.round_foreign hi hforeign haddress hlistener hj hij htimeout hkey hlimit]
  exact hticked.settle_held hi' (Nat.lt_succ_self _) hj' hij hlocal fuel

end Foreign

end Cluster

end ClusterCache
