import ClusterCache.Proofs.Cluster.Quiet
import ClusterCache.Proofs.Ledger

/-!
# A cluster as one map

Hosts with the same list of members answer requests, whichever host is asked and in whichever way,
as one map with expiry would.  Every key lies at the host that owns it, and a request that comes
to another host is brought there by one call.
-/

namespace ClusterCache

open Std

/-- Only what the map has under the key of a request counts. -/
theorem Ledger.step_congr {m m' : Ledger} {x : Execution}
    (h : m x.request.key = m' x.request.key) :
    (m.step x).1 x.request.key = (m'.step x).1 x.request.key ∧ (m.step x).2 = (m'.step x).2 := by
  obtain ⟨now, ticket, key, command⟩ := x
  have hkey : m key = m' key := h
  cases command with
  | put value ttl => simp [step]
  | delete => simp [step]
  | get =>
      cases hm : m' key with
      | none => simp [step, hkey, hm]
      | some bound =>
          obtain ⟨value, expires⟩ := bound
          by_cases hlive : now.toNat < expires <;> simp [step, hkey, hm, hlive]

namespace Cluster

/-- How a request comes to a host: its shard is asked, by somebody who waits for some time or for
as long as it takes, or an HTTP request is sent to the host. -/
inductive Entrance where
  | direct (timeout : Option Nat)
  | http (timestamp : String) (q : Http.Request)

/-- A request that comes to a host at a reading of the clock. -/
structure Visit where
  clock : Clock
  host : Nat
  request : Request
  entrance : Entrance

inductive Answer where
  | results (rs : List Result)
  | response (r : Http.Response)
deriving DecidableEq

namespace Visit

def execution (v : Visit) : Execution := ⟨v.clock.seconds, 0, v.request⟩

/-- What comes back if the request is done and has found a value. -/
def answer (v : Visit) (value : Option String) : Answer :=
  match v.entrance with
  | .direct _ => .results [.replied (.done value)]
  | .http _ q =>
    .response (Service.send q (Service.answer .callers v.request.command (.done value)))

/-- What comes back from one map. -/
def answers : Ledger → List Visit → List Answer
  | _, [] => []
  | m, v :: vs => v.answer (m.step v.execution).2 :: answers (m.step v.execution).1 vs

/-- A visit as callers make it: the request has a key and fits into a call if there has to be one,
and who asks the shard waits for it. -/
structure Fits (c : Cluster) (v : Visit) : Prop where
  host : v.host < c.hosts.length
  key : v.request.key ≠ ""
  limit : ∀ h, c.host? v.host = some h → h.shard.ring.isLocal v.request.key = false →
    v.request.wireSize ≤ Service.bodyLimit
  entrance : match v.entrance with
    | .direct timeout => timeout ≠ some 0
    | .http _ q => Service.read q = .ask .callers v.request

end Visit

/-- Somebody makes a visit and waits for what comes back. -/
def visit (c : Cluster) (v : Visit) : Cluster × Answer :=
  let c := { c with clock := v.clock }
  match v.entrance with
  | .direct timeout =>
    let (c, results) := c.perform v.host [⟨v.request, timeout⟩]
    (c, .results results)
  | .http timestamp q =>
    let (c, response) := c.exchange v.host timestamp q
    (c, .response response)

def visits : Cluster → List Visit → Cluster × List Answer
  | c, [] => (c, [])
  | c, v :: vs =>
    let (c, answer) := c.visit v
    let (c, answers) := visits c vs
    (c, answer :: answers)

/-- The hosts of a list of members, each with its own settings but for the list.  A host listens at
the address of its member. -/
def deploy (ms : List Member) (replicas : Nat) (config : Member → Settings)
    (senders : Member → Nat) (pollMs : Member → Option Nat) (clock : Clock) : Cluster where
  hosts := ms.map fun m =>
    let s : Settings := { config m with nodeId := m.id, replicas, members := ms }
    { Host.make s s.ring (senders m) (pollMs m) with address := some m.address }
  clock := clock

/-! ## Keys at home -/

/-- Every key has a home, which is the host that owns it, and all other hosts know the way there. -/
structure Housed (c : Cluster) (home : String → Nat) : Prop where
  timeout : ∀ i h, c.host? i = some h → 0 < h.timeoutMs
  own : ∀ i h key, c.host? i = some h → (h.shard.ring.isLocal key = true ↔ i = home key)
  reach : ∀ i h key, c.host? i = some h → ∃ g address, c.host? (home key) = some g ∧
    h.shard.ring.owner key = g.shard.ring.localId ∧ g.address = some address ∧
    h.shard.ring.address? (h.shard.ring.owner key) = some address ∧
    c.listener? address = some (home key)

/-- A cluster at rest whose hosts hold the entries of a map, each at its home. -/
structure Serves (c : Cluster) (home : String → Nat) (m : Ledger) : Prop where
  quiet : c.Quiet
  housed : c.Housed home
  entries : ∀ i h key, c.host? i = some h →
    Ledger.ofStore h.shard.store key = if i = home key then m key else none

variable {c : Cluster} {home : String → Nat} {m : Ledger} {i : Nat} {h : Host}

theorem Housed.changed (hh : c.Housed home) {change : Shard → Shard}
    (hring : ∀ s, (change s).ring = s.ring) (j : Nat) : (c.modifyShard j change).Housed home := by
  -- A change of a shard that keeps the ring keeps all that matters here.
  have hsame : ∀ {k h'}, (c.modifyShard j change).host? k = some h' → ∃ h, c.host? k = some h ∧
      h'.shard.ring = h.shard.ring ∧ h'.timeoutMs = h.timeoutMs ∧ h'.address = h.address := by
    intro k h' hk
    rw [host?_modifyShard, Option.map_eq_some_iff] at hk
    obtain ⟨h, hk, rfl⟩ := hk
    refine ⟨h, hk, ?_⟩
    split_ifs
    · exact ⟨hring h.shard, rfl, rfl⟩
    · exact ⟨rfl, rfl, rfl⟩
  have hthere : ∀ {k g}, c.host? k = some g → ∃ g', (c.modifyShard j change).host? k = some g' ∧
      g'.shard.ring = g.shard.ring ∧ g'.address = g.address := by
    intro k g hk
    obtain ⟨g', hk'⟩ : ∃ g', (c.modifyShard j change).host? k = some g' := by
      rw [host?_modifyShard, hk]
      exact ⟨_, rfl⟩
    obtain ⟨x, hx, hring', _, haddress⟩ := hsame hk'
    obtain rfl : g = x := Option.some.inj (hk.symm.trans hx)
    exact ⟨g', hk', hring', haddress⟩
  constructor
  · intro i h' hi
    obtain ⟨h, hi, _, htimeout, _⟩ := hsame hi
    rw [htimeout]
    exact hh.timeout i h hi
  · intro i h' key hi
    obtain ⟨h, hi, hring', _⟩ := hsame hi
    rw [hring']
    exact hh.own i h key hi
  · intro i h' key hi
    obtain ⟨h, hi, hring', _⟩ := hsame hi
    obtain ⟨g, address, hg, howner, haddress, hknown, hlistener⟩ := hh.reach i h key hi
    obtain ⟨g', hg', hring'', haddress'⟩ := hthere hg
    refine ⟨g', address, hg', ?_, haddress'.trans haddress, ?_, ?_⟩
    · rw [hring', hring'', howner]
    · rw [hring', hknown]
    · rw [listener?_modifyShard, hlistener]

theorem Serves.changed (hs : c.Serves home m) (hi : c.host? i = some h) {change : Shard → Shard}
    (hring : ∀ s, (change s).ring = s.ring) (hstore : ∀ s, (change s).store = s.store)
    (hfree : (change h.shard).Free) : (c.modifyShard i change).Serves home m := by
  refine ⟨hs.quiet.changed hi hfree, hs.housed.changed hring i, fun k h' key hk => ?_⟩
  rw [host?_modifyShard, Option.map_eq_some_iff] at hk
  obtain ⟨g, hk, rfl⟩ := hk
  rw [← hs.entries k g key hk]
  split_ifs
  · rw [hstore]
  · rfl

theorem Serves.carrying (hs : c.Serves home m) (log : List Call) :
    (c.carrying log []).Serves home m :=
  ⟨hs.quiet.carrying log, ⟨hs.housed.timeout, hs.housed.own, hs.housed.reach⟩, hs.entries⟩

/-- A host that executes a request for a key that is at home there does to the entries what the
map does to its own. -/
theorem Serves.serve (hs : c.Serves home m) {r : Request} (hhome : c.host? (home r.key) = some h)
    (now : UInt64) :
    (c.modifyShard (home r.key) fun s => s.serve now r).Serves home (m.step ⟨now, 0, r⟩).1 := by
  refine ⟨hs.quiet.changed hhome ((hs.quiet.free _ h hhome).serve now r),
    hs.housed.changed (fun s => s.serve_ring) _, fun k h' key hk => ?_⟩
  rw [host?_modifyShard, Option.map_eq_some_iff] at hk
  obtain ⟨g, hk, rfl⟩ := hk
  have hentries := hs.entries k g key hk
  by_cases hhere : k = home r.key
  · obtain rfl : h = g := Option.some.inj (hhome.symm.trans (hhere ▸ hk))
    rw [if_pos hhere, Shard.serve_store, Ledger.ofStore_execute h.shard.store _ ⟨now, 0, r⟩]
    by_cases hkey : key = r.key
    · subst hkey
      rw [if_pos hhere] at hentries ⊢
      exact (Ledger.step_congr hentries).1
    · rw [Ledger.step_of_ne _ hkey, Ledger.step_of_ne m hkey, hentries]
  · rw [if_neg hhere, hentries]
    by_cases hkey : key = r.key
    · rw [hkey, if_neg hhere, if_neg hhere]
    · rw [Ledger.step_of_ne m hkey]

/-! ## One visit -/

theorem await_settled {α : Type} (ready : Cluster → Option α) {deadline : Option Nat} {a : α}
    (hnone : ready c = none) (hlater : deadline.any (· ≤ c.clock.millis) = false)
    (hbusy : c.isBusy = true) (hready : ready (c.settle patience) = some a) (fuel : Nat) :
    c.await ready deadline (fuel + 2) = (c.settle patience, some a) := by
  rw [await, hnone]
  simp only [hlater, hbusy, if_true, Bool.false_eq_true, if_false]
  rw [await, hready]

/-- A request that has come to a free host is replied to once everything has been done. -/
theorem Quiet.awaitReply (hq : c.Quiet) (hi : c.host? i = some h) {r : Request}
    {timeout : Option Nat} (htimeout : timeout ≠ some 0) {reply : Reply} {d : Cluster}
    (hsettle : (c.modifyShard i fun s => s.enqueue r).settle patience = d)
    (hreply : d.reply? i h.shard.tickets = some reply) :
    (c.modifyShard i fun s => s.enqueue r).awaitReply i h.shard.tickets timeout = (d, reply) := by
  have hwork := hasWork_enqueue (fun k h' hk => (hq.free k h' hk).queue) hi r
  -- The reply is not there yet, and there is time to wait, so that the cluster is left to work.
  have hnone : (c.modifyShard i fun s => s.enqueue r).reply? i h.shard.tickets = none := by
    rw [reply?, host?_enqueue hi, Option.bind_some]
    exact (hq.free i h hi).fresh _ (Nat.le_refl _)
  have hlater : (timeout.map ((c.modifyShard i fun s => s.enqueue r).clock.millis + ·)).any
      (· ≤ (c.modifyShard i fun s => s.enqueue r).clock.millis) = false := by
    cases timeout with
    | none => rfl
    | some millis =>
        have hpos : millis ≠ 0 := fun hzero => htimeout (congrArg some hzero)
        simp only [Option.map_some, Option.any_some, decide_eq_false_iff_not]
        omega
  have hawait := await_settled (fun d => d.reply? i h.shard.tickets) hnone hlater
    (isBusy_of_hasWork ((hwork i).mpr rfl)) (by rw [hsettle]; exact hreply) 999998
  have hpatience : patience = 999998 + 2 := rfl
  rw [hsettle, ← hpatience] at hawait
  rw [Cluster.awaitReply, hawait]
  rfl

/-- A request that came to host `i` has been executed by host `j`, which owns its key, and by nobody
else.  It was brought there by one call, and by none if it had come there. -/
structure HandledBy (c c' : Cluster) (i : Nat) (x : Execution) (j : Nat) (g g' : Host) : Prop where
  before : c.host? j = some g
  after : c'.host? j = some g'
  own : g.shard.ring.isLocal x.request.key = true
  executed : g'.shard.store = (g.shard.store.execute g.shard.counters x.now x.request).store
  others : ∀ k h, k ≠ j → c.host? k = some h →
    ∃ h', c'.host? k = some h' ∧ h'.shard.store = h.shard.store
  calls : i = j ∧ c'.log = c.log ∨ i ≠ j ∧ ∃ address, g.address = some address ∧
    c.listener? address = some j ∧ c'.log = c.log ++ [⟨address, x.request⟩]

def Handled (c c' : Cluster) (i : Nat) (x : Execution) : Prop :=
  c'.hosts.length = c.hosts.length ∧ ∃ j g g', c.HandledBy c' i x j g g'

theorem Serves.finds_eq (hs : c.Serves home m) {r : Request} (hhome : c.host? (home r.key) = some h)
    (now : UInt64) :
    r.command.finds now h.shard.store[r.key]? = (m.step ⟨now, 0, r⟩).2 := by
  have hentries := hs.entries _ h r.key hhome
  rw [if_pos rfl] at hentries
  rw [Ledger.finds_eq h.shard.store ⟨now, 0, r⟩]
  exact (Ledger.step_congr hentries).2

theorem Serves.settle_own (hs : c.Serves home m) {r : Request}
    (hi : c.host? (home r.key) = some h) (fuel : Nat) :
    ∃ d, (c.modifyShard (home r.key) fun s => s.enqueue r).settle (fuel + 1) = d ∧
      d.Serves home (m.step ⟨c.clock.seconds, 0, r⟩).1 ∧
      d.reply? (home r.key) h.shard.tickets = some (.done (m.step ⟨c.clock.seconds, 0, r⟩).2) ∧
      c.Handled d (home r.key) ⟨c.clock.seconds, 0, r⟩ := by
  have hlocal := (hs.housed.own _ h r.key hi).mpr rfl
  have hhost : (c.modifyShard (home r.key) fun s => s.serve c.clock.seconds r).host? (home r.key) =
      some { h with shard := h.shard.serve c.clock.seconds r } := host?_modifyShard_self hi _
  refine ⟨_, hs.quiet.settle_own hi hlocal fuel, hs.serve hi _, ?_, ?_⟩
  · rw [reply?, hhost, Option.bind_some, ← hs.finds_eq hi]
    exact Shard.serve_reply
  · refine ⟨length_modifyShard _ _ _, home r.key, h, _, hi, hhost, hlocal, Shard.serve_store,
      fun k g hk hg => ?_, Or.inl ⟨rfl, rfl⟩⟩
    exact ⟨g, by rw [host?_modifyShard_of_ne hk, hg], rfl⟩

/-- After a host has taken a request, another has executed it and the first has the reply, only the
store of the second is another one. -/
theorem store_of_exchange {j : Nat} (haway : i ≠ j) (now : UInt64) (r : Request) (ticket : Nat)
    (reply : Reply) {k : Nat} (hk : c.host? k = some h) :
    ∃ h', (((c.modifyShard i Shard.tick).modifyShard j fun s => s.serve now r).modifyShard i
        fun s => s.answer ticket reply).host? k = some h' ∧
      h'.shard.store = if k = j then (h.shard.serve now r).store else h.shard.store := by
  rw [host?_modifyShard, host?_modifyShard, host?_modifyShard, hk]
  refine ⟨_, rfl, ?_⟩
  by_cases hki : k = i
  · subst hki
    simp [haway]
  · by_cases hhere : k = j
    · simp [hhere, Ne.symm haway]
    · simp [hhere, hki]

theorem Serves.settle_foreign (hs : c.Serves home m) {r : Request} (hi : c.host? i = some h)
    (haway : i ≠ home r.key) (hkey : r.key ≠ "") (hlimit : r.wireSize ≤ Service.bodyLimit)
    (fuel : Nat) :
    ∃ d, (c.modifyShard i fun s => s.enqueue r).settle (fuel + 2) = d ∧
      d.Serves home (m.step ⟨c.clock.seconds, 0, r⟩).1 ∧
      d.reply? i h.shard.tickets = some (.done (m.step ⟨c.clock.seconds, 0, r⟩).2) ∧
      c.Handled d i ⟨c.clock.seconds, 0, r⟩ := by
  obtain ⟨g, address, hg, howner, haddress, hknown, hlistener⟩ := hs.housed.reach i h r.key hi
  have hforeign : h.shard.ring.isLocal r.key = false := by
    rw [← Bool.not_eq_true, hs.housed.own i h r.key hi]
    exact haway
  have hlocal := (hs.housed.own _ g r.key hg).mpr rfl
  have hfree := hs.quiet.free i h hi
  have hsettle := hs.quiet.settle_foreign ⟨address, r⟩ hi hforeign hknown hlistener hg haway
    hlocal (hs.housed.timeout _ g hg) hkey hlimit fuel
  -- The three changes, one after the other: the first and the last leave the entries alone.
  have hticked := hs.changed hi (fun _ => Shard.tick_ring) (fun _ => Shard.tick_store) hfree.tick
  have hg' : (c.modifyShard i Shard.tick).host? (home r.key) = some g := by
    rw [host?_modifyShard_of_ne (Ne.symm haway), hg]
  have hserved := hticked.serve hg' c.clock.seconds
  have hi' : ((c.modifyShard i Shard.tick).modifyShard (home r.key)
      fun s => s.serve c.clock.seconds r).host? i = some { h with shard := h.shard.tick } := by
    rw [host?_modifyShard_of_ne haway, host?_modifyShard_self hi]
  have hanswered := fun reply => hserved.changed hi' (fun s => s.answer_ring h.shard.tickets reply)
    (fun s => s.answer_store h.shard.tickets reply)
    (hfree.tick.answer (Nat.lt_succ_self h.shard.tickets) reply)
  refine ⟨_, hsettle, (hanswered _).carrying _, ?_, ?_⟩
  · rw [carrying_reply?, reply?, host?_modifyShard_self hi', Option.bind_some, ← hs.finds_eq hg]
    exact ExtTreeMap.getElem?_insert_self
  · have hstores := fun k x (hk : c.host? k = some x) => store_of_exchange haway c.clock.seconds r
      h.shard.tickets (.done (r.command.finds c.clock.seconds g.shard.store[r.key]?)) hk
    obtain ⟨g', hg'', hstore⟩ := hstores _ g hg
    rw [if_pos rfl, Shard.serve_store] at hstore
    refine ⟨?_, home r.key, g, g', hg, hg'', hlocal, hstore, fun k x hk hx => ?_,
      Or.inr ⟨haway, address, haddress, hlistener, rfl⟩⟩
    · simp only [carrying_hosts, length_modifyShard]
    · obtain ⟨x', hx', hsame⟩ := hstores k x hx
      exact ⟨x', hx', by rw [hsame, if_neg hk]⟩

/-- A request that comes to a host is executed at the home of its key. -/
theorem Serves.settle (hs : c.Serves home m) {r : Request} (hi : c.host? i = some h)
    (hkey : r.key ≠ "")
    (hlimit : h.shard.ring.isLocal r.key = false → r.wireSize ≤ Service.bodyLimit) :
    ∃ d, (c.modifyShard i fun s => s.enqueue r).settle patience = d ∧
      d.Serves home (m.step ⟨c.clock.seconds, 0, r⟩).1 ∧
      d.reply? i h.shard.tickets = some (.done (m.step ⟨c.clock.seconds, 0, r⟩).2) ∧
      c.Handled d i ⟨c.clock.seconds, 0, r⟩ := by
  by_cases haway : i = home r.key
  · subst haway
    exact hs.settle_own hi 999999
  · refine hs.settle_foreign hi haway hkey (hlimit ?_) 999998
    rwa [← Bool.not_eq_true, hs.housed.own i h r.key hi]

theorem Serves.at (hs : c.Serves home m) (clock : Clock) :
    ({ c with clock } : Cluster).Serves home m :=
  ⟨⟨hs.quiet.flights, hs.quiet.scripts, hs.quiet.free, hs.quiet.idle⟩,
    ⟨hs.housed.timeout, hs.housed.own, hs.housed.reach⟩, hs.entries⟩

theorem Handled.of_at {d : Cluster} {x : Execution} {clock : Clock}
    (hd : ({ c with clock } : Cluster).Handled d i x) : c.Handled d i x := by
  obtain ⟨hlength, j, g, g', hby⟩ := hd
  exact ⟨hlength, j, g, g', hby.before, hby.after, hby.own, hby.executed, hby.others, hby.calls⟩

/-- One visit to a cluster is one step of the map. -/
theorem Serves.visit (hs : c.Serves home m) {v : Visit} (hv : v.Fits c) :
    ∃ d, c.visit v = (d, v.answer (m.step v.execution).2) ∧
      d.Serves home (m.step v.execution).1 ∧ c.Handled d v.host v.execution := by
  obtain ⟨h, hi⟩ := exists_host? hv.host
  have hs' := hs.at v.clock
  have hi' : ({ c with clock := v.clock } : Cluster).host? v.host = some h := hi
  obtain ⟨d, hsettle, hserves, hreply, hhandled⟩ := hs'.settle hi' hv.key (hv.limit h hi)
  refine ⟨d, ?_, hserves, hhandled.of_at⟩
  have hsubmit : ({ c with clock := v.clock } : Cluster).submit v.host v.request =
      ({ c with clock := v.clock }.modifyShard v.host fun s => s.enqueue v.request,
        .ok h.shard.tickets) := by
    rw [submit, hi']
    simp only [(hs'.quiet.free _ h hi').submit hv.key]
    rw [modifyShard_congr hi' (g := fun s => s.enqueue v.request) rfl]
  have hentrance := hv.entrance
  cases hway : v.entrance with
  | direct timeout =>
      rw [hway] at hentrance
      have hawait := hs'.quiet.awaitReply hi' hentrance hsettle hreply
      simp only [Cluster.visit, hway, perform, submitAll, hsubmit, awaitAll, hawait, Visit.answer]
      rfl
  | http timestamp q =>
      rw [hway] at hentrance
      have hpos : some h.timeoutMs ≠ some 0 := by
        have htimeout := hs.housed.timeout _ h hi
        simp only [ne_eq, Option.some.injEq]
        omega
      have hawait := hs'.quiet.awaitReply hi' hpos hsettle hreply
      simp only [Cluster.visit, hway, exchange, hi', hentrance, hsubmit, hawait, Visit.answer]
      rfl

/-! ## Many visits -/

theorem Visit.Fits.kept {d : Cluster} {v : Visit} (hv : v.Fits c) (hc : c.Housed home)
    (hd : d.Housed home) (hlength : d.hosts.length = c.hosts.length) : v.Fits d := by
  refine ⟨hlength ▸ hv.host, hv.key, fun h hi hforeign => ?_, hv.entrance⟩
  obtain ⟨g, hg⟩ := exists_host? hv.host
  refine hv.limit g hg ?_
  rw [← Bool.not_eq_true, hc.own _ g _ hg, ← hd.own _ h _ hi, hforeign]
  exact Bool.false_ne_true

theorem Serves.visits (hs : c.Serves home m) {vs : List Visit} (hvs : ∀ v ∈ vs, v.Fits c) :
    ∃ d, c.visits vs = (d, Visit.answers m vs) ∧ d.hosts.length = c.hosts.length ∧
      d.Serves home ((vs.map Visit.execution).foldl (fun m x => (m.step x).1) m) := by
  induction vs generalizing c m with
  | nil => exact ⟨c, rfl, rfl, hs⟩
  | cons v vs ih =>
      obtain ⟨b, hvisit, hserves, hlength, _⟩ := hs.visit (hvs v List.mem_cons_self)
      obtain ⟨d, hvisits, hlength', hserves'⟩ := ih hserves fun w hw =>
        (hvs w (List.mem_cons_of_mem v hw)).kept hs.housed hserves.housed hlength
      refine ⟨d, ?_, hlength'.trans hlength, hserves'⟩
      rw [Cluster.visits, hvisit]
      simp only [hvisits]
      rfl

/-! ## The cluster of a list of members -/

section Deploy

variable {ms : List Member} {replicas : Nat} {config : Member → Settings}
  {senders : Member → Nat} {pollMs : Member → Option Nat} {clock : Clock}

/-- A host that is deployed, and the member it is for. -/
theorem host?_deploy (hi : (deploy ms replicas config senders pollMs clock).host? i = some h) :
    ∃ m, ms[i]? = some m ∧ h.shard.ring = Ring.ofMembers m.id replicas ms ∧
      h.address = some m.address ∧ h.timeoutMs = (config m).timeoutMs ∧ h.background = .idle ∧
      h.shard.Free ∧ h.shard.store = ∅ := by
  rw [host?, deploy, List.getElem?_map, Option.map_eq_some_iff] at hi
  obtain ⟨m, hm, rfl⟩ := hi
  refine ⟨m, hm, ?_, rfl, rfl, rfl, ⟨rfl, rfl, ?_, fun t _ => ExtTreeMap.getElem?_empty⟩, rfl⟩
  · exact Settings.ring_eq_ofMembers _ (List.mem_of_getElem? hm) rfl
  · exact Nat.lt_of_lt_of_le Nat.zero_lt_one (Nat.le_max_left _ _)

theorem exists_host?_deploy {m : Member} (hm : ms[i]? = some m) :
    ∃ h, (deploy ms replicas config senders pollMs clock).host? i = some h := by
  rw [host?, deploy, List.getElem?_map, hm]
  exact ⟨_, rfl⟩

theorem quiet_deploy : (deploy ms replicas config senders pollMs clock).Quiet := by
  refine ⟨rfl, rfl, fun i h hi => ?_, fun i h hi => ?_⟩
  · obtain ⟨_, _, _, _, _, _, hfree, _⟩ := host?_deploy hi
    exact hfree
  · obtain ⟨_, _, _, _, _, hidle, _⟩ := host?_deploy hi
    exact hidle

/-- Members that differ in something are found in one place each. -/
theorem eq_of_getElem?_members {f : Member → String} (hnodup : (ms.map f).Nodup) {k : Nat}
    {m m' : Member} (hi : ms[i]? = some m) (hk : ms[k]? = some m') (heq : f m = f m') : i = k := by
  have hlt : i < (ms.map f).length := by
    rw [List.length_map]
    exact (List.getElem?_eq_some_iff.mp hi).1
  refine (List.getElem?_inj hlt hnodup).mp ?_
  rw [List.getElem?_map, List.getElem?_map, hi, hk, Option.map_some, Option.map_some, heq]

theorem exists_home (hids : (ms.map (·.id)).Nodup) (haddresses : (ms.map (·.address)).Nodup)
    (hlisted : ∀ m ∈ ms, m.address ≠ "") (htimeout : ∀ m ∈ ms, 0 < (config m).timeoutMs) :
    ∃ home, (deploy ms replicas config senders pollMs clock).Housed home := by
  -- The home of a key is the place of its owner in the list.
  have howner : ∀ key, ∃ k : Nat, ms ≠ [] → ∃ m : Member, ms[k]? = some m ∧
      ∀ localId, (Ring.ofMembers localId replicas ms).owner key = m.id := by
    intro key
    by_cases hne : ms = []
    · exact ⟨0, absurd hne⟩
    · obtain ⟨m, hm, howner⟩ := Ring.owner_ofMembers hne key
      obtain ⟨k, hk⟩ := List.getElem?_of_mem hm
      exact ⟨k, fun _ => ⟨m, hk, howner⟩⟩
  choose home hhome using howner
  refine ⟨home, fun i h hi => ?_, fun i h key hi => ?_, fun i h key hi => ?_⟩
  · obtain ⟨m, hm, _, _, heq, _⟩ := host?_deploy hi
    rw [heq]
    exact htimeout m (List.mem_of_getElem? hm)
  · obtain ⟨m, hm, hring, _⟩ := host?_deploy hi
    obtain ⟨m', hm', howner⟩ := hhome key (List.ne_nil_of_mem (List.mem_of_getElem? hm))
    rw [Ring.isLocal, decide_eq_true_iff, hring, howner, Ring.ofMembers_localId]
    constructor
    · exact fun hid => eq_of_getElem?_members hids hm hm' hid.symm
    · rintro rfl
      exact congrArg Member.id (Option.some.inj (hm'.symm.trans hm))
  · obtain ⟨m, hm, hring, _⟩ := host?_deploy hi
    obtain ⟨m', hm', howner⟩ := hhome key (List.ne_nil_of_mem (List.mem_of_getElem? hm))
    have hmem := List.mem_of_getElem? hm'
    obtain ⟨g, hg⟩ : ∃ g, (deploy ms replicas config senders pollMs clock).host? (home key) =
        some g := exists_host?_deploy hm'
    obtain ⟨x, hx, hring', haddress, _⟩ := host?_deploy hg
    obtain rfl : m' = x := Option.some.inj (hm'.symm.trans hx)
    refine ⟨g, m'.address, hg, ?_, haddress, ?_, ?_⟩
    · rw [hring, howner, hring', Ring.ofMembers_localId]
    · rw [hring, howner, Ring.address?_eq_some]
      exact ⟨Ring.members_ofMembers hids hmem, hlisted m' hmem⟩
    · refine listener?_eq_some hg haddress fun j g' hj hsame => ?_
      obtain ⟨x, hx, _, haddress', _⟩ := host?_deploy hj
      rw [haddress'] at hsame
      exact eq_of_getElem?_members haddresses hx hm' (Option.some.inj hsame)

theorem serves_deploy {home : String → Nat}
    (hhome : (deploy ms replicas config senders pollMs clock).Housed home) :
    (deploy ms replicas config senders pollMs clock).Serves home Ledger.empty := by
  refine ⟨quiet_deploy, hhome, fun i h key hi => ?_⟩
  obtain ⟨_, _, _, _, _, _, _, hstore⟩ := host?_deploy hi
  simp [Ledger.ofStore, hstore, Ledger.empty]

end Deploy

/-- Every key that is stored anywhere is stored by its owner alone. -/
def Placed (c : Cluster) : Prop :=
  ∀ i h key, c.host? i = some h → key ∈ h.shard.store → h.shard.ring.isLocal key = true ∧
    ∀ j g, c.host? j = some g → g.shard.ring.owner key = h.shard.ring.localId ∧
      (g.shard.ring.isLocal key = true ∨ key ∈ g.shard.store → j = i)

theorem Serves.eq_home (hs : c.Serves home m) {key : String} (hi : c.host? i = some h)
    (hkey : key ∈ h.shard.store) : i = home key := by
  by_contra haway
  have hentries := hs.entries i h key hi
  rw [if_neg haway, Ledger.ofStore, Option.map_eq_none_iff] at hentries
  exact absurd hkey (by rw [← ExtTreeMap.isSome_getElem?_iff_mem, hentries]; decide)

theorem Serves.placed (hs : c.Serves home m) : c.Placed := by
  intro i h key hi hkey
  obtain rfl := hs.eq_home hi hkey
  refine ⟨(hs.housed.own _ h key hi).mpr rfl, fun j g hj => ⟨?_, ?_⟩⟩
  · obtain ⟨x, _, hx, howner, _⟩ := hs.housed.reach j g key hj
    rw [howner, Option.some.inj (hi.symm.trans hx)]
  · rintro (hlocal | hstored)
    · exact (hs.housed.own j g key hj).mp hlocal
    · exact hs.eq_home hj hstored

/-- What the map holds is what the hosts hold, if there is a host at all. -/
theorem Serves.bound_iff (hs : c.Serves home m) {key : String} {bound : String × Nat}
    (hsome : m key = some bound → 0 < c.hosts.length) :
    m key = some bound ↔
      ∃ j g, c.host? j = some g ∧ Ledger.ofStore g.shard.store key = some bound := by
  constructor
  · intro hbound
    obtain ⟨h, hfirst⟩ := exists_host? (hsome hbound)
    obtain ⟨g, _, hg, _⟩ := hs.housed.reach 0 h key hfirst
    exact ⟨home key, g, hg, by rw [hs.entries _ g key hg, if_pos rfl, hbound]⟩
  · rintro ⟨j, g, hj, hbound⟩
    rw [hs.entries j g key hj] at hbound
    split_ifs at hbound
    exact hbound

/-- Whatever is asked of the hosts of a list of members, whichever host is asked and in whichever
way, is answered as one map with expiry answers it.  After every visit each stored key is stored
by its owner alone, and the next visit is brought to the owner by one call at most. -/
theorem one_map (ms : List Member) (replicas : Nat) (config : Member → Settings)
    (hids : (ms.map (·.id)).Nodup) (haddresses : (ms.map (·.address)).Nodup)
    (hlisted : ∀ m ∈ ms, m.address ≠ "") (htimeout : ∀ m ∈ ms, 0 < (config m).timeoutMs)
    (senders : Member → Nat) (pollMs : Member → Option Nat) (clock : Clock) {vs : List Visit}
    (hvs : ∀ v ∈ vs, v.Fits (deploy ms replicas config senders pollMs clock)) :
    let start := deploy ms replicas config senders pollMs clock
    let c := (start.visits vs).1
    (start.visits vs).2 = Visit.answers Ledger.empty vs ∧ c.Placed ∧
      (∀ key bound, Ledger.after (vs.map Visit.execution) key = some bound ↔
        ∃ i h, c.host? i = some h ∧ Ledger.ofStore h.shard.store key = some bound) ∧
      ∀ v, v.Fits start → c.Handled (c.visit v).1 v.host v.execution := by
  intro start c
  obtain ⟨home, hhome⟩ : ∃ home, start.Housed home :=
    exists_home hids haddresses hlisted htimeout
  obtain ⟨d, hvisits, hlength, hserves⟩ := (serves_deploy hhome).visits hvs
  have hc : c = d := congrArg Prod.fst hvisits
  rw [hc]
  refine ⟨congrArg Prod.snd hvisits, hserves.placed, fun key bound => ?_, fun v hv => ?_⟩
  · rw [Ledger.after]
    refine hserves.bound_iff fun hbound => ?_
    cases vs with
    | nil => cases hbound
    | cons v vs =>
        rw [hlength]
        exact Nat.zero_lt_of_lt (hvs v List.mem_cons_self).host
  · obtain ⟨b, hvisit, _, hhandled⟩ := hserves.visit (hv.kept hhome hserves.housed hlength)
    rwa [hvisit]

/-- An empty value is put at one of two hosts and read at both until it has expired. -/
def readings : List Visit :=
  [⟨⟨5, 0⟩, 0, ⟨"k", .put "" 10⟩, .direct none⟩,
    ⟨⟨6, 0⟩, 1, ⟨"k", .get⟩, .http "" { method := "GET", target := "/cache?key=k" }⟩,
    ⟨⟨14, 0⟩, 0, ⟨"k", .get⟩, .direct (some 1)⟩,
    ⟨⟨15, 0⟩, 1, ⟨"k", .get⟩, .direct none⟩]

theorem one_map_of_two :
    let start := deploy [⟨"a", "h:1"⟩, ⟨"b", "h:2"⟩] 1 (fun _ => {}) (fun _ => 1) (fun _ => none)
      ⟨0, 0⟩
    let c := (start.visits readings).1
    (start.visits readings).2 = [.results [.replied (.done none)],
      .response (.ofMessage 200 ({ value := some "" } : GetAnswer)),
      .results [.replied (.done (some ""))], .results [.replied (.done none)]] ∧
      c.Placed ∧ c.Handled (c.visit readings[0]).1 0 ⟨5, 0, ⟨"k", .put "" 10⟩⟩ := by
  intro start c
  have hread : Service.read { method := "GET", target := "/cache?key=k" } =
      .ask .callers ⟨"k", .get⟩ := by decide +kernel
  have hlimit : ∀ v ∈ readings, v.request.wireSize ≤ Service.bodyLimit := by decide +kernel
  have hfits : ∀ v ∈ readings, v.Fits start := by
    intro v hv
    have hlimit := hlimit v hv
    simp only [readings, List.mem_cons, List.not_mem_nil, or_false] at hv
    obtain rfl | rfl | rfl | rfl := hv
    · exact ⟨by decide, by decide, fun _ _ _ => hlimit, nofun⟩
    · exact ⟨by decide, by decide, fun _ _ _ => hlimit, hread⟩
    · exact ⟨by decide, by decide, fun _ _ _ => hlimit, by decide⟩
    · exact ⟨by decide, by decide, fun _ _ _ => hlimit, nofun⟩
  obtain ⟨hanswers, hplaced, _, hhandled⟩ := one_map _ 1 (fun _ => {}) (by decide) (by decide)
    (by decide) (by decide) (fun _ => 1) (fun _ => none) ⟨0, 0⟩ hfits
  exact ⟨hanswers, hplaced, hhandled _ (hfits _ List.mem_cons_self)⟩

end Cluster

end ClusterCache
