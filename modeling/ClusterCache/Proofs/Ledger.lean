import ClusterCache.Proofs.Shard
import Mathlib.Algebra.Group.Nat.Defs
import Mathlib.Data.List.Induction
import Mathlib.Logic.Function.Basic

/-!
# A map with expiry

What a client may think a node is: a map from keys to values, each with the second from which it
no longer counts, on which requests are executed one after the other.  A store does to its
entries what such a map does to its values.
-/

namespace ClusterCache

/-- Values with the seconds at which they expire. -/
abbrev Ledger := String → Option (String × Nat)

/-- The second at which what is put at a time expires. -/
def deadline (now ttl : UInt64) : Nat := min (now.toNat + ttl.toNat) (2 ^ 64 - 1)

namespace Ledger

/-- The map without values. -/
def empty : Ledger := fun _ => none

/-- Executes a request: the map after it and the value it finds. -/
def step (m : Ledger) (x : Execution) : Ledger × Option String :=
  match x.request.command with
  | .put value ttl =>
    (Function.update m x.request.key (some (value, deadline x.now ttl)), none)
  | .get =>
    match m x.request.key with
    | none => (m, none)
    | some (value, expires) =>
      if x.now.toNat < expires then (m, some value)
      else (Function.update m x.request.key none, none)
  | .delete => (Function.update m x.request.key none, none)

/-- The map after executions in order. -/
def after (xs : List Execution) : Ledger := xs.foldl (fun m x => (m.step x).1) empty

@[simp] theorem after_nil : after [] = empty := rfl

theorem after_concat (xs : List Execution) (x : Execution) :
    after (xs ++ [x]) = ((after xs).step x).1 := by
  simp [after]

theorem step_of_ne (m : Ledger) {x : Execution} {key : String} (h : key ≠ x.request.key) :
    (m.step x).1 key = m key := by
  rw [step]
  split
  · exact Function.update_of_ne h _ _
  · split
    · rfl
    · split
      · rfl
      · exact Function.update_of_ne h _ _
  · exact Function.update_of_ne h _ _

theorem step_get (m : Ledger) {x : Execution} (hget : x.request.command = .get)
    (value : String) :
    (m.step x).2 = some value ↔
      ∃ expires, m x.request.key = some (value, expires) ∧ x.now.toNat < expires := by
  rw [step, hget]
  cases hm : m x.request.key with
  | none => simp
  | some bound =>
      obtain ⟨v, expires⟩ := bound
      by_cases hlive : x.now.toNat < expires
      · simp only [hlive, if_true, Option.some.injEq, Prod.mk.injEq]
        constructor
        · rintro rfl
          exact ⟨expires, ⟨rfl, rfl⟩, hlive⟩
        · rintro ⟨_, ⟨rfl, _⟩, _⟩
          rfl
      · simp only [hlive, if_false, reduceCtorEq, false_iff, Option.some.injEq,
          Prod.mk.injEq, not_exists, not_and]
        rintro t ⟨_, rfl⟩
        exact hlive

theorem step_of_ne_get (m : Ledger) {x : Execution} (h : x.request.command ≠ .get) :
    (m.step x).2 = none := by
  rw [step]
  cases hc : x.request.command with
  | get => exact absurd hc h
  | put value ttl => rfl
  | delete => rfl

/-- The last put of a key gave it this value and this deadline, and since then the key has only
been read, and in time. -/
def Binds (xs : List Execution) (key value : String) (expires : Nat) : Prop :=
  ∃ before x ttl rest, xs = before ++ x :: rest ∧ x.request = ⟨key, .put value ttl⟩ ∧
    expires = deadline x.now ttl ∧
    ∀ y ∈ rest, y.request.key = key → y.request.command = .get ∧ y.now.toNat < expires

theorem not_binds_nil (key value : String) (expires : Nat) : ¬ Binds [] key value expires := by
  rintro ⟨before, x, ttl, rest, h, _⟩
  simp at h

/-- The last execution either is the put itself or comes after it. -/
theorem binds_concat_iff {xs : List Execution} {y : Execution} {key value : String}
    {expires : Nat} :
    Binds (xs ++ [y]) key value expires ↔
      (∃ ttl, y.request = ⟨key, .put value ttl⟩ ∧ expires = deadline y.now ttl) ∨
      (Binds xs key value expires ∧
        (y.request.key = key → y.request.command = .get ∧ y.now.toNat < expires)) := by
  constructor
  · rintro ⟨before, x, ttl, rest, hxs, hx, hexpires, hrest⟩
    rcases List.eq_nil_or_concat rest with rfl | ⟨rest, z, rfl⟩
    · obtain ⟨rfl, hyx⟩ := List.append_inj' hxs rfl
      obtain rfl : y = x := by simpa using hyx
      exact Or.inl ⟨ttl, hx, hexpires⟩
    · rw [List.concat_eq_append, ← List.cons_append, ← List.append_assoc] at hxs
      obtain ⟨rfl, hyz⟩ := List.append_inj' hxs rfl
      obtain rfl : y = z := by simpa using hyz
      refine Or.inr ⟨⟨before, x, ttl, rest, rfl, hx, hexpires, fun w hw => ?_⟩, ?_⟩
      · exact hrest w (by simp [hw])
      · exact hrest y (by simp)
  · rintro (⟨ttl, hy, hexpires⟩ | ⟨⟨before, x, ttl, rest, rfl, hx, hexpires, hrest⟩, hy⟩)
    · exact ⟨xs, y, ttl, [], rfl, hy, hexpires, by simp⟩
    · refine ⟨before, x, ttl, rest ++ [y], by simp, hx, hexpires, fun w hw => ?_⟩
      rcases List.mem_append.mp hw with hw | hw
      · exact hrest w hw
      · obtain rfl := List.mem_singleton.mp hw
        exact hy

/-- What the map holds is what was put last and not given up since. -/
theorem after_eq_some_iff (xs : List Execution) (key value : String) (expires : Nat) :
    after xs key = some (value, expires) ↔ Binds xs key value expires := by
  induction xs using List.reverseRecOn with
  | nil => simp [empty, not_binds_nil]
  | append_singleton xs y ih =>
      rw [after_concat, binds_concat_iff]
      by_cases hkey : key = y.request.key
      · obtain ⟨now, ticket, k, command⟩ := y
        obtain rfl : key = k := hkey
        cases command with
        | put v ttl =>
            simp only [step, Function.update_self, Option.some.injEq, Prod.mk.injEq,
              Request.mk.injEq, true_and, Command.put.injEq, reduceCtorEq, false_and,
              forall_const, and_false, or_false]
            constructor
            · rintro ⟨rfl, rfl⟩
              exact ⟨ttl, ⟨rfl, rfl⟩, rfl⟩
            · rintro ⟨_, ⟨rfl, rfl⟩, rfl⟩
              exact ⟨rfl, rfl⟩
        | delete => simp [step]
        | get =>
            simp only [step, Request.mk.injEq, reduceCtorEq, and_false, false_and, exists_const,
              false_or, forall_const, true_and]
            rw [← ih]
            cases hm : after xs key with
            | none => simp [hm]
            | some bound =>
                obtain ⟨v, t⟩ := bound
                by_cases hlive : now.toNat < t
                · simp only [hlive, if_true, hm, Option.some.injEq, Prod.mk.injEq]
                  constructor
                  · rintro ⟨rfl, rfl⟩
                    exact ⟨⟨rfl, rfl⟩, hlive⟩
                  · exact fun h => h.1
                · simp only [hlive, if_false, Function.update_self, reduceCtorEq, false_iff,
                    Option.some.injEq, Prod.mk.injEq]
                  rintro ⟨⟨_, rfl⟩, h⟩
                  exact hlive h
      · rw [step_of_ne _ hkey, ih]
        constructor
        · exact fun h => Or.inr ⟨h, fun hy => absurd hy.symm hkey⟩
        · rintro (⟨ttl, hy, _⟩ | ⟨h, _⟩)
          · exact absurd (by rw [hy]) hkey
          · exact h

/-- What a store holds, less the seconds at which its entries were made. -/
def ofStore (s : Store) : Ledger := fun key => s[key]?.map fun e => (e.value, e.expires.toNat)

theorem isExpired_iff (e : Entry) (now : UInt64) :
    e.isExpired now = true ↔ e.expires.toNat ≤ now.toNat := by
  rw [Entry.isExpired, decide_eq_true_iff, UInt64.le_iff_toNat_le]

theorem toNat_expires_make (value : String) (now ttl : UInt64) :
    (Entry.make value now ttl).expires.toNat = deadline now ttl := by
  have hlt : min (now.toNat + ttl.toNat) (UInt64.size - 1) < UInt64.size := by
    have hsize : 0 < UInt64.size := by decide
    omega
  exact UInt64.toNat_ofNat_of_lt hlt

theorem lt_expires_iff (e : Entry) (now : UInt64) :
    now.toNat < e.expires.toNat ↔ e.isExpired now = false := by
  rw [← Nat.not_le, ← isExpired_iff, Bool.not_eq_true]

theorem ofStore_leaves (x : Execution) (s : Store) :
    (x.request.command.leaves x.now s[x.request.key]?).map (fun e => (e.value, e.expires.toNat)) =
      ((ofStore s).step x).1 x.request.key := by
  obtain ⟨now, ticket, key, command⟩ := x
  cases command with
  | put value ttl => simp [Command.leaves, step, Entry.make, ← toNat_expires_make value]
  | delete => simp [Command.leaves, step]
  | get =>
      cases hs : s[key]? with
      | none => simp [Command.leaves, step, ofStore, hs]
      | some e =>
          cases he : e.isExpired now with
          | true =>
              rw [Command.leaves_get_of_expired he]
              simp [step, ofStore, hs, lt_expires_iff, he]
          | false =>
              rw [Command.leaves_get_of_live he]
              simp [step, ofStore, hs, lt_expires_iff, he]

/-- A store executes requests as the map it stands for. -/
theorem ofStore_execute (s : Store) (c : Counters) (x : Execution) :
    ofStore (s.execute c x.now x.request).store = ((ofStore s).step x).1 := by
  funext key
  by_cases hkey : key = x.request.key
  · rw [hkey, ← ofStore_leaves, ofStore, Store.lookup_execute, if_pos rfl]
  · rw [step_of_ne _ hkey, ofStore, Store.lookup_execute, if_neg hkey, ofStore]

theorem finds_eq (s : Store) (x : Execution) :
    x.request.command.finds x.now s[x.request.key]? = ((ofStore s).step x).2 := by
  obtain ⟨now, ticket, key, command⟩ := x
  cases command with
  | put value ttl => rfl
  | delete => rfl
  | get =>
      cases hs : s[key]? with
      | none => simp [Command.finds, step, ofStore, hs]
      | some e =>
          cases he : e.isExpired now with
          | true =>
              rw [Command.finds_get_of_expired he]
              simp [step, ofStore, hs, lt_expires_iff, he]
          | false =>
              rw [Command.finds_get_of_live he]
              simp [step, ofStore, hs, lt_expires_iff, he]

end Ledger

end ClusterCache
