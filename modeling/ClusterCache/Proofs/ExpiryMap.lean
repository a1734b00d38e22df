import Mathlib.Data.Set.Card
import Mathlib.Order.Bounds.Defs
import ClusterCache.Proofs.ExpiryIndex

/-!
# What is asked of an expiry index is asked of a map

An index that adds, removes and polls from the start on answers what a map from keys to times
answers that binds a key, unbinds a key, and unbinds all keys of the least time.  Its counts, its
buckets and its least time are those of the map.  Polled until nothing is left, it goes through the
map in ascending order of the times.
-/

namespace ClusterCache.ExpiryIndex

open Std

/-! ## Operations -/

/-- What can be asked of an index. -/
inductive Operation where
  | add (time : UInt64) (key : String)
  | remove (key : String)
  | poll

/-- What an index answers: nothing, the time a key had, or the keys that were taken out. -/
inductive Answer where
  | done
  | time (time : Option UInt64)
  | keys (keys : Option (ExtTreeSet String))

def perform (x : ExpiryIndex) : Operation → Answer × ExpiryIndex
  | .add time key => (.done, x.add time key)
  | .remove key => (.time (x.take key).1, (x.take key).2)
  | .poll =>
    match x.poll? with
    | none => (.keys none, x)
    | some (keys, rest) => (.keys (some keys), rest)

/-- The answers of a new index to operations one after the other, and what it is then. -/
def performed (ops : List Operation) : List Answer × ExpiryIndex :=
  ops.foldl (fun (answers, x) op => (answers ++ [(x.perform op).1], (x.perform op).2)) ([], empty)

theorem performed_concat (ops : List Operation) (op : Operation) :
    performed (ops ++ [op]) =
      ((performed ops).1 ++ [((performed ops).2.perform op).1],
        ((performed ops).2.perform op).2) := by
  simp [performed]

/-! ## The same operations on a map -/

/-- The times to which a map binds keys. -/
def boundTimes (m : String → Option UInt64) : Set UInt64 := {time | ∃ key, m key = some time}

/-- What a map answers to an operation, and the map after it. -/
inductive Acts (m : String → Option UInt64) :
    Operation → Answer → (String → Option UInt64) → Prop where
  | add (time : UInt64) (key : String) :
      Acts m (.add time key) .done (Function.update m key (some time))
  | remove (key : String) : Acts m (.remove key) (.time (m key)) (Function.update m key none)
  | pollNothing (hm : ∀ key, m key = none) : Acts m .poll (.keys none) m
  | poll {time : UInt64} {keys : ExtTreeSet String} (hleast : IsLeast (boundTimes m) time)
      (hkeys : ∀ key, key ∈ keys ↔ m key = some time) :
      Acts m .poll (.keys (some keys)) fun key => if key ∈ keys then none else m key

/-- The empty map becomes this map by operations that are answered so. -/
inductive Follows : List Operation → List Answer → (String → Option UInt64) → Prop where
  | start : Follows [] [] fun _ => none
  | step {ops : List Operation} {answers : List Answer} {m m' : String → Option UInt64}
      {op : Operation} {answer : Answer} (h : Follows ops answers m) (hact : Acts m op answer m') :
      Follows (ops ++ [op]) (answers ++ [answer]) m'

/-- The last operation that names a key adds it at a time. -/
def LastAdded (ops : List Operation) (key : String) (time : UInt64) : Prop :=
  ∃ before rest, ops = before ++ .add time key :: rest ∧
    ∀ op ∈ rest, op ≠ .remove key ∧ ∀ other, op ≠ .add other key

variable {x : ExpiryIndex} {m : String → Option UInt64}

theorem LastAdded.concat {ops : List Operation} {key : String} {time : UInt64}
    (h : LastAdded ops key time) {op : Operation} (hremove : op ≠ .remove key)
    (hadd : ∀ other, op ≠ .add other key) : LastAdded (ops ++ [op]) key time := by
  obtain ⟨before, rest, rfl, hrest⟩ := h
  refine ⟨before, rest ++ [op], by simp, fun o ho => ?_⟩
  rcases List.mem_append.mp ho with ho | ho
  · exact hrest o ho
  · rw [List.mem_singleton.mp ho]
    exact ⟨hremove, hadd⟩

/-- A map binds a key to the time at which it was added last. -/
theorem Follows.lastAdded {ops : List Operation} {answers : List Answer}
    (h : Follows ops answers m) {key : String} {time : UInt64} (hkey : m key = some time) :
    LastAdded ops key time := by
  induction h with
  | start => cases hkey
  | @step ops answers m m' op answer _ hact ih =>
      cases hact with
      | add t other =>
          rw [Function.update_apply] at hkey
          split_ifs at hkey with heq
          · obtain rfl := Option.some.inj hkey
            exact ⟨ops, [], by rw [heq], by simp⟩
          · exact (ih hkey).concat (by simp) (by simpa using Ne.symm heq)
      | remove other =>
          rw [Function.update_apply] at hkey
          split_ifs at hkey with heq
          exact (ih hkey).concat (by simpa using Ne.symm heq) (by simp)
      | pollNothing hm => simp [hm] at hkey
      | poll _ _ =>
          rw [ite_eq_iff] at hkey
          obtain ⟨_, hnone⟩ | ⟨_, hkey⟩ := hkey
          · cases hnone
          · exact (ih hkey).concat (by simp) (by simp)

/-- No poll of a map takes out an empty set. -/
theorem Follows.ne_empty {ops : List Operation} {answers : List Answer}
    (h : Follows ops answers m) {keys : ExtTreeSet String}
    (hkeys : .keys (some keys) ∈ answers) : keys ≠ ∅ := by
  induction h with
  | start => cases hkeys
  | step _ hact ih =>
      rcases List.mem_append.mp hkeys with hold | hnew
      · exact ih hold
      · rw [← List.mem_singleton.mp hnew] at hact
        cases hact with
        | poll hleast hmem =>
            obtain ⟨key, hkey⟩ := hleast.1
            exact ne_empty_of_mem ((hmem key).mpr hkey)

/-! ## The index does what the map does -/

theorem fst_take (x : ExpiryIndex) (key : String) : (x.take key).1 = x.time? key := by
  rw [take, time?]
  cases x.times[key]? <;> rfl

theorem Sound.time?_add (h : x.Sound) (time : UInt64) (key : String) :
    (x.add time key).time? = Function.update x.time? key (some time) := by
  funext other
  rw [(h.add time key).2, Function.update_apply]

theorem Sound.time?_remove (h : x.Sound) (key : String) :
    (x.remove key).time? = Function.update x.time? key none := by
  funext other
  rw [(h.remove key).2, Function.update_apply]

theorem Sound.isLeast_earliest? (h : x.Sound) {time : UInt64} {keys : ExtTreeSet String}
    (he : x.earliest? = some (time, keys)) : IsLeast (boundTimes x.time?) time := by
  obtain ⟨key, hkey⟩ := h.exists_mem_earliest? he
  exact ⟨⟨key, (h.earliest?_mem he key).mp hkey⟩, fun _ ⟨_, ht⟩ => h.earliest?_le he ht⟩

theorem Sound.perform (h : x.Sound) (op : Operation) :
    (x.perform op).2.Sound ∧ Acts x.time? op (x.perform op).1 (x.perform op).2.time? := by
  cases op with
  | add time key =>
      have hact := Acts.add (m := x.time?) time key
      rw [← h.time?_add] at hact
      exact ⟨(h.add time key).1, hact⟩
  | remove key =>
      have hact := Acts.remove (m := x.time?) key
      rw [← h.time?_remove, ← fst_take] at hact
      exact ⟨(h.remove key).1, hact⟩
  | poll =>
      cases he : x.earliest? with
      | none =>
          have hpoll : x.perform .poll = (.keys none, x) := by
            simp [ExpiryIndex.perform, ExpiryIndex.poll?, he]
          rw [hpoll]
          exact ⟨h, .pollNothing (h.earliest?_eq_none he)⟩
      | some bucket =>
          obtain ⟨time, keys⟩ := bucket
          obtain ⟨rest, hrest, hsound, htimes⟩ := h.poll? he
          have hpoll : x.perform .poll = (.keys (some keys), rest) := by
            simp [ExpiryIndex.perform, hrest]
          rw [hpoll, funext htimes]
          exact ⟨hsound, .poll (h.isLeast_earliest? he) (h.earliest?_mem he)⟩

theorem follows_performed (ops : List Operation) :
    (performed ops).2.Sound ∧ Follows ops (performed ops).1 (performed ops).2.time? := by
  induction ops using List.reverseRecOn with
  | nil =>
      refine ⟨sound_empty, ?_⟩
      have htimes : empty.time? = fun _ => none := funext time?_empty
      rw [performed, List.foldl_nil, htimes]
      exact .start
  | append_singleton ops op ih =>
      obtain ⟨hsound, hfollows⟩ := ih
      obtain ⟨hnext, hact⟩ := hsound.perform op
      rw [performed_concat]
      exact ⟨hnext, hfollows.step hact⟩

/-! ## What an index shows of the map -/

theorem encard_setOf_mem {κ β : Type} [DecidableEq κ] [Ord κ] [TransOrd κ] [LawfulEqOrd κ]
    (t : ExtTreeMap κ β) : {key | key ∈ t}.encard = t.size := by
  have hkeys : {key | key ∈ t} = (t.keys.toFinset : Set κ) := by
    ext key
    simp [ExtTreeMap.mem_keys]
  rw [hkeys, Set.encard_coe_eq_coe_finsetCard, List.toFinset_card_of_nodup ExtTreeMap.nodup_keys,
    ExtTreeMap.length_keys]

/-- Everything that can be asked of an index without changing it is as in a map: a bucket for every
time to which the map binds a key, which holds exactly the keys of this time, and no others. -/
structure Shows (x : ExpiryIndex) (m : String → Option UInt64) : Prop where
  time? : ∀ key, x.time? key = m key
  keyCount : {key | m key ≠ none}.encard = x.keyCount
  size : (boundTimes m).encard = x.size
  isEmpty : x.isEmpty = true ↔ ∀ key, m key = none
  peek? : ∀ time, x.peek? = some time ↔ IsLeast (boundTimes m) time
  peek?_none : x.peek? = none ↔ ∀ key, m key = none
  bucket : ∀ (time : UInt64) (keys : ExtTreeSet String),
    x.buckets[time]? = some keys ↔ keys ≠ ∅ ∧ ∀ key, key ∈ keys ↔ m key = some time

theorem Sound.bucket_iff (h : x.Sound) (time : UInt64) (keys : ExtTreeSet String) :
    x.buckets[time]? = some keys ↔ keys ≠ ∅ ∧ ∀ key, key ∈ keys ↔ x.time? key = some time := by
  refine ⟨fun hb => ⟨h.full time keys hb, h.mem_iff time keys hb⟩, fun ⟨hne, hmem⟩ => ?_⟩
  obtain ⟨key, hkey⟩ := exists_mem_of_ne_empty hne
  obtain ⟨bucket, hbucket⟩ := h.indexed key time ((hmem key).mp hkey)
  have hsame : bucket = keys := by
    apply ExtTreeSet.ext_mem
    intro other
    rw [hmem other]
    exact h.mem_iff time bucket hbucket other
  rw [hbucket, hsame]

theorem Sound.mem_buckets_iff (h : x.Sound) (time : UInt64) :
    time ∈ x.buckets ↔ time ∈ boundTimes x.time? := by
  rw [ExtTreeMap.mem_iff_isSome_getElem?, Option.isSome_iff_exists]
  constructor
  · rintro ⟨keys, hkeys⟩
    obtain ⟨key, hkey⟩ := exists_mem_of_ne_empty (h.full time keys hkeys)
    exact ⟨key, (h.mem_iff time keys hkeys key).mp hkey⟩
  · rintro ⟨key, hkey⟩
    exact h.indexed key time hkey

theorem Sound.peek?_eq_none_iff (h : x.Sound) : x.peek? = none ↔ ∀ key, x.time? key = none := by
  rw [ExpiryIndex.peek?, Option.map_eq_none_iff]
  refine ⟨h.earliest?_eq_none, fun hnone => ?_⟩
  by_contra hsome
  obtain ⟨⟨time, keys⟩, he⟩ := Option.ne_none_iff_exists'.mp hsome
  obtain ⟨key, hkey⟩ := h.exists_mem_earliest? he
  simpa [hnone key] using (h.earliest?_mem he key).mp hkey

theorem Sound.peek?_iff (h : x.Sound) (time : UInt64) :
    x.peek? = some time ↔ IsLeast (boundTimes x.time?) time := by
  rw [ExpiryIndex.peek?, Option.map_eq_some_iff]
  constructor
  · rintro ⟨⟨_, keys⟩, he, rfl⟩
    exact h.isLeast_earliest? he
  · intro hleast
    cases he : x.earliest? with
    | none =>
        obtain ⟨key, hkey⟩ := hleast.1
        simp [h.earliest?_eq_none he key] at hkey
    | some bucket =>
        have hfirst := h.isLeast_earliest? he
        exact ⟨bucket, rfl, UInt64.le_antisymm (hfirst.2 hleast.1) (hleast.2 hfirst.1)⟩

theorem Sound.shows (h : x.Sound) : x.Shows x.time? where
  time? := fun _ => rfl
  keyCount := by
    rw [ExpiryIndex.keyCount, ← encard_setOf_mem]
    congr 1
    ext key
    exact (ExtTreeMap.mem_iff_isSome_getElem?.trans Option.isSome_iff_ne_none).symm
  size := by
    rw [ExpiryIndex.size, ← encard_setOf_mem]
    congr 1
    ext time
    exact (h.mem_buckets_iff time).symm
  isEmpty := by
    rw [← h.peek?_eq_none_iff, ExpiryIndex.peek?, Option.map_eq_none_iff, earliest?,
      List.head?_eq_none_iff, ExtTreeMap.toList_eq_nil_iff, ExpiryIndex.isEmpty,
      ExtTreeMap.isEmpty_iff]
  peek? := h.peek?_iff
  peek?_none := h.peek?_eq_none_iff
  bucket := h.bucket_iff

/-! ## Polling until nothing is left -/

/-- Polls an index at most so many times: the least time before every poll with the keys it takes
out, and the index left. -/
def polls : Nat → ExpiryIndex → List (UInt64 × ExtTreeSet String) × ExpiryIndex
  | 0, x => ([], x)
  | count + 1, x =>
    match x.peek?, x.poll? with
    | some time, some (keys, rest) => ((time, keys) :: (polls count rest).1, (polls count rest).2)
    | _, _ => ([], x)

/-- Sets of keys, each at a time, go through a map: in strictly ascending order of the times, with
every key once, at its time, and without an empty set. -/
structure GoesThrough (rows : List (UInt64 × ExtTreeSet String)) (m : String → Option UInt64) :
    Prop where
  ascending : (rows.map (·.1)).Pairwise (· < ·)
  once : (rows.flatMap (·.2.toList)).Nodup
  mem_iff : ∀ key time, (∃ keys, (time, keys) ∈ rows ∧ key ∈ keys) ↔ m key = some time
  full : ∀ row ∈ rows, row.2 ≠ ∅

theorem goesThrough_nil (hm : ∀ key, m key = none) : GoesThrough [] m where
  ascending := List.Pairwise.nil
  once := List.nodup_nil
  mem_iff := fun key time => by simp [hm]
  full := fun _ hrow => absurd hrow List.not_mem_nil

/-- The keys of the least time come first, and then what is left of the map. -/
theorem GoesThrough.cons {rows : List (UInt64 × ExtTreeSet String)} {time : UInt64}
    {keys : ExtTreeSet String}
    (h : GoesThrough rows fun key => if key ∈ keys then none else m key)
    (hleast : IsLeast (boundTimes m) time) (hkeys : ∀ key, key ∈ keys ↔ m key = some time) :
    GoesThrough ((time, keys) :: rows) m := by
  have hrest : ∀ key t, (∃ ks, (t, ks) ∈ rows ∧ key ∈ ks) ↔ key ∉ keys ∧ m key = some t := by
    intro key t
    rw [h.mem_iff]
    by_cases hkey : key ∈ keys <;> simp [hkey]
  refine ⟨?_, ?_, fun key t => ?_, fun row hrow => ?_⟩
  · rw [List.map_cons, List.pairwise_cons]
    refine ⟨fun t ht => ?_, h.ascending⟩
    -- A key of a later row is bound to its time, and was not taken out with the least time.
    obtain ⟨⟨_, ks⟩, hrow, rfl⟩ := List.mem_map.mp ht
    obtain ⟨key, hkey⟩ := exists_mem_of_ne_empty (h.full _ hrow)
    obtain ⟨hnew, hbound⟩ := (hrest key _).mp ⟨ks, hrow, hkey⟩
    apply UInt64.lt_of_le_of_ne (hleast.2 ⟨key, hbound⟩)
    rintro rfl
    exact hnew ((hkeys key).mpr hbound)
  · rw [List.flatMap_cons, List.nodup_append]
    refine ⟨ExtTreeSet.distinct_toList.imp fun hne => by simpa using hne, h.once, ?_⟩
    rintro key hkey _ hlater rfl
    obtain ⟨⟨t, ks⟩, hrow, hks⟩ := List.mem_flatMap.mp hlater
    exact ((hrest key t).mp ⟨ks, hrow, by simpa using hks⟩).1 (by simpa using hkey)
  · constructor
    · rintro ⟨ks, hrow, hkey⟩
      rcases List.mem_cons.mp hrow with heq | hrow
      · obtain ⟨rfl, rfl⟩ := Prod.mk.inj heq
        exact (hkeys key).mp hkey
      · exact ((hrest key t).mp ⟨ks, hrow, hkey⟩).2
    · intro hbound
      by_cases hkey : key ∈ keys
      · obtain rfl : time = t := Option.some.inj (((hkeys key).mp hkey).symm.trans hbound)
        exact ⟨keys, List.mem_cons_self, hkey⟩
      · obtain ⟨ks, hrow, hks⟩ := (hrest key t).mpr ⟨hkey, hbound⟩
        exact ⟨ks, List.mem_cons_of_mem _ hrow, hks⟩
  · rcases List.mem_cons.mp hrow with rfl | hrow
    · obtain ⟨key, hkey⟩ := hleast.1
      exact ne_empty_of_mem ((hkeys key).mpr hkey)
    · exact h.full row hrow

theorem Sound.eq_empty (h : x.Sound) (hnone : ∀ key, x.time? key = none) : x = empty :=
  h.ext sound_empty fun key => by rw [hnone, time?_empty]

theorem size_poll? {rest : ExpiryIndex} {time : UInt64} {keys : ExtTreeSet String}
    (he : x.earliest? = some (time, keys)) (hpoll : x.poll? = some (keys, rest)) :
    rest.size + 1 = x.size := by
  have hmem := ExtTreeMap.mem_toList_iff_getElem?_eq_some.mp (List.mem_of_head? he)
  have hcontains : x.buckets.contains time = true := by
    rw [ExtTreeMap.contains_eq_isSome_getElem?, hmem, Option.isSome_some]
  have hpos : x.buckets.size ≠ 0 := by
    rw [Ne, ← ExtTreeMap.eq_empty_iff_size_eq_zero]
    rintro hempty
    simp [hempty] at hmem
  rw [ExpiryIndex.poll?, he, Option.map_some, Option.some.injEq, Prod.mk.injEq] at hpoll
  rw [← hpoll.2, size, size, ExtTreeMap.size_erase, if_pos hcontains]
  omega

theorem polls_of_earliest?_eq_none (he : x.earliest? = none) (count : Nat) :
    x.polls count = ([], x) := by
  cases count with
  | zero => rfl
  | succ count => simp [polls, ExpiryIndex.peek?, he]

/-- As many polls as there are buckets go through the whole index and leave nothing. -/
theorem Sound.polls (h : x.Sound) {count : Nat} (hcount : x.size ≤ count) :
    GoesThrough (x.polls count).1 x.time? ∧ (x.polls count).2 = empty := by
  induction count generalizing x with
  | zero =>
      have hbuckets : x.buckets = ∅ :=
        ExtTreeMap.eq_empty_iff_size_eq_zero.mpr (Nat.le_zero.mp hcount)
      have he : x.earliest? = none := by simp [earliest?, hbuckets]
      have hnone := h.earliest?_eq_none he
      exact ⟨goesThrough_nil hnone, h.eq_empty hnone⟩
  | succ count ih =>
      cases he : x.earliest? with
      | none =>
          have hnone := h.earliest?_eq_none he
          rw [polls_of_earliest?_eq_none he]
          exact ⟨goesThrough_nil hnone, h.eq_empty hnone⟩
      | some bucket =>
          obtain ⟨time, keys⟩ := bucket
          obtain ⟨rest, hpoll, hsound, htimes⟩ := h.poll? he
          have hsize := size_poll? he hpoll
          obtain ⟨hrows, hempty⟩ := ih hsound (by omega)
          rw [funext htimes] at hrows
          have hpolls : x.polls (count + 1) =
              ((time, keys) :: (rest.polls count).1, (rest.polls count).2) := by
            simp [ExpiryIndex.polls, ExpiryIndex.peek?, he, hpoll]
          rw [hpolls]
          exact ⟨hrows.cons (h.isLeast_earliest? he) (h.earliest?_mem he), hempty⟩

/-- Whatever a new index is asked, one operation after the other, a map from keys to times is asked
the same and gives the same answers, no poll takes out an empty set of keys, and the index then
shows what the map is.  Polled until nothing is left, it goes through the map, in which every key
has the time at which it was added last. -/
theorem refines_map (ops : List Operation) :
    ∃ m, Follows ops (performed ops).1 m ∧ (performed ops).2.Shows m ∧
      (∀ keys, .keys (some keys) ∈ (performed ops).1 → keys ≠ ∅) ∧
      (∀ count, (performed ops).2.size ≤ count →
        GoesThrough ((performed ops).2.polls count).1 m ∧
          ((performed ops).2.polls count).2 = empty) ∧
      ∀ key time, m key = some time → LastAdded ops key time := by
  obtain ⟨hsound, hfollows⟩ := follows_performed ops
  exact ⟨_, hfollows, hsound.shows, fun _ => hfollows.ne_empty, fun _ => hsound.polls,
    fun _ _ => hfollows.lastAdded⟩

end ClusterCache.ExpiryIndex
