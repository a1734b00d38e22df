import ClusterCache.Eviction.Policy
import ClusterCache.Proofs.Eviction.FrequencyChain
import ClusterCache.Proofs.Eviction.KeyQueue

/-!
# Policies as lists of keys

Whatever its kind, a sound policy is a list of distinct keys in the order in which it gives them
up.  A deletion takes one key out of the list, a put makes sure that its key is in the list, and
a read never takes a key out.
-/

namespace ClusterCache.Policy

open Levels

/-- The keys of a policy, the next victim first. -/
def keys : Policy → List String
  | .fifo q => q.keys
  | .lru q => q.keys
  | .lfu c => ranking c.chain

/-- The data of a policy agree with each other. -/
def Sound : Policy → Prop
  | .fifo q => q.Sound
  | .lru q => q.Sound
  | .lfu c => c.Sound

theorem sound_empty (kind : PolicyKind) : (empty kind).Sound := by
  cases kind with
  | fifo => exact KeyQueue.sound_empty
  | lru => exact KeyQueue.sound_empty
  | lfu => exact FrequencyChain.sound_empty

theorem keys_empty (kind : PolicyKind) : (empty kind).keys = [] := by
  cases kind <;> rfl

theorem Sound.nodup_keys {p : Policy} (h : p.Sound) : p.keys.Nodup := by
  cases p with
  | fifo q => exact KeyQueue.Sound.nodup_keys h
  | lru q => exact KeyQueue.Sound.nodup_keys h
  | lfu c => exact FrequencyChain.Sound.nodup_ranking h

theorem Sound.tracks_iff {p : Policy} (h : p.Sound) {key : String} :
    p.tracks key = true ↔ key ∈ p.keys := by
  cases p with
  | fifo q => exact KeyQueue.Sound.contains_iff h
  | lru q => exact KeyQueue.Sound.contains_iff h
  | lfu c => exact FrequencyChain.Sound.contains_iff h

theorem Sound.size_eq {p : Policy} (h : p.Sound) : p.size = p.keys.length := by
  cases p with
  | fifo q => exact KeyQueue.Sound.size_eq h
  | lru q => exact KeyQueue.Sound.size_eq h
  | lfu c => exact FrequencyChain.Sound.size_eq h

theorem Sound.victim?_eq {p : Policy} (h : p.Sound) : p.victim? = p.keys.head? := by
  cases p with
  | fifo q => exact KeyQueue.Sound.front?_eq h
  | lru q => exact KeyQueue.Sound.front?_eq h
  | lfu c => exact FrequencyChain.Sound.front?_eq h

theorem Sound.delete {p : Policy} (h : p.Sound) (key : String) :
    (p.delete key).Sound ∧ (p.delete key).keys = p.keys.filter (· ≠ key) := by
  cases p with
  | fifo q => exact KeyQueue.Sound.remove h key
  | lru q => exact KeyQueue.Sound.remove h key
  | lfu c =>
      obtain ⟨hsound, hchain⟩ := FrequencyChain.Sound.remove h key
      exact ⟨hsound, by rw [Policy.delete, keys, hchain, ranking_dropKey, keys]⟩

theorem mem_keys_touch {q : KeyQueue} (h : q.Sound) {key other : String} :
    other ∈ (q.touch key).keys ↔ other = key ∨ other ∈ q.keys := by
  rw [(h.touch key).2, List.mem_append, List.mem_filter, List.mem_singleton]
  by_cases hk : other = key <;> simp [hk]

theorem mem_ranking_access {c : FrequencyChain} (h : c.Sound) {key other : String} :
    other ∈ ranking (c.access key).chain ↔ other = key ∨ other ∈ ranking c.chain := by
  rw [(h.access key).2, mem_ranking_addKey, ranking_dropKey, List.mem_filter]
  by_cases hk : other = key <;> simp [hk]

theorem Sound.put {p : Policy} (h : p.Sound) (key : String) :
    (p.put key).Sound ∧ ∀ other, other ∈ (p.put key).keys ↔ other = key ∨ other ∈ p.keys := by
  cases p with
  | fifo q => exact ⟨(KeyQueue.Sound.touch h key).1, fun _ => mem_keys_touch h⟩
  | lru q => exact ⟨(KeyQueue.Sound.touch h key).1, fun _ => mem_keys_touch h⟩
  | lfu c => exact ⟨(FrequencyChain.Sound.access h key).1, fun _ => mem_ranking_access h⟩

/-- A read changes the order at most, but for a policy that starts to track the key it reads. -/
theorem Sound.get {p : Policy} (h : p.Sound) (key : String) :
    (p.get key).Sound ∧ ∀ other, other ∈ p.keys → other ∈ (p.get key).keys := by
  cases p with
  | fifo q => exact ⟨h, fun _ hm => hm⟩
  | lru q =>
      by_cases hq : q.contains key = true
      · simp only [Policy.get, hq, if_true]
        exact ⟨(KeyQueue.Sound.touch h key).1, fun _ hm => (mem_keys_touch h).mpr (Or.inr hm)⟩
      · simp only [Policy.get, hq]
        exact ⟨h, fun _ hm => hm⟩
  | lfu c =>
      exact ⟨(FrequencyChain.Sound.access h key).1,
        fun _ hm => (mem_ranking_access h).mpr (Or.inr hm)⟩

theorem Sound.mem_keys_get {p : Policy} (h : p.Sound) {key other : String}
    (hm : other ∈ (p.get key).keys) : other = key ∨ other ∈ p.keys := by
  cases p with
  | fifo q => exact Or.inr hm
  | lru q =>
      by_cases hq : q.contains key = true
      · simp only [Policy.get, hq, if_true] at hm
        exact (mem_keys_touch h).mp hm
      · simp only [Policy.get, hq] at hm
        exact Or.inr hm
  | lfu c => exact (mem_ranking_access h).mp hm

theorem Sound.tracks_delete {p : Policy} (h : p.Sound) (key other : String) :
    (p.delete key).tracks other = true ↔ other ≠ key ∧ p.tracks other = true := by
  obtain ⟨hsound, hkeys⟩ := h.delete key
  rw [hsound.tracks_iff, h.tracks_iff, hkeys, List.mem_filter, and_comm]
  simp

theorem Sound.tracks_put {p : Policy} (h : p.Sound) (key other : String) :
    (p.put key).tracks other = true ↔ other = key ∨ p.tracks other = true := by
  obtain ⟨hsound, hkeys⟩ := h.put key
  rw [hsound.tracks_iff, h.tracks_iff, hkeys]

theorem Sound.tracks_get {p : Policy} (h : p.Sound) (key : String) {other : String}
    (ht : p.tracks other = true) : (p.get key).tracks other = true := by
  obtain ⟨hsound, hkeeps⟩ := h.get key
  rw [hsound.tracks_iff]
  exact hkeeps other (h.tracks_iff.mp ht)

theorem Sound.tracks_get_of_ne {p : Policy} (h : p.Sound) {key other : String}
    (hne : other ≠ key) : (p.get key).tracks other = true ↔ p.tracks other = true := by
  refine ⟨fun ht => ?_, h.tracks_get key⟩
  rw [(h.get key).1.tracks_iff] at ht
  rw [h.tracks_iff]
  rcases h.mem_keys_get ht with heq | hmem
  · exact absurd heq hne
  · exact hmem

/-- Only the policy that counts accesses starts to track a key when it is read. -/
theorem Sound.tracks_of_get {p : Policy} (h : p.Sound) (hkind : p.kind ≠ .lfu) {key other : String}
    (ht : (p.get key).tracks other = true) : p.tracks other = true := by
  cases p with
  | fifo q => exact ht
  | lru q =>
      by_cases hq : q.contains key = true
      · by_cases hother : other = key
        · exact hother ▸ hq
        · exact (h.tracks_get_of_ne hother).mp ht
      · have hsame : Policy.get (.lru q) key = .lru q := by simp [Policy.get, hq]
        rwa [hsame] at ht
  | lfu c => exact absurd rfl hkind

@[simp] theorem kind_empty (kind : PolicyKind) : (empty kind).kind = kind := by
  cases kind <;> rfl

@[simp] theorem kind_put (p : Policy) (key : String) : (p.put key).kind = p.kind := by
  cases p <;> rfl

@[simp] theorem kind_get (p : Policy) (key : String) : (p.get key).kind = p.kind := by
  cases p <;> rfl

@[simp] theorem kind_delete (p : Policy) (key : String) : (p.delete key).kind = p.kind := by
  cases p <;> rfl

/-! ## Giving up keys -/

theorem Sound.deleteAll {p : Policy} (h : p.Sound) (gone : List String) :
    (gone.foldl Policy.delete p).Sound ∧
      (gone.foldl Policy.delete p).keys = p.keys.filter (· ∉ gone) := by
  induction gone generalizing p with
  | nil => exact ⟨h, by simp⟩
  | cons key gone ih =>
      obtain ⟨hsound, hkeys⟩ := h.delete key
      obtain ⟨hall, hrest⟩ := ih hsound
      refine ⟨hall, ?_⟩
      rw [List.foldl_cons, hrest, hkeys, List.filter_filter]
      exact List.filter_congr fun k _ => by simp [Bool.and_comm]

theorem kind_deleteAll (p : Policy) (gone : List String) :
    (gone.foldl Policy.delete p).kind = p.kind := by
  induction gone generalizing p with
  | nil => rfl
  | cons key gone ih => rw [List.foldl_cons, ih, kind_delete]

/-- Giving up keys one after the other gives up the first keys. -/
theorem Sound.drain_eq {p : Policy} (h : p.Sound) (count : Nat) :
    p.drain count = (p.keys.take count, (p.keys.take count).foldl Policy.delete p) := by
  induction count generalizing p with
  | zero => simp [Policy.drain]
  | succ count ih =>
      rw [Policy.drain, h.victim?_eq]
      cases hk : p.keys with
      | nil => simp
      | cons key rest =>
          obtain ⟨hsound, hkeys⟩ := h.delete key
          have hnd := h.nodup_keys
          have hrest : (p.delete key).keys = rest := by
            rw [hk] at hnd
            rw [hkeys, hk]
            exact filter_ne_middle [] rest hnd
          simp [ih hsound, hrest]

theorem Sound.order_eq {p : Policy} (h : p.Sound) : p.order = p.keys := by
  rw [order, h.drain_eq, h.size_eq, List.take_length]

/-- A policy tracks exactly these distinct keys, and gives them up in this order: the key it names
is the first of them, it names one as long as it tracks any, and naming a key and deleting it,
again and again, goes through all of them and leaves nothing. -/
structure GivesUp (p : Policy) (keys : List String) : Prop where
  nodup : keys.Nodup
  tracks_iff : ∀ key, p.tracks key = true ↔ key ∈ keys
  size_eq : p.size = keys.length
  victim?_eq : p.victim? = keys.head?
  names_iff : (∃ victim, p.victim? = some victim) ↔ ∃ key, p.tracks key = true
  drain_eq : ∀ count, p.drain count = (keys.take count, (keys.take count).foldl Policy.delete p)
  nothing_left : ∀ count, keys.length ≤ count →
    (p.drain count).2.victim? = none ∧ (p.drain count).2.size = 0

theorem Sound.givesUp {p : Policy} (h : p.Sound) : p.GivesUp p.keys where
  nodup := h.nodup_keys
  tracks_iff := fun _ => h.tracks_iff
  size_eq := h.size_eq
  victim?_eq := h.victim?_eq
  names_iff := by
    simp only [h.victim?_eq, h.tracks_iff]
    cases p.keys <;> simp
  drain_eq := h.drain_eq
  nothing_left := by
    intro count hcount
    obtain ⟨hsound, hkeys⟩ := h.deleteAll p.keys
    have hnil : (p.keys.foldl Policy.delete p).keys = [] := by
      rw [hkeys, List.filter_eq_nil_iff]
      simp
    rw [h.drain_eq, List.take_of_length_le hcount, hsound.victim?_eq, hsound.size_eq, hnil]
    exact ⟨rfl, rfl⟩

end ClusterCache.Policy
