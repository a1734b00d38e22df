import ClusterCache.Proofs.Eviction.Agreement
import ClusterCache.Proofs.Sweeps

/-!
# Keepers that agree on some keys

What a keeper knows of a key depends on what it has heard of this key, but for the place of the key
among the others.  So two keepers that know the same of some keys go on doing so while they hear
the same events, and also while each of them forgets keys that the other one does not, if these are
not among the keys that matter.
-/

namespace ClusterCache

/-- The time of a key after a change, when it had a time before or none. -/
def Change.timeAfter (time : Option UInt64) : Change → Option UInt64
  | .put (some entry) => some entry.expires
  | .put none => time
  | .get => time
  | .delete => none

/-- The time of a key after events, when it had a time before or none. -/
def timeHeard (key : String) (time : Option UInt64) (events : List Event) : Option UInt64 :=
  events.foldl (fun time e => if key = e.key then e.change.timeAfter time else time) time

namespace Keeper

variable {k k' : Keeper} {p : String → Bool}

theorem time?_observe (h : k.expiry.Sound) (e : Event) (key : String) :
    (k.observe e).expiry.time? key =
      if key = e.key then e.change.timeAfter (k.expiry.time? key) else k.expiry.time? key := by
  cases hchange : e.change with
  | put entry =>
      cases entry with
      | none => simp [observe, hchange, Change.timeAfter]
      | some entry => simp [observe, hchange, Change.timeAfter, (h.add entry.expires e.key).2]
  | get => simp [observe, hchange, Change.timeAfter]
  | delete => simp [observe, hchange, Change.timeAfter, (h.remove e.key).2]

theorem time?_hear (hpolicy : k.policy.Sound) (hexpiry : k.expiry.Sound) (events : List Event)
    (key : String) :
    (k.hear events).expiry.time? key = timeHeard key (k.expiry.time? key) events := by
  induction events generalizing k with
  | nil => rfl
  | cons e events ih =>
      obtain ⟨hpolicy', hexpiry'⟩ := observe_sound hpolicy hexpiry e
      rw [hear_cons, ih hpolicy' hexpiry', time?_observe hexpiry]
      rfl

theorem hear_append (k : Keeper) (events events' : List Event) :
    k.hear (events ++ events') = (k.hear events).hear events' :=
  List.foldl_append

theorem hear_deletions_of_keys (h : k.expiry.Sound) (keys : List String) :
    (k.hear (keys.map fun key => ⟨key, .delete⟩)).policy = keys.foldl Policy.delete k.policy ∧
      (k.hear (keys.map fun key => ⟨key, .delete⟩)).expiry.Sound ∧
      ∀ key, (k.hear (keys.map fun key => ⟨key, .delete⟩)).expiry.time? key =
        if key ∈ keys then none else k.expiry.time? key := by
  induction keys generalizing k with
  | nil => exact ⟨rfl, h, fun key => by simp⟩
  | cons key keys ih =>
      obtain ⟨hsound, htime⟩ := h.remove key
      obtain ⟨hpolicy, hexpiry, hrest⟩ := ih (k := k.observe ⟨key, .delete⟩) hsound
      refine ⟨hpolicy, hexpiry, fun other => (hrest other).trans ?_⟩
      have hobserved : (k.observe ⟨key, .delete⟩).expiry.time? other =
          if other = key then none else k.expiry.time? other := htime other
      rw [hobserved]
      by_cases hother : other = key <;> simp [hother]

/-! ## Agreement -/

/-- Keepers that know the same of some keys. -/
structure Agree (p : String → Bool) (k k' : Keeper) : Prop where
  policy : Policy.Agree p k.policy k'.policy
  left : k.expiry.Sound
  right : k'.expiry.Sound
  time? : ∀ key, p key = true → k.expiry.time? key = k'.expiry.time? key

theorem Agree.observe (h : Agree p k k') (e : Event) : Agree p (k.observe e) (k'.observe e) where
  policy := by
    cases hchange : e.change with
    | put entry =>
        simp only [Keeper.observe, hchange]
        exact h.policy.put e.key
    | get =>
        simp only [Keeper.observe, hchange]
        exact h.policy.get e.key
    | delete =>
        simp only [Keeper.observe, hchange]
        exact h.policy.delete e.key
  left := (observe_sound h.policy.left h.left e).2
  right := (observe_sound h.policy.right h.right e).2
  time? := fun key hkey => by
    rw [time?_observe h.left, time?_observe h.right, h.time? key hkey]

theorem Agree.hear (h : Agree p k k') (events : List Event) :
    Agree p (k.hear events) (k'.hear events) := by
  induction events generalizing k k' with
  | nil => exact h
  | cons e events ih => exact ih (h.observe e)

theorem Agree.hear_deletions (h : Agree p k k') {keys keys' : List String}
    (hsame : ∀ key, p key = true → (key ∈ keys ↔ key ∈ keys')) :
    Agree p (k.hear (keys.map fun key => ⟨key, .delete⟩))
      (k'.hear (keys'.map fun key => ⟨key, .delete⟩)) := by
  obtain ⟨hpolicy, hleft, htime⟩ := hear_deletions_of_keys h.left keys
  obtain ⟨hpolicy', hright, htime'⟩ := hear_deletions_of_keys h.right keys'
  refine ⟨?_, hleft, hright, fun key hkey => ?_⟩
  · rw [hpolicy, hpolicy']
    exact h.policy.deleteAll hsame
  · simp only [htime, htime', hsame key hkey, h.time? key hkey]

variable {b : Keeper} {gone gone' : List String}

/-- Keepers that have forgotten the same of some keys of another one. -/
theorem Forgot.agree (h : Forgot b gone k) (h' : Forgot b gone' k') (hb : b.policy.Sound)
    (hpending : k.stage.pending = []) (hpending' : k'.stage.pending = [])
    (hsame : ∀ key, p key = true → (key ∈ gone ↔ key ∈ gone')) : Agree p k k' where
  policy := by
    rw [h.policy, h'.policy]
    exact (hb.agree p).deleteAll hsame
  left := h.sound.expiry
  right := h'.sound.expiry
  time? := fun key hkey => by
    simp only [h.time? hpending, h'.time? hpending', hsame key hkey]

/-- Keepers that agree on every key cannot be told apart. -/
theorem Agree.expiry_eq (h : Agree (fun _ => true) k k') : k.expiry = k'.expiry :=
  h.left.ext h.right fun key => h.time? key rfl

theorem Agree.order_eq (h : Agree (fun _ => true) k k') : k.policy.order = k'.policy.order := by
  simpa using h.policy.order

end Keeper

end ClusterCache
