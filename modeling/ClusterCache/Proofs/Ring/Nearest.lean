import ClusterCache.Proofs.DistinctKeys
import ClusterCache.Ring
import Mathlib.Algebra.Group.Nat.Defs

/-!
# The nearest position

Looking for the first position at or after a place, and for the lowest one if there is none, finds
the position that comes first on the way up from the place and round past the end of the ring.
-/

namespace ClusterCache

open Std

/-- How far it is from a place up to a position, going round past the end. -/
def clockwise (start p : UInt64) : UInt64 := p - start

theorem toNat_clockwise (start p : UInt64) :
    (clockwise start p).toNat =
      if start ≤ p then p.toNat - start.toNat else 2 ^ 64 - start.toNat + p.toNat := by
  have hstart := start.toNat_lt
  have hp := p.toNat_lt
  rw [clockwise, UInt64.toNat_sub]
  split_ifs with h <;> rw [UInt64.le_iff_toNat_le] at h <;> omega

theorem clockwise_injective (start : UInt64) : Function.Injective (clockwise start) := by
  intro p q h
  exact (UInt64.sub_left_inj start).mp h

/-- Positions at or after the place come before all others. -/
theorem clockwise_le_of_le {start p q : UInt64} (hp : start ≤ p) (hq : start ≤ q → p ≤ q) :
    clockwise start p ≤ clockwise start q := by
  rw [UInt64.le_iff_toNat_le, toNat_clockwise, toNat_clockwise, if_pos hp]
  have hlt := p.toNat_lt
  rw [UInt64.le_iff_toNat_le] at hp
  split_ifs with h
  · have hpq := UInt64.le_iff_toNat_le.mp (hq h)
    omega
  · omega

theorem clockwise_le_of_lt {start p q : UInt64} (hp : p < start) (hq : q < start) (hpq : p ≤ q) :
    clockwise start p ≤ clockwise start q := by
  rw [UInt64.le_iff_toNat_le, toNat_clockwise, toNat_clockwise, if_neg (UInt64.not_le.mpr hp),
    if_neg (UInt64.not_le.mpr hq)]
  have hnat := UInt64.le_iff_toNat_le.mp hpq
  omega

/-- In a list that goes up, the first element at or after a place, or else the very first one, is
the nearest. -/
theorem clockwise_first_le {β : Type} {held : List (UInt64 × β)} {start : UInt64} {x : UInt64 × β}
    (hup : held.Pairwise fun a b => a.1 < b.1)
    (hx : (held.find? fun p => start ≤ p.1).or held.head? = some x) :
    x ∈ held ∧ ∀ y ∈ held, clockwise start x.1 ≤ clockwise start y.1 := by
  cases hfind : held.find? (fun p => start ≤ p.1) with
  | some found =>
      obtain rfl : found = x := by simpa [hfind] using hx
      obtain ⟨hle, below, above, rfl, hbelow⟩ := List.find?_eq_some_iff_append.mp hfind
      -- What was passed over lies before the place, what follows lies higher.
      refine ⟨by simp, fun y hy => clockwise_le_of_le (by simpa using hle) fun hstart => ?_⟩
      rcases List.mem_append.mp hy with hy | hy
      · exact absurd hstart (by simpa using hbelow y hy)
      · rcases List.mem_cons.mp hy with rfl | hy
        · exact UInt64.le_refl _
        · rw [List.pairwise_append, List.pairwise_cons] at hup
          exact UInt64.le_of_lt (hup.2.1.1 y hy)
  | none =>
      have hhead : held.head? = some x := by simpa [hfind] using hx
      obtain ⟨rest, rfl⟩ := List.head?_eq_some_iff.mp hhead
      -- Nothing lies at or after the place, so that all are reached past the end.
      have hall : ∀ y ∈ x :: rest, y.1 < start := by
        intro y hy
        simpa using List.find?_eq_none.mp hfind y hy
      refine ⟨List.mem_cons_self, fun y hy => ?_⟩
      have hxy : x.1 ≤ y.1 := by
        rcases List.mem_cons.mp hy with rfl | hy
        · exact UInt64.le_refl _
        · exact UInt64.le_of_lt ((List.pairwise_cons.mp hup).1 y hy)
      exact clockwise_le_of_lt (hall x List.mem_cons_self) (hall y hy) hxy

namespace Ring

theorem toList_positions_up (r : Ring) :
    r.positions.toList.Pairwise fun a b : UInt64 × String => a.1 < b.1 := by
  have hordered : r.positions.toList.Pairwise fun a b : UInt64 × String =>
      compare a.1 b.1 = .lt := ExtTreeMap.ordered_keys_toList
  exact hordered.imp fun h => compareOfLessAndEq_eq_lt.mp h

/-- Whoever is found holds a position to which no other is nearer. -/
theorem holder?_eq_some {r : Ring} {start : UInt64} {id : String} (h : r.holder? start = some id) :
    ∃ p : UInt64, r.positions[p]? = some id ∧ ∀ (q : UInt64) (other : String),
      r.positions[q]? = some other → clockwise start p ≤ clockwise start q := by
  obtain ⟨⟨p, holder⟩, hfirst, rfl⟩ := Option.map_eq_some_iff.mp h
  obtain ⟨hmem, hle⟩ := clockwise_first_le r.toList_positions_up hfirst
  refine ⟨p, ExtTreeMap.mem_toList_iff_getElem?_eq_some.mp hmem, fun q other hq => ?_⟩
  exact hle (q, other) (ExtTreeMap.mem_toList_iff_getElem?_eq_some.mpr hq)

theorem holder?_eq_none_iff {r : Ring} {start : UInt64} :
    r.holder? start = none ↔ r.positions = ∅ := by
  rw [← ExtTreeMap.toList_eq_nil_iff, holder?, Option.map_eq_none_iff, Option.or_eq_none_iff,
    List.head?_eq_none_iff]
  exact ⟨fun h => h.2, fun h => ⟨by rw [h]; rfl, h⟩⟩

/-- While there are positions, the owner of a key holds the nearest. -/
theorem owner_spec {r : Ring} (hne : r.positions ≠ ∅) (key : String) :
    ∃ p : UInt64, r.positions[p]? = some (r.owner key) ∧ ∀ (q : UInt64) (other : String),
      r.positions[q]? = some other → clockwise (place key) p ≤ clockwise (place key) q := by
  cases hholder : r.holder? (place key) with
  | none => exact absurd (holder?_eq_none_iff.mp hholder) hne
  | some id =>
      have howner : r.owner key = id := by rw [owner, hholder, Option.getD_some]
      rw [howner]
      exact holder?_eq_some hholder

theorem owner_of_empty {r : Ring} (h : r.positions = ∅) (key : String) :
    r.owner key = r.localId := by
  rw [owner, holder?_eq_none_iff.mpr h, Option.getD_none]

/-- The nearest position is nobody else's. -/
theorem owner_eq_of_nearest {r : Ring} {key id : String} {p : UInt64}
    (hp : r.positions[p]? = some id)
    (hle : ∀ (q : UInt64) (other : String), r.positions[q]? = some other →
      clockwise (place key) p ≤ clockwise (place key) q) : r.owner key = id := by
  have hne : r.positions ≠ ∅ := by
    intro hempty
    rw [hempty] at hp
    simp at hp
  obtain ⟨q, hq, hleast⟩ := owner_spec hne key
  have hpq := clockwise_injective _ (UInt64.le_antisymm (hle q _ hq) (hleast p id hp))
  rw [hpq, hq] at hp
  exact Option.some.inj hp

end Ring

end ClusterCache
