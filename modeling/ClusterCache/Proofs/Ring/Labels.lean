import ClusterCache.Proofs.Ring.Members
import ClusterCache.Proofs.Text.Blank

/-!
# Labels of positions

The index of a position is written in digits, so that the last dash of a label is the one in front
of the index, whatever dashes and digits the id has.  A label therefore tells which position of
which member it belongs to, and two positions fall together only where the places of two different
texts do.
-/

namespace ClusterCache

variable {a b : String} {i j : Nat}

/-- Different texts that have the same place. -/
def Collide (s t : String) : Prop := s ≠ t ∧ place s = place t

/-! ## Reading a label -/

theorem dash_notMem_toDigits (i : Nat) : '-' ∉ Nat.toDigits 10 i := by
  intro hdash
  have hdigit := Nat.isDigit_of_mem_toDigits (by decide) (Nat.le_refl 10) hdash
  exact absurd hdigit (by decide)

theorem toDigits_injective : Function.Injective (Nat.toDigits 10) := by
  apply Function.LeftInverse.injective (g := fun digits => Nat.ofDigitChars 10 digits 0)
  exact fun i => Nat.ofDigitChars_ten_toDigits

theorem toList_positionLabel (id : String) (i : Nat) :
    (positionLabel id i).toList = id.toList ++ '-' :: Nat.toDigits 10 i := by
  simp [positionLabel]

/-- From its end, a label is cut at the first dash into its index and its id. -/
theorem splitFirst?_reverse_positionLabel (id : String) (i : Nat) :
    Text.splitFirst? '-' (positionLabel id i).toList.reverse =
      some ((Nat.toDigits 10 i).reverse, id.toList.reverse) := by
  have hdash : '-' ∉ (Nat.toDigits 10 i).reverse := by
    simpa using dash_notMem_toDigits i
  have hlabel : (positionLabel id i).toList.reverse =
      (Nat.toDigits 10 i).reverse ++ '-' :: id.toList.reverse := by
    simp [toList_positionLabel]
  rw [hlabel]
  exact Text.splitFirst?_append hdash _

theorem positionLabel_eq_iff : positionLabel a i = positionLabel b j ↔ a = b ∧ i = j := by
  constructor
  · intro h
    have hcut := splitFirst?_reverse_positionLabel a i
    rw [h, splitFirst?_reverse_positionLabel b j, Option.some.injEq, Prod.mk.injEq] at hcut
    obtain ⟨hindex, hid⟩ := hcut
    constructor
    · apply String.toList_injective
      exact List.reverse_injective hid.symm
    · apply toDigits_injective
      exact List.reverse_injective hindex.symm
  · rintro ⟨rfl, rfl⟩
    rfl

/-! ## Positions that fall together -/

theorem place_positionLabel_eq_iff : place (positionLabel a i) = place (positionLabel b j) ↔
    a = b ∧ i = j ∨ Collide (positionLabel a i) (positionLabel b j) := by
  rw [← positionLabel_eq_iff]
  constructor
  · intro hplace
    by_cases hlabel : positionLabel a i = positionLabel b j
    · exact Or.inl hlabel
    · exact Or.inr ⟨hlabel, hplace⟩
  · rintro (hlabel | hcollide)
    · exact congrArg place hlabel
    · exact hcollide.2

namespace Ring

theorem getElem?_claims_eq_some {r : Ring} {p : UInt64} (h : (r.claims a)[i]? = some p) :
    p = place (positionLabel a i) := by
  obtain ⟨_, rfl⟩ := List.getElem?_eq_some_iff.mp h
  simp [claims]

/-- That all positions are different says no more than that no two of their labels collide. -/
theorem spread_iff {replicas : Nat} {es : List Edit} : Spread replicas es ↔
    ∀ id other, Added es id → Added es other → ∀ i < replicas, ∀ j < replicas,
      ¬ Collide (positionLabel id i) (positionLabel other j) := by
  constructor
  · intro h id other hid hother i hi j hj hcollide
    obtain ⟨rfl, rfl⟩ := h id other hid hother i hi j hj hcollide.2
    exact hcollide.1 rfl
  · intro h id other hid hother i hi j hj hplace
    apply (place_positionLabel_eq_iff.mp hplace).resolve_right
    exact h id other hid hother i hi j hj

/-- A label belongs to one position of one member.  So positions that members claim, of one ring or
of two, are the same only if they are one position of one member or if their labels collide. -/
theorem labels_unambiguous (a b : String) (i j : Nat) :
    (positionLabel a i = positionLabel b j ↔ a = b ∧ i = j) ∧
      ∀ (r r' : Ring) (p q : UInt64), (r.claims a)[i]? = some p → (r'.claims b)[j]? = some q →
        (p = q ↔ a = b ∧ i = j ∨ Collide (positionLabel a i) (positionLabel b j)) := by
  refine ⟨positionLabel_eq_iff, ?_⟩
  intro r r' p q hp hq
  rw [getElem?_claims_eq_some hp, getElem?_claims_eq_some hq]
  exact place_positionLabel_eq_iff

/-- The eleventh position of one member and the first of another whose id looks like a label. -/
theorem labels_unambiguous_of_dashes :
    let r := empty "n" 11
    (r.claims "n")[10]? = some (place "n-10") ∧ (r.claims "n-1")[0]? = some (place "n-1-0") ∧
      positionLabel "n" 10 ≠ positionLabel "n-1" 0 ∧
      (place "n-10" = place "n-1-0" ↔ Collide "n-10" "n-1-0") := by
  intro r
  have hten : positionLabel "n" 10 = "n-10" := by decide +kernel
  have hzero : positionLabel "n-1" 0 = "n-1-0" := by decide +kernel
  have hn : (r.claims "n")[10]? = some (place "n-10") := by decide +kernel
  have hlonger : (r.claims "n-1")[0]? = some (place "n-1-0") := by decide +kernel
  obtain ⟨hlabel, hclaims⟩ := labels_unambiguous "n" "n-1" 10 0
  have hother : ¬ ("n" = "n-1" ∧ 10 = 0) := by decide
  have hplaces := hclaims r r _ _ hn hlonger
  rw [or_iff_right hother, hten, hzero] at hplaces
  exact ⟨hn, hlonger, hlabel.not.mpr hother, hplaces⟩

end Ring

end ClusterCache
