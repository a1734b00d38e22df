import ClusterCache.SlotList
import Mathlib.Data.List.Nodup
import Mathlib.Data.List.Perm.Subperm

/-!
# Slot lists as sequences

A slot list holds a sequence of elements with their slots when every slot of the sequence names
its two neighbours, every other slot is vacant, and the vacant slots are the free ones.  Each
operation is then an operation on sequences: an insertion puts one element somewhere into the
sequence, under a slot that did not occur in it, and a removal takes one element out.
-/

namespace ClusterCache.SlotList

variable {α : Type}

/-! ## The links of a sequence -/

/-- The slot at the front of a sequence. -/
def headSlot (xs : List (Nat × α)) : Option Nat := xs.head?.map (·.1)

/-- The slot at the back of a sequence, or the one before the sequence if it is empty. -/
def backSlot : Option Nat → List (Nat × α) → Option Nat
  | prev, [] => prev
  | _, x :: xs => backSlot (some x.1) xs

/-- The link that a sequence asks for in a slot, when `prev` is the slot before the sequence. -/
def linkIn : Option Nat → List (Nat × α) → Nat → Option (Link α)
  | _, [], _ => none
  | prev, x :: xs, slot =>
      if slot = x.1 then some ⟨x.2, prev, headSlot xs⟩ else linkIn (some x.1) xs slot

@[simp] theorem headSlot_nil : headSlot ([] : List (Nat × α)) = none := rfl

@[simp] theorem headSlot_cons (x : Nat × α) (xs : List (Nat × α)) :
    headSlot (x :: xs) = some x.1 := rfl

theorem headSlot_append (xs ys : List (Nat × α)) :
    headSlot (xs ++ ys) = (headSlot xs).or (headSlot ys) := by
  cases xs <;> simp

@[simp] theorem backSlot_append (prev : Option Nat) (xs ys : List (Nat × α)) :
    backSlot prev (xs ++ ys) = backSlot (backSlot prev xs) ys := by
  induction xs generalizing prev with
  | nil => rfl
  | cons x xs ih => exact ih (some x.1)

theorem backSlot_mem {prev : Option Nat} {xs : List (Nat × α)} {slot : Nat}
    (h : backSlot prev xs = some slot) : prev = some slot ∧ xs = [] ∨ slot ∈ xs.map (·.1) := by
  induction xs generalizing prev with
  | nil => exact Or.inl ⟨h, rfl⟩
  | cons x xs ih =>
      rcases ih h with ⟨hx, _⟩ | hmem
      · exact Or.inr (by simp_all)
      · exact Or.inr (List.mem_cons_of_mem _ hmem)

@[simp] theorem backSlot_some_ne_none (prev : Nat) (xs : List (Nat × α)) :
    backSlot (some prev) xs ≠ none := by
  induction xs generalizing prev with
  | nil => simp [backSlot]
  | cons x xs ih => exact ih x.1

theorem headSlot_mem {xs : List (Nat × α)} {slot : Nat} (h : headSlot xs = some slot) :
    slot ∈ xs.map (·.1) := by
  cases xs with
  | nil => simp at h
  | cons x xs => simp_all

theorem linkIn_eq_none_iff {prev : Option Nat} {xs : List (Nat × α)} {slot : Nat} :
    linkIn prev xs slot = none ↔ slot ∉ xs.map (·.1) := by
  induction xs generalizing prev with
  | nil => simp [linkIn]
  | cons x xs ih =>
      by_cases hx : slot = x.1
      · simp [linkIn, hx]
      · simp only [linkIn, hx, if_false, List.map_cons, List.mem_cons, false_or]
        exact ih

theorem value_linkIn {prev : Option Nat} {xs : List (Nat × α)} (hnd : (xs.map (·.1)).Nodup)
    {slot : Nat} {value : α} :
    (linkIn prev xs slot).map (·.value) = some value ↔ (slot, value) ∈ xs := by
  induction xs generalizing prev with
  | nil => simp [linkIn]
  | cons x xs ih =>
      rw [List.map_cons, List.nodup_cons] at hnd
      by_cases hx : slot = x.1
      · subst hx
        have hfresh : (x.1, value) ∉ xs := fun hmem =>
          hnd.1 (List.mem_map.mpr ⟨_, hmem, rfl⟩)
        simp only [linkIn, if_true, Option.map_some, Option.some.injEq, List.mem_cons, hfresh,
          or_false]
        constructor
        · rintro rfl
          rfl
        · intro heq
          exact (congrArg Prod.snd heq).symm
      · simp only [linkIn, hx, if_false, List.mem_cons]
        rw [ih hnd.2]
        constructor
        · exact Or.inr
        · rintro (heq | hmem)
          · exact absurd (congrArg Prod.fst heq) hx
          · exact hmem

/-- A link after its neighbours have changed: the slot before `next` is now `newPrev`, the slot
after `prev` is now `newNext`. -/
def Link.rejoin (prev next newPrev newNext : Option Nat) (slot : Nat) (link : Link α) : Link α :=
  { link with
    prev := if next = some slot then newPrev else link.prev
    next := if prev = some slot then newNext else link.next }

theorem linkIn_append_of_notMem {prev : Option Nat} {xs ys : List (Nat × α)} {slot : Nat}
    (h : slot ∉ xs.map (·.1)) :
    linkIn prev (xs ++ ys) slot = linkIn (backSlot prev xs) ys slot := by
  induction xs generalizing prev with
  | nil => rfl
  | cons x xs ih =>
      rw [List.map_cons, List.mem_cons, not_or] at h
      simp only [List.cons_append, linkIn, h.1, if_false, backSlot]
      exact ih h.2

/-- Two sequences that differ in one stretch ask for the same links outside of it, but for the
neighbours of the stretch. -/
theorem linkIn_replace (prev : Option Nat) (xs ms ns ys : List (Nat × α)) {slot : Nat}
    (hnd : ((xs ++ ys).map (·.1)).Nodup)
    (hprev : prev = some slot → slot ∉ (xs ++ ys).map (·.1))
    (hms : slot ∉ ms.map (·.1)) (hns : slot ∉ ns.map (·.1)) :
    linkIn prev (xs ++ (ns ++ ys)) slot =
      (linkIn prev (xs ++ (ms ++ ys)) slot).map
        (Link.rejoin (backSlot prev xs) (headSlot ys) (backSlot prev (xs ++ ns))
          (headSlot (ns ++ ys)) slot) := by
  induction xs generalizing prev with
  | nil =>
      simp only [List.nil_append, backSlot] at hprev ⊢
      rw [linkIn_append_of_notMem hms, linkIn_append_of_notMem hns]
      cases ys with
      | nil => rfl
      | cons y ys =>
          by_cases hy : slot = y.1
          · have hback : prev ≠ some slot := fun h => hprev h (by simp [hy])
            simp [linkIn, Link.rejoin, hy, hy ▸ hback]
          · have hhead : headSlot (y :: ys) ≠ some slot := by simpa using Ne.symm hy
            simp only [linkIn, hy, if_false]
            cases hl : linkIn (some y.1) ys slot with
            | none => rfl
            | some link =>
                have hmem : slot ∈ ys.map (·.1) := by
                  by_contra hn
                  rw [linkIn_eq_none_iff.mpr hn] at hl
                  exact absurd hl (by simp)
                have hback : prev ≠ some slot := fun h => hprev h (by simp [hmem])
                simp only [Option.map_some, Link.rejoin, hhead, hback, if_false]
  | cons x xs ih =>
      rw [List.cons_append, List.map_cons, List.nodup_cons] at hnd
      by_cases hx : slot = x.1
      · have hys : headSlot ys ≠ some slot := fun h => hnd.1 (by
          rw [List.map_append, List.mem_append, ← hx]
          exact Or.inr (headSlot_mem h))
        simp only [List.cons_append, linkIn, hx, if_true, Option.map_some, Link.rejoin, backSlot]
        rw [hx] at hys
        cases xs with
        | nil => simp [backSlot, hys]
        | cons z zs =>
            have hback : backSlot (some x.1) (z :: zs) ≠ some x.1 := fun h => by
              rcases backSlot_mem h with ⟨_, hnil⟩ | hmem
              · exact absurd hnil (by simp)
              · exact hnd.1 (by rw [List.map_append]; exact List.mem_append_left _ hmem)
            simp [hys, hback]
      · simp only [List.cons_append, linkIn, hx, if_false, backSlot]
        exact ih _ hnd.2 fun h => absurd (Option.some.inj h).symm hx

/-! ## Links after the basic changes -/

theorem link?_adjust (l : SlotList α) (slot : Nat) (change : Link α → Link α) (other : Nat) :
    (l.adjust slot change).link? other =
      if other = slot then (l.link? other).map change else l.link? other := by
  simp only [adjust, link?, Array.getElem?_modify]
  by_cases h : slot = other
  · subst h
    cases l.slots[slot]? <;> simp
  · simp [h, Ne.symm h]

/-- Setting the neighbours of a gap changes the links beside the gap and nothing else. -/
theorem link?_setNext_setPrev (l : SlotList α) (prev next newPrev newNext : Option Nat)
    (slot : Nat) :
    ((l.setNext prev newNext).setPrev next newPrev).link? slot =
      (l.link? slot).map (Link.rejoin prev next newPrev newNext slot) := by
  have hnext : (l.setNext prev newNext).link? slot =
      (l.link? slot).map (Link.rejoin prev none none newNext slot) := by
    cases prev with
    | none => cases h : l.link? slot <;> simp_all [setNext, link?, Link.rejoin]
    | some p =>
        rw [setNext, link?_adjust]
        by_cases hp : slot = p
        · cases h : l.link? slot <;> simp_all [Link.rejoin]
        · cases l.link? slot <;> simp [hp, Link.rejoin, Ne.symm hp]
  cases next with
  | none =>
      have hprev : ∀ m : SlotList α, (m.setPrev none newPrev).link? slot = m.link? slot :=
        fun _ => rfl
      rw [hprev, hnext]
      cases l.link? slot <;> simp [Link.rejoin]
  | some n =>
      rw [setPrev, link?_adjust, hnext]
      by_cases hn : slot = n
      · cases l.link? slot <;> simp [hn, Link.rejoin]
      · cases l.link? slot <;> simp [hn, Link.rejoin, Ne.symm hn]

@[simp] theorem size_slots_setNext (l : SlotList α) (slot next : Option Nat) :
    (l.setNext slot next).slots.size = l.slots.size := by
  cases slot <;> simp [setNext, adjust]

@[simp] theorem size_slots_setPrev (l : SlotList α) (slot prev : Option Nat) :
    (l.setPrev slot prev).slots.size = l.slots.size := by
  cases slot <;> simp [setPrev, adjust]

@[simp] theorem free_setNext (l : SlotList α) (slot next : Option Nat) :
    (l.setNext slot next).free = l.free := by
  cases slot <;> rfl

@[simp] theorem free_setPrev (l : SlotList α) (slot prev : Option Nat) :
    (l.setPrev slot prev).free = l.free := by
  cases slot <;> rfl

@[simp] theorem length_setNext (l : SlotList α) (slot next : Option Nat) :
    (l.setNext slot next).length = l.length := by
  cases slot <;> rfl

@[simp] theorem length_setPrev (l : SlotList α) (slot prev : Option Nat) :
    (l.setPrev slot prev).length = l.length := by
  cases slot <;> rfl

theorem first_setNext_setPrev (l : SlotList α) (prev next newPrev newNext : Option Nat) :
    ((l.setNext prev newNext).setPrev next newPrev).first =
      if prev = none then newNext else l.first := by
  cases prev <;> cases next <;> rfl

theorem last_setNext_setPrev (l : SlotList α) (prev next newPrev newNext : Option Nat) :
    ((l.setNext prev newNext).setPrev next newPrev).last =
      if next = none then newPrev else l.last := by
  cases prev <;> cases next <;> rfl

theorem lt_size_of_link? {l : SlotList α} {slot : Nat} {link : Link α}
    (h : l.link? slot = some link) : slot < l.slots.size := by
  by_contra hn
  simp [link?, Array.getElem?_eq_none (Nat.le_of_not_lt hn)] at h

/-! ## Sequences held by a list -/

/-- The list holds exactly these elements, in this order, in these slots. -/
structure Holds (l : SlotList α) (xs : List (Nat × α)) : Prop where
  nodup : (xs.map (·.1)).Nodup
  link : ∀ slot, l.link? slot = linkIn none xs slot
  first : l.first = headSlot xs
  last : l.last = backSlot none xs
  length : l.length = xs.length
  freeNodup : l.free.Nodup
  mem_free : ∀ slot, slot ∈ l.free ↔ slot < l.slots.size ∧ l.link? slot = none

theorem holds_empty : Holds (empty : SlotList α) [] where
  nodup := List.nodup_nil
  link := fun slot => by simp [empty, link?, linkIn]
  first := rfl
  last := rfl
  length := rfl
  freeNodup := List.nodup_nil
  mem_free := fun slot => by simp [empty]

theorem alloc_spec {l : SlotList α} {xs : List (Nat × α)} (h : Holds l xs) (link : Link α) :
    l.link? (l.alloc link).2 = none ∧
    (∀ slot, (l.alloc link).1.link? slot =
      if slot = (l.alloc link).2 then some link else l.link? slot) ∧
    (l.alloc link).1.first = l.first ∧ (l.alloc link).1.last = l.last ∧
    (l.alloc link).1.length = l.length + 1 ∧ (l.alloc link).1.free.Nodup ∧
    ∀ slot, slot ∈ (l.alloc link).1.free ↔
      slot < (l.alloc link).1.slots.size ∧ (l.alloc link).1.link? slot = none := by
  have hfree := h.mem_free
  have hnd := h.freeNodup
  cases hf : l.free with
  | nil =>
      have hnew : ∀ slot, (l.slots.push (some link))[slot]?.join =
          if slot = l.slots.size then some link else l.slots[slot]?.join := by
        intro slot
        rw [Array.getElem?_push]
        by_cases hs : slot = l.slots.size <;> simp [hs]
      simp only [alloc, hf]
      refine ⟨by simp [link?], hnew, trivial, trivial, trivial, hf ▸ hnd, fun slot => ?_⟩
      have hmem := hfree slot
      simp only [hf, List.not_mem_nil, false_iff, not_and, link?] at hmem
      simp only [List.not_mem_nil, false_iff, not_and, link?, Array.size_push]
      rw [hnew]
      intro hlt
      by_cases hs : slot = l.slots.size
      · simp [hs]
      · simp only [hs, if_false]
        exact hmem (by omega)
  | cons s rest =>
      have hs := (hfree s).mp (by simp [hf])
      rw [hf, List.nodup_cons] at hnd
      have hnew : ∀ slot, (l.slots.setIfInBounds s (some link))[slot]?.join =
          if slot = s then some link else l.slots[slot]?.join := by
        intro slot
        rw [Array.getElem?_setIfInBounds]
        by_cases hss : s = slot
        · subst hss
          simp [hs.1]
        · simp [hss, Ne.symm hss]
      simp only [alloc, hf]
      refine ⟨hs.2, hnew, trivial, trivial, trivial, hnd.2, fun slot => ?_⟩
      have hmem := hfree slot
      simp only [hf, List.mem_cons, link?] at hmem
      simp only [link?, Array.size_setIfInBounds]
      rw [hnew]
      by_cases hss : slot = s
      · simp [hss, hnd.1]
      · simp only [hss, if_false, ← hmem, false_or]

/-! ## Insertion -/

theorem holds_insertBetween {l : SlotList α} (xs ys : List (Nat × α)) (h : Holds l (xs ++ ys))
    (value : α) :
    Holds (l.insertBetween (backSlot none xs) (headSlot ys) value).1
      (xs ++ ((l.insertBetween (backSlot none xs) (headSlot ys) value).2, value) :: ys) := by
  obtain ⟨hvacant, hlink, hfirst, hlast, hlength, hfreeNodup, hfree⟩ :=
    alloc_spec h ⟨value, backSlot none xs, headSlot ys⟩
  simp only [insertBetween]
  generalize l.alloc ⟨value, backSlot none xs, headSlot ys⟩ = allocated at *
  obtain ⟨m, s⟩ := allocated
  simp only at hvacant hlink hfirst hlast hlength hfreeNodup hfree ⊢
  have hfresh : s ∉ (xs ++ ys).map (·.1) := by
    rw [← linkIn_eq_none_iff, ← h.link]
    exact hvacant
  have hback : backSlot none xs ≠ some s := fun hb => by
    rcases backSlot_mem hb with ⟨hn, _⟩ | hmem
    · exact absurd hn (by simp)
    · exact hfresh (by rw [List.map_append]; exact List.mem_append_left _ hmem)
  have hhead : headSlot ys ≠ some s := fun hb =>
    hfresh (by rw [List.map_append]; exact List.mem_append_right _ (headSlot_mem hb))
  have hnd : ((xs ++ (s, value) :: ys).map (·.1)).Nodup := by
    rw [List.map_append, List.map_cons, List.nodup_middle, ← List.map_append, List.nodup_cons]
    exact ⟨hfresh, h.nodup⟩
  have hnew : ∀ slot, ((m.setNext (backSlot none xs) (some s)).setPrev (headSlot ys)
      (some s)).link? slot = linkIn none (xs ++ (s, value) :: ys) slot := by
    intro slot
    rw [link?_setNext_setPrev, hlink]
    by_cases hs : slot = s
    · subst hs
      rw [linkIn_append_of_notMem (fun hm => hfresh (by
        rw [List.map_append]; exact List.mem_append_left _ hm))]
      simp [linkIn, Link.rejoin, hback, hhead]
    · rw [if_neg hs, h.link]
      have hrep := linkIn_replace none xs [] [(s, value)] ys h.nodup
        (by simp) (by simp) (by simpa using hs)
      simpa [backSlot] using hrep.symm
  refine ⟨hnd, hnew, ?_, ?_, ?_, by simpa using hfreeNodup, fun slot => ?_⟩
  · rw [first_setNext_setPrev, hfirst, h.first, headSlot_append, headSlot_append]
    cases xs with
    | nil => simp [backSlot]
    | cons x xs =>
        simp [backSlot]
  · rw [last_setNext_setPrev, hlast, h.last, backSlot_append, backSlot_append]
    cases ys with
    | nil => simp [backSlot]
    | cons y ys => simp [backSlot]
  · simp [hlength, h.length]
    omega
  · rw [free_setPrev, free_setNext, size_slots_setPrev, size_slots_setNext, hfree,
      link?_setNext_setPrev]
    simp

theorem holds_pushBack {l : SlotList α} {xs : List (Nat × α)} (h : Holds l xs) (value : α) :
    Holds (l.pushBack value).1 (xs ++ [((l.pushBack value).2, value)]) := by
  have hins := holds_insertBetween xs [] (by simpa using h) value
  rw [pushBack, h.last]
  exact hins

theorem holds_pushFront {l : SlotList α} {xs : List (Nat × α)} (h : Holds l xs) (value : α) :
    Holds (l.pushFront value).1 (((l.pushFront value).2, value) :: xs) := by
  have hins := holds_insertBetween [] xs h value
  rw [pushFront, h.first]
  exact hins

theorem Holds.link_middle {l : SlotList α} {xs ys : List (Nat × α)} {slot : Nat} {value : α}
    (h : Holds l (xs ++ (slot, value) :: ys)) :
    l.link? slot = some ⟨value, backSlot none xs, headSlot ys⟩ := by
  have hfresh : slot ∉ xs.map (·.1) := by
    have hnd := h.nodup
    rw [List.map_append, List.map_cons, List.nodup_middle, List.nodup_cons, List.mem_append] at hnd
    exact fun hm => hnd.1 (Or.inl hm)
  rw [h.link, linkIn_append_of_notMem hfresh]
  simp [linkIn]

theorem holds_insertAfter? {l : SlotList α} {xs ys : List (Nat × α)} {slot : Nat} {before : α}
    (h : Holds l (xs ++ (slot, before) :: ys)) (value : α) :
    ∃ m new, l.insertAfter? slot value = some (m, new) ∧
      Holds m (xs ++ (slot, before) :: (new, value) :: ys) := by
  have hins := holds_insertBetween (xs ++ [(slot, before)]) ys
    (by simpa using h) value
  rw [backSlot_append, backSlot, backSlot] at hins
  refine ⟨_, _, by rw [insertAfter?, h.link_middle, Option.map_some], ?_⟩
  simpa using hins

theorem insertAfter?_eq_none {l : SlotList α} {xs : List (Nat × α)} (h : Holds l xs) {slot : Nat}
    (hs : slot ∉ xs.map (·.1)) (value : α) : l.insertAfter? slot value = none := by
  rw [insertAfter?, h.link, linkIn_eq_none_iff.mpr hs, Option.map_none]

/-! ## Removal -/

theorem holds_remove? {l : SlotList α} {xs ys : List (Nat × α)} {slot : Nat} {value : α}
    (h : Holds l (xs ++ (slot, value) :: ys)) :
    ∃ m, l.remove? slot = some (m, value) ∧ Holds m (xs ++ ys) := by
  have hlink := h.link_middle
  have hnd := h.nodup
  rw [List.map_append, List.map_cons, List.nodup_middle, ← List.map_append,
    List.nodup_cons] at hnd
  refine ⟨_, by rw [remove?, hlink, Option.map_some], ?_⟩
  have hvacated : ∀ other, (l.slots.setIfInBounds slot none)[other]?.join =
      if other = slot then none else l.link? other := by
    intro other
    rw [Array.getElem?_setIfInBounds, link?]
    by_cases hs : slot = other
    · subst hs
      by_cases hlt : slot < l.slots.size <;> simp [hlt]
    · simp [hs, Ne.symm hs]
  have hnew : ∀ other, ((({ l with slots := l.slots.setIfInBounds slot none } : SlotList α).setNext
      (backSlot none xs) (headSlot ys)).setPrev (headSlot ys) (backSlot none xs)).link? other =
        linkIn none (xs ++ ys) other := by
    intro other
    rw [link?_setNext_setPrev, link?, hvacated]
    by_cases hs : other = slot
    · rw [if_pos hs, hs, linkIn_eq_none_iff.mpr hnd.1, Option.map_none]
    · rw [if_neg hs, h.link]
      have hrep := linkIn_replace none xs [(slot, value)] [] ys hnd.2
        (by simp) (by simpa using hs) (by simp)
      simpa using hrep.symm
  refine ⟨hnd.2, hnew, ?_, ?_, ?_, ?_, fun other => ?_⟩
  · simp only
    rw [first_setNext_setPrev, h.first]
    cases xs <;> simp [backSlot]
  · simp only
    rw [last_setNext_setPrev, h.last, backSlot_append, backSlot_append]
    cases ys <;> simp [backSlot]
  · have hlen := h.length
    simp only [List.length_append, List.length_cons] at hlen ⊢
    simp [hlen]
  · simp only [free_setPrev, free_setNext, List.nodup_cons]
    refine ⟨fun hm => ?_, h.freeNodup⟩
    exact absurd ((h.mem_free slot).mp hm).2 (by simp [hlink])
  · simp only [free_setPrev, free_setNext, size_slots_setPrev, size_slots_setNext,
      Array.size_setIfInBounds, List.mem_cons]
    have hslot := lt_size_of_link? hlink
    have hgone : linkIn none (xs ++ ys) slot = none := linkIn_eq_none_iff.mpr hnd.1
    change _ ↔ _ ∧ (((({ l with slots := l.slots.setIfInBounds slot none } : SlotList α).setNext
      (backSlot none xs) (headSlot ys)).setPrev (headSlot ys) (backSlot none xs)).link? other) = none
    rw [hnew, h.mem_free, h.link]
    by_cases hs : other = slot
    · subst hs
      simp [hslot, hgone]
    · simp [hs, linkIn_eq_none_iff]

theorem remove?_eq_none {l : SlotList α} {xs : List (Nat × α)} (h : Holds l xs) {slot : Nat}
    (hs : slot ∉ xs.map (·.1)) : l.remove? slot = none := by
  rw [remove?, h.link, linkIn_eq_none_iff.mpr hs, Option.map_none]

theorem holds_erase {l : SlotList α} {xs ys : List (Nat × α)} {slot : Nat} {value : α}
    (h : Holds l (xs ++ (slot, value) :: ys)) : Holds (l.erase slot) (xs ++ ys) := by
  obtain ⟨m, hm, hh⟩ := holds_remove? h
  rw [erase, hm]
  exact hh

/-! ## Reading and writing -/

theorem get?_eq_some_iff {l : SlotList α} {xs : List (Nat × α)} (h : Holds l xs) {slot : Nat}
    {value : α} : l.get? slot = some value ↔ (slot, value) ∈ xs := by
  rw [get?, h.link]
  exact value_linkIn h.nodup

/-- A value that is written over changes no other link. -/
theorem linkIn_write {prev : Option Nat} {xs ys : List (Nat × α)} {slot other : Nat}
    (old value : α) (hs : other ≠ slot) :
    linkIn prev (xs ++ (slot, value) :: ys) other = linkIn prev (xs ++ (slot, old) :: ys) other := by
  induction xs generalizing prev with
  | nil => simp [linkIn, hs]
  | cons x xs ih =>
      have hhead : headSlot (xs ++ (slot, value) :: ys) = headSlot (xs ++ (slot, old) :: ys) := by
        simp [headSlot_append]
      simp only [List.cons_append, linkIn, hhead, ih]

theorem holds_set {l : SlotList α} {xs ys : List (Nat × α)} {slot : Nat} {old : α}
    (h : Holds l (xs ++ (slot, old) :: ys)) (value : α) :
    Holds (l.set slot value) (xs ++ (slot, value) :: ys) := by
  have hlink : ∀ other, (l.set slot value).link? other =
      linkIn none (xs ++ (slot, value) :: ys) other := by
    intro other
    rw [set, link?_adjust]
    by_cases hs : other = slot
    · have hnd := h.nodup
      rw [List.map_append, List.map_cons, List.nodup_middle, List.nodup_cons,
        List.mem_append] at hnd
      rw [if_pos hs, hs, h.link_middle, linkIn_append_of_notMem fun hm => hnd.1 (Or.inl hm)]
      simp [linkIn]
    · rw [if_neg hs, h.link, linkIn_write old value hs]
  refine ⟨by simpa using h.nodup, hlink, ?_, ?_, ?_, h.freeNodup, fun other => ?_⟩
  · have hfirst := h.first
    rw [headSlot_append, headSlot_cons] at hfirst ⊢
    exact hfirst
  · have hlast := h.last
    rw [backSlot_append, backSlot] at hlast ⊢
    exact hlast
  · have hlength := h.length
    rw [List.length_append, List.length_cons] at hlength ⊢
    exact hlength
  · rw [hlink]
    change other ∈ l.free ↔ other < (l.slots.modify slot _).size ∧ _
    rw [Array.size_modify, h.mem_free, h.link, linkIn_eq_none_iff, linkIn_eq_none_iff]
    simp

theorem front?_eq {l : SlotList α} {xs : List (Nat × α)} (h : Holds l xs) :
    l.front? = (xs.map (·.2)).head? := by
  rw [front?, h.first]
  cases xs with
  | nil => rfl
  | cons x xs =>
      rw [headSlot_cons, Option.bind_some, List.map_cons, List.head?_cons]
      exact (get?_eq_some_iff h).mpr (by simp)

theorem isEmpty_iff {l : SlotList α} {xs : List (Nat × α)} (h : Holds l xs) :
    l.isEmpty = true ↔ xs = [] := by
  rw [isEmpty, h.length, decide_eq_true_iff, List.length_eq_zero_iff]

/-- Following the links from an element on reads the sequence from there on. -/
theorem walk_eq {l : SlotList α} (xs ys : List (Nat × α)) (h : Holds l (xs ++ ys)) {fuel : Nat}
    (hfuel : ys.length ≤ fuel) : l.walk fuel (headSlot ys) = ys := by
  induction ys generalizing xs fuel with
  | nil => cases fuel <;> rfl
  | cons y ys ih =>
      cases fuel with
      | zero => simp at hfuel
      | succ fuel =>
          have hrest := ih (xs ++ [y]) (by simpa using h)
            (by simpa using hfuel)
          rw [headSlot_cons, walk, h.link_middle]
          simp [hrest]

theorem length_le_size {l : SlotList α} {xs : List (Nat × α)} (h : Holds l xs) :
    xs.length ≤ l.slots.size := by
  have hsub : xs.map (·.1) ⊆ List.range l.slots.size := by
    intro slot hm
    rw [List.mem_range]
    cases hl : l.link? slot with
    | none =>
        rw [h.link, linkIn_eq_none_iff] at hl
        exact absurd hm hl
    | some link => exact lt_size_of_link? hl
  have hlen := (h.nodup.subperm hsub).length_le
  simpa using hlen

theorem entries_eq {l : SlotList α} {xs : List (Nat × α)} (h : Holds l xs) : l.entries = xs := by
  rw [entries, h.first]
  exact walk_eq [] xs h (length_le_size h)

theorem toList_eq {l : SlotList α} {xs : List (Nat × α)} (h : Holds l xs) :
    l.toList = xs.map (·.2) := by
  rw [toList, entries_eq h]

end ClusterCache.SlotList
