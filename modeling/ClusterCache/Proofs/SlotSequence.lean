import ClusterCache.Proofs.SlotList
import Mathlib.Data.List.Induction
import Mathlib.Order.Bounds.Basic

/-!
# Slot lists through a run

Whatever is done with a slot list, with numbers of slots that are in use, given up or never handed
out, it answers as a plain sequence of numbered elements does, and it can be read as that sequence.
The sequence remembers the numbers that were given up, the latest first, and gives them to new
elements before it makes new ones.  One use of the list is compared with one use of the sequence, and
from that a run with a run.
-/

namespace ClusterCache.SlotList

variable {α : Type}

/-! ## Uses -/

/-- What can be done with a list.  A slot may be any number. -/
inductive Use (α : Type) where
  | pushBack (value : α)
  | pushFront (value : α)
  | insertAfter (slot : Nat) (value : α)
  | remove (slot : Nat)
  | set (slot : Nat) (value : α)
  | popFront
deriving DecidableEq

/-- What comes back: a slot for a new element, or an element that was taken out or written over. -/
inductive Answer (α : Type) where
  | slot (slot : Option Nat)
  | element (value : Option α)
deriving DecidableEq

/-- One use of a list.  A slot in which nothing is leaves the list as it is. -/
def use (l : SlotList α) : Use α → SlotList α × Answer α
  | .pushBack value => ((l.pushBack value).1, .slot (some (l.pushBack value).2))
  | .pushFront value => ((l.pushFront value).1, .slot (some (l.pushFront value).2))
  | .insertAfter slot value =>
    match l.insertAfter? slot value with
    | some (l, new) => (l, .slot (some new))
    | none => (l, .slot none)
  | .remove slot =>
    match l.remove? slot with
    | some (l, value) => (l, .element (some value))
    | none => (l, .element none)
  | .set slot value => (l.set slot value, .element (l.get? slot))
  | .popFront =>
    match l.popFront? with
    | some (l, value) => (l, .element (some value))
    | none => (l, .element none)

/-- One use after the other, with what comes back. -/
def run (l : SlotList α) : List (Use α) → SlotList α × List (Answer α)
  | [] => (l, [])
  | u :: us => (((l.use u).1.run us).1, (l.use u).2 :: ((l.use u).1.run us).2)

/-! ## Plain sequences -/

/-- Numbered elements in order, and the numbers that were given up, the latest first. -/
structure Row (α : Type) where
  items : List (Nat × α) := []
  vacated : List Nat := []

namespace Row

def numbers (r : Row α) : List Nat := r.items.map (·.1)

/-- The number of the next element: the one given up last or else the first that was never handed
out. -/
def fresh (r : Row α) : Nat := r.vacated.head?.getD r.items.length

/-- How many numbers were ever handed out. -/
def size (r : Row α) : Nat := r.items.length + r.vacated.length

/-- Makes room for an element under the next number. -/
def insert (r : Row α) (items : List (Nat × α)) : Row α × Answer α :=
  ({ items, vacated := r.vacated.tail }, .slot (some r.fresh))

def use (r : Row α) : Use α → Row α × Answer α
  | .pushBack value => r.insert (r.items ++ [(r.fresh, value)])
  | .pushFront value => r.insert ((r.fresh, value) :: r.items)
  | .insertAfter slot value =>
    if slot ∈ r.numbers then
      r.insert (r.items.flatMap fun x => if x.1 = slot then [x, (r.fresh, value)] else [x])
    else (r, .slot none)
  | .remove slot =>
    match r.items.lookup slot with
    | some value =>
      ({ items := r.items.filter (·.1 ≠ slot), vacated := slot :: r.vacated },
        .element (some value))
    | none => (r, .element none)
  | .set slot value =>
    ({ r with items := r.items.map fun x => if x.1 = slot then (slot, value) else x },
      .element (r.items.lookup slot))
  | .popFront =>
    match r.items with
    | x :: items => ({ items, vacated := x.1 :: r.vacated }, .element (some x.2))
    | [] => (r, .element none)

def run (r : Row α) : List (Use α) → Row α × List (Answer α)
  | [] => (r, [])
  | u :: us => (((r.use u).1.run us).1, (r.use u).2 :: ((r.use u).1.run us).2)

theorem mem_numbers_iff {r : Row α} {slot : Nat} :
    slot ∈ r.numbers ↔ ∃ xs value ys, r.items = xs ++ (slot, value) :: ys := by
  constructor
  · intro h
    obtain ⟨⟨_, value⟩, hmem, rfl⟩ := List.mem_map.mp h
    obtain ⟨xs, ys, hitems⟩ := List.append_of_mem hmem
    exact ⟨xs, value, ys, hitems⟩
  · rintro ⟨xs, value, ys, hitems⟩
    simp [numbers, hitems]

theorem lookup_eq_none {r : Row α} {slot : Nat} (h : slot ∉ r.numbers) :
    r.items.lookup slot = none := by
  rw [List.lookup_eq_none_iff]
  intro x hx
  rw [bne_iff_ne]
  rintro rfl
  exact h (List.mem_map_of_mem hx)

/-! ### A use of a number that occurs -/

section Occurs

variable {r : Row α} {xs ys : List (Nat × α)} {slot : Nat} {value : α}

/-- A number that occurs in one place occurs in no other. -/
theorem ne_of_mem (hnd : r.numbers.Nodup) (hitems : r.items = xs ++ (slot, value) :: ys) :
    ∀ x ∈ xs ++ ys, x.1 ≠ slot := by
  rw [numbers, hitems, List.map_append, List.map_cons, List.nodup_middle, ← List.map_append,
    List.nodup_cons] at hnd
  rintro x hx rfl
  exact hnd.1 (List.mem_map.mpr ⟨x, hx, rfl⟩)

theorem lookup_middle (hnd : r.numbers.Nodup) (hitems : r.items = xs ++ (slot, value) :: ys) :
    r.items.lookup slot = some value := by
  rw [List.lookup_eq_some_iff]
  refine ⟨xs, ys, hitems, fun x hx => ?_⟩
  rw [bne_iff_ne]
  exact (ne_of_mem hnd hitems x (List.mem_append_left ys hx)).symm

theorem use_insertAfter (hnd : r.numbers.Nodup) (hitems : r.items = xs ++ (slot, value) :: ys)
    (new : α) : r.use (.insertAfter slot new) =
      r.insert (xs ++ (slot, value) :: (r.fresh, new) :: ys) := by
  have hapart := ne_of_mem hnd hitems
  have hkept : ∀ zs : List (Nat × α), (∀ x ∈ zs, x.1 ≠ slot) →
      (zs.flatMap fun x => if x.1 = slot then [x, (r.fresh, new)] else [x]) = zs := by
    intro zs hzs
    rw [List.flatMap_congr fun x hx => if_neg (hzs x hx)]
    exact List.flatMap_singleton' zs
  rw [use, if_pos (mem_numbers_iff.mpr ⟨xs, value, ys, hitems⟩), hitems, List.flatMap_append,
    List.flatMap_cons, hkept xs fun x hx => hapart x (List.mem_append_left ys hx),
    hkept ys fun x hx => hapart x (List.mem_append_right xs hx), if_pos rfl]
  rfl

theorem use_remove (hnd : r.numbers.Nodup) (hitems : r.items = xs ++ (slot, value) :: ys) :
    r.use (.remove slot) =
      ({ items := xs ++ ys, vacated := slot :: r.vacated }, .element (some value)) := by
  have hapart := ne_of_mem hnd hitems
  have hkept : (xs ++ ys).filter (·.1 ≠ slot) = xs ++ ys :=
    List.filter_eq_self.mpr fun x hx => decide_eq_true (hapart x hx)
  simp only [use, lookup_middle hnd hitems]
  rw [hitems, List.filter_append, List.filter_cons_of_neg (by simp), ← List.filter_append, hkept]

theorem use_set (hnd : r.numbers.Nodup) (hitems : r.items = xs ++ (slot, value) :: ys) (new : α) :
    r.use (.set slot new) =
      ({ r with items := xs ++ (slot, new) :: ys }, .element (some value)) := by
  have hapart := ne_of_mem hnd hitems
  have hkept : ∀ zs : List (Nat × α), (∀ x ∈ zs, x.1 ≠ slot) →
      (zs.map fun x => if x.1 = slot then (slot, new) else x) = zs := by
    intro zs hzs
    rw [List.map_congr_left fun x hx => if_neg (hzs x hx), List.map_id']
  rw [use, lookup_middle hnd hitems, hitems, List.map_append, List.map_cons, if_pos rfl,
    hkept xs fun x hx => hapart x (List.mem_append_left ys hx),
    hkept ys fun x hx => hapart x (List.mem_append_right xs hx)]

end Occurs

/-! ### A use of a number that does not occur -/

section Absent

variable {r : Row α} {slot : Nat} (h : slot ∉ r.numbers)
include h

theorem use_insertAfter_of_absent (new : α) : r.use (.insertAfter slot new) = (r, .slot none) := by
  rw [use, if_neg h]

theorem use_remove_of_absent : r.use (.remove slot) = (r, .element none) := by
  simp only [use, lookup_eq_none h]

theorem use_set_of_absent (new : α) : r.use (.set slot new) = (r, .element none) := by
  have hkept : (r.items.map fun x => if x.1 = slot then (slot, new) else x) = r.items := by
    refine (List.map_congr_left fun x hx => if_neg ?_).trans (List.map_id' r.items)
    rintro rfl
    exact h (List.mem_map_of_mem hx)
  rw [use, lookup_eq_none h, hkept]

end Absent

end Row

/-! ## Slots that are handed out and given up -/

section Slots

variable (l : SlotList α) (prev next : Option Nat) (value : α)

/-- A new element takes the slot given up last, if there is one. -/
theorem insertBetween_slot :
    (l.insertBetween prev next value).2 = l.free.head?.getD l.slots.size := by
  rw [insertBetween, alloc]
  cases l.free <;> rfl

theorem free_insertBetween : (l.insertBetween prev next value).1.free = l.free.tail := by
  simp only [insertBetween, free_setPrev, free_setNext]
  rw [alloc]
  cases l.free <;> rfl

theorem size_insertBetween :
    (l.insertBetween prev next value).1.slots.size + l.free.length =
      l.slots.size + 1 + l.free.tail.length := by
  simp only [insertBetween, size_slots_setPrev, size_slots_setNext]
  rw [alloc]
  cases l.free with
  | nil => simp
  | cons slot free =>
      simp only [Array.size_setIfInBounds, List.length_cons, List.tail_cons]
      omega

variable {l}

theorem slots_remove? {m : SlotList α} {slot : Nat} (h : l.remove? slot = some (m, value)) :
    m.free = slot :: l.free ∧ m.slots.size = l.slots.size := by
  obtain ⟨link, _, heq⟩ := Option.map_eq_some_iff.mp h
  rw [← (Prod.mk.inj heq).1]
  simp

end Slots

/-! ## One use -/

/-- The list holds the elements of the row and gives out the same slots. -/
structure Mirrors (l : SlotList α) (r : Row α) : Prop where
  holds : Holds l r.items
  free : l.free = r.vacated
  size : l.slots.size = r.size

variable {l : SlotList α} {r : Row α}

theorem mirrors_empty : Mirrors (empty : SlotList α) {} := ⟨holds_empty, rfl, rfl⟩

theorem Mirrors.fresh (h : Mirrors l r) : l.free.head?.getD l.slots.size = r.fresh := by
  rw [h.free, h.size, Row.fresh, Row.size]
  cases r.vacated <;> rfl

theorem Mirrors.insert (h : Mirrors l r) (xs ys : List (Nat × α)) (hitems : r.items = xs ++ ys)
    (value : α) :
    (l.insertBetween (backSlot none xs) (headSlot ys) value).2 = r.fresh ∧
      Mirrors (l.insertBetween (backSlot none xs) (headSlot ys) value).1
        (r.insert (xs ++ (r.fresh, value) :: ys)).1 := by
  have hslot := (l.insertBetween_slot (backSlot none xs) (headSlot ys) value).trans h.fresh
  have hholds := holds_insertBetween xs ys (hitems ▸ h.holds) value
  have hsize := l.size_insertBetween (backSlot none xs) (headSlot ys) value
  rw [hslot] at hholds
  refine ⟨hslot, hholds, ?_, ?_⟩
  · rw [free_insertBetween, h.free]
    rfl
  · have hbefore := h.size
    rw [Row.size, hitems, List.length_append] at hbefore
    rw [h.free] at hsize
    simp only [Row.size, Row.insert, List.length_append, List.length_cons]
    omega

theorem Mirrors.remove (h : Mirrors l r) {xs ys : List (Nat × α)} {slot : Nat} {value : α}
    (hitems : r.items = xs ++ (slot, value) :: ys) :
    ∃ m, l.remove? slot = some (m, value) ∧
      Mirrors m { items := xs ++ ys, vacated := slot :: r.vacated } := by
  obtain ⟨m, hm, hholds⟩ := holds_remove? (hitems ▸ h.holds)
  obtain ⟨hfree, hsize⟩ := slots_remove? value hm
  refine ⟨m, hm, hholds, by rw [hfree, h.free], ?_⟩
  rw [hsize, h.size, Row.size, Row.size, hitems]
  simp only [List.length_append, List.length_cons]
  omega

theorem Mirrors.set (h : Mirrors l r) {xs ys : List (Nat × α)} {slot : Nat} {value : α}
    (hitems : r.items = xs ++ (slot, value) :: ys) (new : α) :
    Mirrors (l.set slot new) { r with items := xs ++ (slot, new) :: ys } := by
  refine ⟨holds_set (hitems ▸ h.holds) new, h.free, ?_⟩
  have hsize := h.size
  simp only [Row.size, hitems, List.length_append, List.length_cons] at hsize ⊢
  rw [SlotList.set, adjust, Array.size_modify, hsize]

/-- Writing into a vacant slot has no effect. -/
theorem set_of_vacant {slot : Nat} (h : l.link? slot = none) (new : α) : l.set slot new = l := by
  have hslots : l.slots.modify slot (·.map fun link => { link with value := new }) = l.slots := by
    refine Array.ext_getElem? fun i => ?_
    rw [Array.getElem?_modify]
    split_ifs with hi
    · subst hi
      rw [link?] at h
      cases hslot : l.slots[slot]? with
      | none => rfl
      | some taken =>
          rw [hslot, Option.join_some] at h
          rw [h]
          rfl
    · rfl
  rw [set, adjust, hslots]

theorem Mirrors.vacant (h : Mirrors l r) {slot : Nat} (habsent : slot ∉ r.numbers) :
    l.link? slot = none := by
  rw [h.holds.link]
  exact linkIn_eq_none_iff.mpr habsent

/-- One use of the list is one use of the sequence. -/
theorem Mirrors.use (h : Mirrors l r) (u : Use α) :
    (l.use u).2 = (r.use u).2 ∧ Mirrors (l.use u).1 (r.use u).1 := by
  have hnd : r.numbers.Nodup := h.holds.nodup
  -- A slot that is named holds an element, at which the sequence is cut in two, or nothing.
  cases u with
  | pushBack value =>
      obtain ⟨hslot, hm⟩ := h.insert r.items [] (List.append_nil _).symm value
      rw [SlotList.use, pushBack, h.holds.last]
      exact ⟨congrArg (Answer.slot ∘ some) hslot, hm⟩
  | pushFront value =>
      obtain ⟨hslot, hm⟩ := h.insert [] r.items rfl value
      rw [SlotList.use, pushFront, h.holds.first]
      exact ⟨congrArg (Answer.slot ∘ some) hslot, hm⟩
  | insertAfter slot value =>
      by_cases hslot : slot ∈ r.numbers
      · obtain ⟨xs, before, ys, hitems⟩ := Row.mem_numbers_iff.mp hslot
        have hlink := (hitems ▸ h.holds : Holds l (xs ++ (slot, before) :: ys)).link_middle
        obtain ⟨hnew, hm⟩ := h.insert (xs ++ [(slot, before)]) ys (by simp [hitems]) value
        rw [backSlot_append, backSlot, backSlot, List.append_assoc, List.singleton_append] at hm
        rw [backSlot_append, backSlot, backSlot] at hnew
        rw [Row.use_insertAfter hnd hitems, SlotList.use, insertAfter?, hlink]
        exact ⟨congrArg (Answer.slot ∘ some) hnew, hm⟩
      · rw [Row.use_insertAfter_of_absent hslot, SlotList.use, insertAfter?_eq_none h.holds hslot]
        exact ⟨rfl, h⟩
  | remove slot =>
      by_cases hslot : slot ∈ r.numbers
      · obtain ⟨xs, value, ys, hitems⟩ := Row.mem_numbers_iff.mp hslot
        obtain ⟨m, hm, hmirrors⟩ := h.remove hitems
        rw [Row.use_remove hnd hitems, SlotList.use, hm]
        exact ⟨rfl, hmirrors⟩
      · rw [Row.use_remove_of_absent hslot, SlotList.use, remove?_eq_none h.holds hslot]
        exact ⟨rfl, h⟩
  | set slot value =>
      by_cases hslot : slot ∈ r.numbers
      · obtain ⟨xs, old, ys, hitems⟩ := Row.mem_numbers_iff.mp hslot
        have hget : l.get? slot = some old := (get?_eq_some_iff h.holds).mpr (by simp [hitems])
        rw [Row.use_set hnd hitems, SlotList.use, hget]
        exact ⟨rfl, h.set hitems value⟩
      · have hvacant := h.vacant hslot
        rw [Row.use_set_of_absent hslot, SlotList.use, set_of_vacant hvacant, get?, hvacant]
        exact ⟨rfl, h⟩
  | popFront =>
      cases hitems : r.items with
      | nil =>
          have hfirst : l.first = none := by rw [h.holds.first, hitems, headSlot_nil]
          rw [SlotList.use, Row.use, popFront?, hfirst, hitems]
          exact ⟨rfl, h⟩
      | cons x rest =>
          have hfirst : l.first = some x.1 := by rw [h.holds.first, hitems, headSlot_cons]
          have hsplit : r.items = [] ++ (x.1, x.2) :: rest := hitems
          obtain ⟨m, hm, hmirrors⟩ := h.remove hsplit
          rw [SlotList.use, Row.use, popFront?, hfirst, hitems, Option.bind_some, hm]
          exact ⟨rfl, hmirrors⟩

theorem Mirrors.run (h : Mirrors l r) (us : List (Use α)) :
    (l.run us).2 = (r.run us).2 ∧ Mirrors (l.run us).1 (r.run us).1 := by
  induction us generalizing l r with
  | nil => exact ⟨rfl, h⟩
  | cons u us ih =>
      obtain ⟨hanswer, hu⟩ := h.use u
      obtain ⟨hanswers, hus⟩ := ih hu
      exact ⟨by rw [SlotList.run, Row.run, hanswer, hanswers], hus⟩

theorem run_concat (l : SlotList α) (us : List (Use α)) (u : Use α) :
    (l.run (us ++ [u])).1 = ((l.run us).1.use u).1 := by
  induction us generalizing l with
  | nil => rfl
  | cons v us ih => exact ih (l.use v).1

/-! ## Reading -/

/-- Whatever is read from the list is read from the sequence.  Following the links ends by itself,
however many steps are allowed. -/
structure Reads (l : SlotList α) (items : List (Nat × α)) : Prop where
  entries : l.entries = items
  toList : l.toList = items.map (·.2)
  walk : ∀ fuel, items.length ≤ fuel → l.walk fuel l.first = items
  front : l.front? = items.head?.map (·.2)
  back : l.back? = items.getLast?.map (·.2)
  first : l.first = items.head?.map (·.1)
  last : l.last = items.getLast?.map (·.1)
  next : ∀ xs slot value ys, items = xs ++ (slot, value) :: ys →
    l.next? slot = ys.head?.map (·.1)
  next_absent : ∀ slot, slot ∉ items.map (·.1) → l.next? slot = none
  get : ∀ slot, l.get? slot = items.lookup slot
  length : l.length = items.length
  isEmpty : l.isEmpty = items.isEmpty

theorem backSlot_eq (xs : List (Nat × α)) : backSlot none xs = xs.getLast?.map (·.1) := by
  rcases List.eq_nil_or_concat xs with rfl | ⟨xs, x, rfl⟩
  · rfl
  · simp [backSlot]

theorem Mirrors.get (h : Mirrors l r) (slot : Nat) : l.get? slot = r.items.lookup slot := by
  by_cases hslot : slot ∈ r.numbers
  · obtain ⟨xs, value, ys, hitems⟩ := Row.mem_numbers_iff.mp hslot
    rw [Row.lookup_middle h.holds.nodup hitems, get?_eq_some_iff h.holds, hitems]
    simp
  · rw [Row.lookup_eq_none hslot, get?, h.vacant hslot, Option.map_none]

theorem Mirrors.link (h : Mirrors l r) {xs ys : List (Nat × α)} {slot : Nat} {value : α}
    (hitems : r.items = xs ++ (slot, value) :: ys) :
    l.link? slot = some ⟨value, xs.getLast?.map (·.1), ys.head?.map (·.1)⟩ := by
  rw [← backSlot_eq]
  exact (hitems ▸ h.holds : Holds l (xs ++ (slot, value) :: ys)).link_middle

theorem Mirrors.reads (h : Mirrors l r) : l.Reads r.items where
  entries := entries_eq h.holds
  toList := toList_eq h.holds
  walk fuel hfuel := by
    rw [h.holds.first]
    exact walk_eq [] r.items h.holds hfuel
  front := by rw [front?_eq h.holds, List.head?_map]
  back := by
    rw [back?, h.holds.last, backSlot_eq]
    rcases List.eq_nil_or_concat r.items with hitems | ⟨xs, x, hitems⟩
    · rw [hitems]
      rfl
    · have hlast : l.get? x.1 = some x.2 := (get?_eq_some_iff h.holds).mpr (by simp [hitems])
      simp [hitems, hlast]
  first := h.holds.first
  last := by rw [h.holds.last, backSlot_eq]
  next xs slot value ys hitems := by rw [next?, h.link hitems, Option.bind_some]
  next_absent slot hslot := by rw [next?, h.vacant hslot, Option.bind_none]
  get := h.get
  length := h.holds.length
  isEmpty := by rw [Bool.eq_iff_iff, isEmpty_iff h.holds, List.isEmpty_iff]

/-- The links of neighbours name each other, and the ends have no neighbour. -/
structure Linked (l : SlotList α) : Prop where
  mirror : ∀ a b, (∃ x, l.link? a = some x ∧ x.next = some b) ↔
    ∃ y, l.link? b = some y ∧ y.prev = some a
  first : ∀ a x, l.link? a = some x → (x.prev = none ↔ l.first = some a)
  last : ∀ a x, l.link? a = some x → (x.next = none ↔ l.last = some a)

/-- A slot that is taken holds an element of the sequence. -/
theorem Mirrors.exists_of_link (h : Mirrors l r) {slot : Nat} {x : Link α}
    (hx : l.link? slot = some x) : ∃ xs value ys, r.items = xs ++ (slot, value) :: ys := by
  rw [← Row.mem_numbers_iff]
  by_contra hslot
  rw [h.vacant hslot] at hx
  cases hx

theorem Mirrors.linked (h : Mirrors l r) : l.Linked := by
  have hnd : r.numbers.Nodup := h.holds.nodup
  refine ⟨fun a b => ⟨?_, ?_⟩, fun a x hx => ?_, fun a x hx => ?_⟩
  · rintro ⟨x, hx, hnext⟩
    obtain ⟨xs, value, ys, hitems⟩ := h.exists_of_link hx
    obtain rfl := Option.some.inj (hx.symm.trans (h.link hitems))
    obtain ⟨⟨c, other⟩, hhead, rfl⟩ := Option.map_eq_some_iff.mp hnext
    obtain ⟨zs, rfl⟩ := List.head?_eq_some_iff.mp hhead
    have hsplit : r.items = (xs ++ [(a, value)]) ++ (c, other) :: zs := by simp [hitems]
    exact ⟨_, h.link hsplit, by simp⟩
  · rintro ⟨y, hy, hprev⟩
    obtain ⟨xs, value, ys, hitems⟩ := h.exists_of_link hy
    obtain rfl := Option.some.inj (hy.symm.trans (h.link hitems))
    obtain ⟨⟨c, other⟩, hlast, rfl⟩ := Option.map_eq_some_iff.mp hprev
    obtain ⟨zs, rfl⟩ := List.getLast?_eq_some_iff.mp hlast
    have hsplit : r.items = zs ++ (c, other) :: (b, value) :: ys := by simp [hitems]
    exact ⟨_, h.link hsplit, by simp⟩
  · obtain ⟨xs, value, ys, hitems⟩ := h.exists_of_link hx
    obtain rfl := Option.some.inj (hx.symm.trans (h.link hitems))
    rw [h.reads.first, hitems]
    cases xs with
    | nil => simp
    | cons y xs =>
        have hy : y.1 ≠ a := Row.ne_of_mem hnd hitems y (by simp)
        simp [hy]
  · obtain ⟨xs, value, ys, hitems⟩ := h.exists_of_link hx
    obtain rfl := Option.some.inj (hx.symm.trans (h.link hitems))
    rw [h.reads.last, hitems]
    rcases List.eq_nil_or_concat ys with rfl | ⟨ys, y, rfl⟩
    · simp
    · have hy : y.1 ≠ a := Row.ne_of_mem hnd hitems y (by simp)
      have hlast : (xs ++ (a, value) :: (ys ++ [y])).getLast? = some y := by
        rw [← List.cons_append, ← List.append_assoc, List.getLast?_concat]
      simp [hy, hlast]

/-! ## Slots that stay taken -/

/-- A use takes the element out of a slot. -/
def Takes (l : SlotList α) (slot : Nat) : Use α → Prop
  | .remove other => other = slot
  | .popFront => l.first = some slot
  | _ => False

/-- No use of a run takes the element out of a slot. -/
def Spares (slot : Nat) : SlotList α → List (Use α) → Prop
  | _, [] => True
  | l, u :: us => ¬ l.Takes slot u ∧ Spares slot (l.use u).1 us

/-- The element in a slot after a use that leaves the slot taken. -/
def Use.leaves (slot : Nat) (value : α) : Use α → α
  | .set other new => if other = slot then new else value
  | _ => value

theorem Row.mem_use {slot : Nat} {value : α} {u : Use α} (hmem : (slot, value) ∈ r.items)
    (hremove : u ≠ .remove slot) (hpop : u = .popFront → r.items.head?.map (·.1) ≠ some slot) :
    (slot, u.leaves slot value) ∈ (r.use u).1.items := by
  cases u with
  | pushBack new => exact List.mem_append_left _ hmem
  | pushFront new => exact List.mem_cons_of_mem _ hmem
  | insertAfter other new =>
      rw [Row.use]
      split_ifs
      · refine List.mem_flatMap.mpr ⟨_, hmem, ?_⟩
        split_ifs <;> exact List.mem_cons_self
      · exact hmem
  | remove other =>
      have hother : slot ≠ other := fun heq => hremove (by rw [heq])
      simp only [Row.use]
      cases r.items.lookup other with
      | none => exact hmem
      | some old => exact List.mem_filter.mpr ⟨hmem, decide_eq_true hother⟩
  | set other new =>
      refine List.mem_map.mpr ⟨_, hmem, ?_⟩
      by_cases hother : slot = other
      · simp [Use.leaves, hother]
      · simp [Use.leaves, hother, Ne.symm hother]
  | popFront =>
      simp only [Row.use]
      cases hitems : r.items with
      | nil =>
          rw [hitems] at hmem
          cases hmem
      | cons x rest =>
          rw [hitems] at hmem hpop
          rcases List.mem_cons.mp hmem with rfl | hmem
          · exact absurd rfl (hpop rfl)
          · exact hmem

theorem Mirrors.get_of_spares (h : Mirrors l r) {slot : Nat} {value : α} {us : List (Use α)}
    (hget : l.get? slot = some value) (hspares : l.Spares slot us) :
    (l.run us).1.get? slot = some (us.foldl (fun value u => u.leaves slot value) value) := by
  induction us generalizing l r value with
  | nil => exact hget
  | cons u us ih =>
      obtain ⟨hspared, hrest⟩ := hspares
      have hmem := (get?_eq_some_iff h.holds).mp hget
      have hu := (h.use u).2
      have hkept : (slot, u.leaves slot value) ∈ (r.use u).1.items := by
        refine Row.mem_use hmem ?_ ?_
        · rintro rfl
          exact hspared rfl
        · rintro rfl
          rw [← h.reads.first]
          exact hspared
      exact ih hu ((get?_eq_some_iff hu.holds).mpr hkept) hrest

/-! ## The number of slots -/

theorem Row.size_insert {items : List (Nat × α)} (h : items.length = r.items.length + 1) :
    (r.insert items).1.size = max r.size items.length := by
  rw [Row.insert, Row.size, Row.size]
  cases r.vacated with
  | nil => simp [h]
  | cons slot vacated =>
      simp only [List.tail_cons, List.length_cons]
      omega

theorem Row.length_le_size (r : Row α) : r.items.length ≤ r.size := Nat.le_add_right _ _

/-- A new number is made only if the sequence is longer than it ever was. -/
theorem Row.size_use (hnd : r.numbers.Nodup) (u : Use α) :
    (r.use u).1.size = max r.size (r.use u).1.items.length := by
  have hsame : r.size = max r.size r.items.length := (max_eq_left r.length_le_size).symm
  cases u with
  | pushBack value => exact size_insert (by simp)
  | pushFront value => exact size_insert (by simp)
  | insertAfter slot value =>
      by_cases hslot : slot ∈ r.numbers
      · obtain ⟨xs, before, ys, hitems⟩ := mem_numbers_iff.mp hslot
        rw [use_insertAfter hnd hitems]
        exact size_insert (by simp only [hitems, List.length_append, List.length_cons]; omega)
      · rwa [use_insertAfter_of_absent hslot]
  | remove slot =>
      by_cases hslot : slot ∈ r.numbers
      · obtain ⟨xs, value, ys, hitems⟩ := mem_numbers_iff.mp hslot
        rw [use_remove hnd hitems]
        simp only [size, hitems, List.length_append, List.length_cons]
        omega
      · rwa [use_remove_of_absent hslot]
  | set slot value =>
      have hlength : (r.use (.set slot value)).1.items.length = r.items.length := List.length_map _
      rw [hlength, ← hsame]
      exact congrArg (· + r.vacated.length) hlength
  | popFront =>
      cases hitems : r.items with
      | nil =>
          rw [hitems] at hsame
          simp only [use, hitems]
          exact hsame
      | cons x rest =>
          simp only [use, size, hitems, List.length_cons]
          omega

theorem Mirrors.size_use (h : Mirrors l r) (u : Use α) :
    (l.use u).1.slots.size = max l.slots.size (l.use u).1.length := by
  have hu := (h.use u).2
  rw [hu.size, hu.holds.length, h.size]
  exact r.size_use h.holds.nodup u

/-- There are as many slots as the list had elements when it was longest. -/
theorem isGreatest_size (us : List (Use α)) :
    IsGreatest {n | ∃ before, before <+: us ∧ n = ((empty : SlotList α).run before).1.length}
      ((empty : SlotList α).run us).1.slots.size := by
  induction us using List.reverseRecOn with
  | nil =>
      refine ⟨⟨[], List.prefix_rfl, rfl⟩, ?_⟩
      rintro n ⟨before, hbefore, rfl⟩
      rw [List.prefix_nil.mp hbefore]
      exact Nat.le_refl 0
  | append_singleton us u ih =>
      obtain ⟨⟨longest, hlongest, hsize⟩, hle⟩ := ih
      have hstep := (mirrors_empty.run us).2.size_use u
      rw [← run_concat] at hstep
      constructor
      · rcases Nat.le_total ((empty : SlotList α).run us).1.slots.size
          ((empty : SlotList α).run (us ++ [u])).1.length with hgrown | hgrown
        · exact ⟨us ++ [u], List.prefix_rfl, by rw [hstep, Nat.max_eq_right hgrown]⟩
        · exact ⟨longest, hlongest.trans (List.prefix_append us [u]), by
            rw [hstep, Nat.max_eq_left hgrown, hsize]⟩
      · rintro n ⟨before, hbefore, rfl⟩
        rw [hstep]
        rcases List.prefix_concat_iff.mp hbefore with rfl | hbefore
        · exact Nat.le_max_right _ _
        · exact Nat.le_trans (hle ⟨before, hbefore, rfl⟩) (Nat.le_max_left _ _)

/-! ## Absent slots and new ones -/

/-- A slot in which nothing is answers that there is nothing, and nothing changes. -/
structure Harmless (l : SlotList α) (slot : Nat) : Prop where
  insertAfter : ∀ value, l.use (.insertAfter slot value) = (l, .slot none)
  remove : l.use (.remove slot) = (l, .element none)
  set : ∀ value, l.use (.set slot value) = (l, .element none)

theorem Mirrors.harmless (h : Mirrors l r) {slot : Nat} (habsent : slot ∉ r.numbers) :
    l.Harmless slot where
  insertAfter value := by rw [SlotList.use, insertAfter?_eq_none h.holds habsent]
  remove := by rw [SlotList.use, remove?_eq_none h.holds habsent]
  set value := by
    rw [SlotList.use, set_of_vacant (h.vacant habsent), get?, h.vacant habsent, Option.map_none]

theorem Row.eq_fresh_of_use {u : Use α} {slot : Nat} (h : (r.use u).2 = .slot (some slot)) :
    slot = r.fresh := by
  have hnew : ∀ {items : List (Nat × α)}, (r.insert items).2 = .slot (some slot) →
      slot = r.fresh := fun hinsert => (Option.some.inj (Answer.slot.inj hinsert)).symm
  cases u with
  | pushBack value => exact hnew h
  | pushFront value => exact hnew h
  | insertAfter before value =>
      simp only [use] at h
      split_ifs at h
      · exact hnew h
      · cases h
  | remove other =>
      simp only [use] at h
      split at h <;> cases h
  | set other value => cases h
  | popFront =>
      simp only [use] at h
      split at h <;> cases h

/-- The slots of a list: which are vacant, which one is next, and what that asks of the numbers in
the code that are never checked. -/
structure Recycles (l : SlotList α) : Prop where
  nodup : l.free.Nodup
  vacant : ∀ slot, slot ∈ l.free ↔ l.slots[slot]? = some none
  newest : ∀ u slot, (l.use u).2 = .slot (some slot) → slot = l.free.head?.getD l.slots.size
  inBounds : ∀ slot ∈ l.free, slot < l.slots.size
  counted : ∀ slot, (l.remove? slot).isSome → 0 < l.length

theorem Mirrors.recycles (h : Mirrors l r) : l.Recycles where
  nodup := h.holds.freeNodup
  vacant slot := by
    rw [h.holds.mem_free, link?]
    cases hslot : l.slots[slot]? with
    | none => simpa using Array.getElem?_eq_none_iff.mp hslot
    | some taken =>
        have hlt : slot < l.slots.size := (Array.getElem?_eq_some_iff.mp hslot).1
        simp [hlt]
  newest u slot hanswer := by
    rw [h.fresh]
    exact Row.eq_fresh_of_use ((h.use u).1.symm.trans hanswer)
  inBounds slot hslot := ((h.holds.mem_free slot).mp hslot).1
  counted slot hsome := by
    by_contra hzero
    have hitems : r.items = [] := List.eq_nil_of_length_eq_zero (by rw [← h.holds.length]; omega)
    rw [remove?_eq_none h.holds (by simp [hitems])] at hsome
    cases hsome

/-! ## Runs -/

/-- A slot list that starts empty is a plain sequence of elements with distinct numbers: it answers
every use as the sequence does, reads as the sequence, and keeps every element under its number until
it is taken out.  The slots that are given up are used again first, so there are never more slots than
the list had elements at its longest. -/
theorem refines_sequence (us : List (Use α)) :
    let l := ((empty : SlotList α).run us).1
    let r := (({} : Row α).run us).1
    ((empty : SlotList α).run us).2 = (({} : Row α).run us).2 ∧
    r.numbers.Nodup ∧ l.Reads r.items ∧ (∀ slot ∉ r.numbers, l.Harmless slot) ∧
    (∀ slot value more, l.get? slot = some value → l.Spares slot more →
      (l.run more).1.get? slot = some (more.foldl (fun value u => u.leaves slot value) value)) ∧
    l.Linked ∧ l.free = r.vacated ∧ l.Recycles ∧
    IsGreatest {n | ∃ before, before <+: us ∧ n = ((empty : SlotList α).run before).1.length}
      l.slots.size := by
  intro l r
  obtain ⟨hanswers, h⟩ : _ ∧ Mirrors l r := mirrors_empty.run us
  exact ⟨hanswers, h.holds.nodup, h.reads, fun slot hslot => h.harmless hslot,
    fun slot value more hget hspares => h.get_of_spares hget hspares, h.linked, h.free, h.recycles,
    isGreatest_size us⟩

/-- A slot that is given up goes to the next element; the slot beside it keeps its element while the
list goes on. -/
theorem refines_sequence_of_reused :
    let us : List (Use Nat) := [.pushBack 5, .pushBack 6, .remove 0, .pushFront 7]
    let more : List (Use Nat) := [.remove 0, .remove 0, .set 1 8, .insertAfter 1 9]
    let l := ((empty : SlotList Nat).run us).1
    l.Reads [(0, 7), (1, 6)] ∧ l.Harmless 2 ∧
      (l.get? 1 = some 6 ∧ l.Spares 1 more ∧ (l.run more).1.get? 1 = some 8) ∧
      l.Recycles := by
  intro us more l
  obtain ⟨_, _, hreads, hharmless, hkept, _, _, hrecycles, _⟩ := refines_sequence us
  have hget : l.get? 1 = some 6 := rfl
  have hspares : l.Spares 1 more := by
    refine ⟨?_, ?_, fun h => h, fun h => h, trivial⟩ <;>
    · intro h
      cases h
  exact ⟨hreads, hharmless 2 (by decide), ⟨hget, hspares, hkept 1 6 more hget hspares⟩, hrecycles⟩

end ClusterCache.SlotList
