/-!
# A doubly linked list in numbered slots

Elements live in slots that name their neighbours, so whoever holds the number of a slot can take
its element out without walking the list.  A slot that is given up is used again before a new one
is made, the latest first.  Numbers that name no element are harmless: every operation on one
answers that there is nothing there.
-/

namespace ClusterCache

/-- An element with the slots before and after it. -/
structure SlotList.Link (α : Type) where
  value : α
  prev : Option Nat
  next : Option Nat

/-- A list of elements in slots; a vacant slot holds nothing and is listed in `free`, the one
given up last first. -/
structure SlotList (α : Type) where
  slots : Array (Option (SlotList.Link α)) := #[]
  free : List Nat := []
  first : Option Nat := none
  last : Option Nat := none
  length : Nat := 0

namespace SlotList

variable {α : Type}

def empty : SlotList α := {}

def isEmpty (l : SlotList α) : Bool := l.length = 0

/-- The element in a slot, with its neighbours. -/
def link? (l : SlotList α) (slot : Nat) : Option (Link α) := l.slots[slot]?.join

def get? (l : SlotList α) (slot : Nat) : Option α := (l.link? slot).map (·.value)

def next? (l : SlotList α) (slot : Nat) : Option Nat := (l.link? slot).bind (·.next)

def front? (l : SlotList α) : Option α := l.first.bind l.get?

def back? (l : SlotList α) : Option α := l.last.bind l.get?

/-- The slots from one on, following the links for at most `fuel` elements. -/
def walk (l : SlotList α) : Nat → Option Nat → List (Nat × α)
  | 0, _ => []
  | _ + 1, none => []
  | fuel + 1, some slot =>
    match l.link? slot with
    | none => []
    | some link => (slot, link.value) :: l.walk fuel link.next

/-- The elements with their slots, front to back. -/
def entries (l : SlotList α) : List (Nat × α) := l.walk l.slots.size l.first

def toList (l : SlotList α) : List α := l.entries.map (·.2)

/-- Changes the link in a slot, if the slot is taken. -/
def adjust (l : SlotList α) (slot : Nat) (change : Link α → Link α) : SlotList α :=
  { l with slots := l.slots.modify slot (·.map change) }

/-- Writes over the element in a slot, if the slot is taken. -/
def set (l : SlotList α) (slot : Nat) (value : α) : SlotList α :=
  l.adjust slot fun link => { link with value }

/-- Puts an element into the slot given up last, or into a new one; also says which. -/
def alloc (l : SlotList α) (link : Link α) : SlotList α × Nat :=
  match l.free with
  | slot :: free =>
    ({ l with slots := l.slots.setIfInBounds slot (some link), free, length := l.length + 1 }, slot)
  | [] => ({ l with slots := l.slots.push (some link), length := l.length + 1 }, l.slots.size)

/-- Makes `next` the successor of a slot, or the front where there is no slot. -/
def setNext (l : SlotList α) (slot next : Option Nat) : SlotList α :=
  match slot with
  | some slot => l.adjust slot fun link => { link with next }
  | none => { l with first := next }

/-- Makes `prev` the predecessor of a slot, or the back where there is no slot. -/
def setPrev (l : SlotList α) (slot prev : Option Nat) : SlotList α :=
  match slot with
  | some slot => l.adjust slot fun link => { link with prev }
  | none => { l with last := prev }

/-- Puts an element between two neighbours; also says in which slot. -/
def insertBetween (l : SlotList α) (prev next : Option Nat) (value : α) : SlotList α × Nat :=
  let (l, slot) := l.alloc ⟨value, prev, next⟩
  ((l.setNext prev (some slot)).setPrev next (some slot), slot)

/-- Adds an element at the back; also says in which slot. -/
def pushBack (l : SlotList α) (value : α) : SlotList α × Nat := l.insertBetween l.last none value

/-- Adds an element at the front; also says in which slot. -/
def pushFront (l : SlotList α) (value : α) : SlotList α × Nat := l.insertBetween none l.first value

/-- Adds an element right after a slot, and says in which slot; nothing if the slot is vacant. -/
def insertAfter? (l : SlotList α) (slot : Nat) (value : α) : Option (SlotList α × Nat) :=
  (l.link? slot).map fun link => l.insertBetween (some slot) link.next value

/-- Takes the element out of a slot and gives the slot up; nothing if the slot is vacant. -/
def remove? (l : SlotList α) (slot : Nat) : Option (SlotList α × α) :=
  (l.link? slot).map fun link =>
    let vacated := { l with slots := l.slots.setIfInBounds slot none }
    let joined := (vacated.setNext link.prev link.next).setPrev link.next link.prev
    ({ joined with free := slot :: joined.free, length := joined.length - 1 }, link.value)

/-- Takes the element out of a slot, if there is one. -/
def erase (l : SlotList α) (slot : Nat) : SlotList α :=
  match l.remove? slot with
  | some (rest, _) => rest
  | none => l

def popFront? (l : SlotList α) : Option (SlotList α × α) := l.first.bind l.remove?

end SlotList

end ClusterCache
