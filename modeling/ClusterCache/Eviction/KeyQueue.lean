import Std.Data.ExtTreeMap.Basic
import ClusterCache.SlotList

/-!
# Keys in order of their latest touch

A queue of distinct keys: touching a key moves it to the back, whether it was there or not.  An
index from keys to slots makes every operation independent of the length of the queue.
-/

namespace ClusterCache

open Std

/-- Distinct keys, the one touched longest ago in front. -/
structure KeyQueue where
  order : SlotList String := SlotList.empty
  slots : ExtTreeMap String Nat := ∅

namespace KeyQueue

def empty : KeyQueue := {}

/-- Whether a key is in the queue. -/
def contains (q : KeyQueue) (key : String) : Bool := q.slots.contains key

def size (q : KeyQueue) : Nat := q.slots.size

/-- Takes a key out, if it is there. -/
def remove (q : KeyQueue) (key : String) : KeyQueue :=
  match q.slots[key]? with
  | some slot => ⟨q.order.erase slot, q.slots.erase key⟩
  | none => q

/-- Puts a key at the back, out of any earlier place. -/
def touch (q : KeyQueue) (key : String) : KeyQueue :=
  let q := q.remove key
  let (order, slot) := q.order.pushBack key
  ⟨order, q.slots.insert key slot⟩

def front? (q : KeyQueue) : Option String := q.order.front?

end KeyQueue

end ClusterCache
