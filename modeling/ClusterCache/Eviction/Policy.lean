import ClusterCache.Eviction.FrequencyChain
import ClusterCache.Eviction.KeyQueue
import ClusterCache.Text.Blank

/-!
# Eviction policies

A policy is told of every put, read and deletion and names the key to give up when there are too
many.  It only names the victim: once the entry is gone the deletion is reported like any other.

* `fifo` gives up the key put longest ago; reads do not matter.
* `lru` gives up the key put or read longest ago; reading a key it does not track changes nothing.
* `lfu` gives up the key put or read least often and, among those, longest ago; a read starts
  tracking a key just as a put does.
-/

namespace ClusterCache

/-- The kinds of policy. -/
inductive PolicyKind where
  | fifo
  | lru
  | lfu
deriving DecidableEq, Repr

namespace PolicyKind

def name : PolicyKind → String
  | .fifo => "fifo"
  | .lru => "lru"
  | .lfu => "lfu"

/-- The kind that a text names, with any blanks around and in any ASCII case. -/
def parse? (text : String) : Option PolicyKind :=
  let word := (Text.trim text.toList).map Char.toLower
  if word = "fifo".toList then some .fifo
  else if word = "lru".toList then some .lru
  else if word = "lfu".toList then some .lfu
  else none

/-- What to say of a text that names no kind. -/
def unknownMessage (text : String) : String :=
  "unknown eviction policy '" ++ text ++ "', expected one of fifo, lru, lfu"

end PolicyKind

/-- The state of a policy. -/
inductive Policy where
  | fifo (queue : KeyQueue)
  | lru (queue : KeyQueue)
  | lfu (chain : FrequencyChain)

namespace Policy

def empty : PolicyKind → Policy
  | .fifo => .fifo KeyQueue.empty
  | .lru => .lru KeyQueue.empty
  | .lfu => .lfu FrequencyChain.empty

def kind : Policy → PolicyKind
  | .fifo _ => .fifo
  | .lru _ => .lru
  | .lfu _ => .lfu

/-- Takes note that a key was put. -/
def put (p : Policy) (key : String) : Policy :=
  match p with
  | .fifo q => .fifo (q.touch key)
  | .lru q => .lru (q.touch key)
  | .lfu c => .lfu (c.access key)

/-- Takes note that a key was read. -/
def get (p : Policy) (key : String) : Policy :=
  match p with
  | .fifo q => .fifo q
  | .lru q => .lru (if q.contains key then q.touch key else q)
  | .lfu c => .lfu (c.access key)

/-- Takes note that a key was deleted. -/
def delete (p : Policy) (key : String) : Policy :=
  match p with
  | .fifo q => .fifo (q.remove key)
  | .lru q => .lru (q.remove key)
  | .lfu c => .lfu (c.remove key)

def victim? : Policy → Option String
  | .fifo q => q.front?
  | .lru q => q.front?
  | .lfu c => c.front?

def size : Policy → Nat
  | .fifo q => q.size
  | .lru q => q.size
  | .lfu c => c.size

def isEmpty (p : Policy) : Bool := p.size = 0

def tracks (p : Policy) (key : String) : Bool :=
  match p with
  | .fifo q => q.contains key
  | .lru q => q.contains key
  | .lfu c => c.spots.contains key

/-- The number of accesses of a key, for the policy that counts them. -/
def frequency? (p : Policy) (key : String) : Option Nat :=
  match p with
  | .lfu c => c.frequency? key
  | _ => none

/-- Gives up at most `count` keys, one after the other: the keys and the policy left. -/
def drain : Nat → Policy → List String × Policy
  | 0, p => ([], p)
  | count + 1, p =>
    match p.victim? with
    | none => ([], p)
    | some key =>
      let (keys, rest) := drain count (p.delete key)
      (key :: keys, rest)

/-- The keys in the order in which they would be given up. -/
def order (p : Policy) : List String := (p.drain p.size).1

end Policy

end ClusterCache
