/-
A least-recently-used cache of records.

A cache is a list of nodes in the order of their last use, newest first, and beside it an
index from each key to the node that holds it.  A node is known by its handle, which it
keeps wherever it is moved in the list; the index finds a node through its handle, and
nothing but the operations keeps the two in step.

There are never more than `capacity` nodes; a capacity of zero acts as one.  `get` counts
a hit or a miss and makes the node that it finds the newest one, `put` stores and makes
newest, and drops the oldest node when there is no room.
-/
import Std.Data.ExtTreeMap

namespace Equates

namespace Cache

/-- A node of the recency list. -/
structure Node (α : Type) where
  handle : Nat
  key : Int
  value : α

namespace Node

variable {α : Type}

/-- The node of the handle. -/
def at? (handle : Nat) (nodes : List (Node α)) : Option (Node α) :=
  nodes.find? (·.handle = handle)

/-- All nodes but the one of the handle. -/
def without (handle : Nat) (nodes : List (Node α)) : List (Node α) :=
  nodes.filter (·.handle ≠ handle)

/-- Moves the node of the handle to the front. -/
def toFront (handle : Nat) (nodes : List (Node α)) : List (Node α) :=
  (at? handle nodes).toList ++ without handle nodes

/-- Overwrites the value in the node of the handle. -/
def assign (handle : Nat) (a : α) (nodes : List (Node α)) : List (Node α) :=
  nodes.map fun n => if n.handle = handle then { n with value := a } else n

end Node

end Cache

structure Cache (α : Type) where
  capacity : Nat
  /-- Newest first. -/
  nodes : List (Cache.Node α) := []
  /-- The handle of each key's node. -/
  index : Std.ExtTreeMap Int Nat := ∅
  /-- The handle of the next node; none is given twice. -/
  nextHandle : Nat := 0
  hits : Nat := 0
  misses : Nat := 0

namespace Cache

variable {α : Type}

/-- An empty cache with room for at least one entry. -/
def empty (capacity : Nat) : Cache α where
  capacity := max capacity 1

def size (c : Cache α) : Nat :=
  c.nodes.length

def get (c : Cache α) (k : Int) : Option α × Cache α :=
  match c.index[k]? with
  | none => (none, { c with misses := c.misses + 1 })
  | some handle =>
    let nodes := Node.toFront handle c.nodes
    ((Node.at? handle nodes).map (·.value), { c with nodes, hits := c.hits + 1 })

/-- Drops the oldest node, and its key from the index. -/
def evict (c : Cache α) : Cache α :=
  match c.nodes.getLast? with
  | none => c
  | some oldest => { c with nodes := c.nodes.dropLast, index := c.index.erase oldest.key }

/-- Puts a new node in front, and its handle into the index. -/
def push (c : Cache α) (k : Int) (a : α) : Cache α :=
  { c with
    nodes := ⟨c.nextHandle, k, a⟩ :: c.nodes
    index := c.index.insertIfNew k c.nextHandle
    nextHandle := c.nextHandle + 1 }

def put (c : Cache α) (k : Int) (a : α) : Cache α :=
  match c.index[k]? with
  | some handle => { c with nodes := Node.toFront handle (Node.assign handle a c.nodes) }
  | none => (if c.capacity ≤ c.size then c.evict else c).push k a

def erase (c : Cache α) (k : Int) : Cache α :=
  match c.index[k]? with
  | none => c
  | some handle =>
    { c with nodes := Node.without handle c.nodes, index := c.index.erase k }

/-- Drops all entries and keeps the counters. -/
def clear (c : Cache α) : Cache α :=
  { c with nodes := [], index := ∅ }

def resetStats (c : Cache α) : Cache α :=
  { c with hits := 0, misses := 0 }

end Cache

end Equates
