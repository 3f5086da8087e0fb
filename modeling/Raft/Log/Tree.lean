import Raft.Entry

/-!
# Ordered trees of byte strings

A durable tree maps keys to values, both byte strings, in the order of the keys' bytes. Here it is
the list of its items with strictly increasing keys.
-/

namespace Raft

/-- A map from byte strings to byte strings, ordered by key. -/
structure Tree where
  items : List (Bytes × Bytes) := []
  deriving Repr, Inhabited

namespace Tree

def get? (t : Tree) (key : Bytes) : Option Bytes := t.items.lookup key

def place (key value : Bytes) : List (Bytes × Bytes) → List (Bytes × Bytes)
  | [] => [(key, value)]
  | (k, v) :: rest =>
    if k < key then (k, v) :: place key value rest
    else if k = key then (key, value) :: rest
    else (key, value) :: (k, v) :: rest

def insert (t : Tree) (key value : Bytes) : Tree := ⟨place key value t.items⟩

def insertAll (t : Tree) (new : List (Bytes × Bytes)) : Tree :=
  new.foldl (fun t item => t.insert item.1 item.2) t

def erase (t : Tree) (key : Bytes) : Tree := ⟨t.items.filter fun item => item.1 ≠ key⟩

/-- The item with the greatest key. -/
def last? (t : Tree) : Option (Bytes × Bytes) := t.items.getLast?

/-- The values in the order of their keys. -/
def values (t : Tree) : List Bytes := t.items.map (·.2)

/-- The values under the keys between two bounds, both included. -/
def range (t : Tree) (lo hi : Bytes) : List Bytes :=
  (t.items.filter fun item => lo ≤ item.1 ∧ item.1 ≤ hi).map (·.2)

/-- Removes every key that is not below a bound. -/
def below (t : Tree) (bound : Bytes) : Tree := ⟨t.items.filter fun item => item.1 < bound⟩

def size (t : Tree) : Nat := t.items.length

end Tree

end Raft
