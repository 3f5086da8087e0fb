import Raft.Apply.Waiters

/-!
# Outside callers

Callers that sent something to a node and wait for one answer each. After every step of a
simulation their answers are collected in the order in which they called. A caller whose request
the node neither answered nor still holds finds its channel closed.
-/

namespace Raft.Sim

/-- The callers that still wait, oldest first, and the name each is shown under. -/
structure Callers where
  next : Caller := 0
  waiting : List (Caller × String) := []
  deriving Repr, Inhabited

namespace Callers

def call (c : Callers) (name : String) : Caller × Callers :=
  (c.next, ⟨c.next + 1, c.waiting ++ [(c.next, name)]⟩)

/-- A caller nobody asks for its answer. -/
def callSilently (c : Callers) : Caller × Callers := (c.next, { c with next := c.next + 1 })

/-- The callers of a name go away. -/
def forget (c : Callers) (name : String) : Callers :=
  { c with waiting := c.waiting.filter (·.2 ≠ name) }

/-- The callers that got an answer, or whose request is no longer held. -/
def collect {α : Type} (c : Callers) (given : List (Caller × α)) (held : Caller → Bool) :
    List (String × Option α) × Callers :=
  let settled (x : Caller × String) : Option (String × Option α) :=
    match given.lookup x.1 with
    | some a => some (x.2, some a)
    | none => if held x.1 then none else some (x.2, none)
  (c.waiting.filterMap settled,
    { c with waiting := c.waiting.filter fun x => (settled x).isNone })

end Callers

end Raft.Sim
