import Raft.Error

/-!
# The recording state machine

The application that committed commands drive. This one records every command and answers with the
command's own bytes. Indexes only grow: a command at or below the last applied index is refused.
-/

namespace Raft

/-- A command that reached the state machine. -/
structure Applied where
  index : Nat
  term : Nat
  data : Bytes
  deriving DecidableEq, Repr, Inhabited

/-- A state machine that records its commands in the order it saw them. -/
structure Machine where
  applied : List Applied := []
  last : Nat := 0
  /-- Outputs of earlier commands cannot be asked for. -/
  forgetful : Bool := false
  /-- Applying is made to fail. -/
  broken : Bool := false
  /-- The indexes at which applying is made to fail. -/
  failing : List Nat := []
  deriving Repr, Inhabited

namespace Machine

def refuses (m : Machine) (index : Nat) : Bool := m.broken || m.failing.contains index

def apply (m : Machine) (index term : Nat) (data : Bytes) : Except Error (Machine × Bytes) :=
  if m.refuses index then .error (.storage (.machine (.other "injected apply")))
  else if index ≤ m.last then .error (.storage (.machine (.alreadyApplied index m.last)))
  else .ok ({ m with applied := m.applied ++ [⟨index, term, data⟩], last := index }, data)

theorem eq_of_apply_eq_ok {m m' : Machine} {index term : Nat} {data output : Bytes}
    (h : m.apply index term data = .ok (m', output)) :
    m' = { m with applied := m.applied ++ [⟨index, term, data⟩], last := index }
      ∧ output = data := by
  unfold apply at h
  split at h
  · cases h
  · split at h
    · cases h
    · obtain ⟨hmachine, houtput⟩ := Prod.mk.inj (Except.ok.inj h)
      exact ⟨hmachine.symm, houtput.symm⟩

/-- A state machine that applied the commands of some entries, in their order. Entries it refuses
are passed over. -/
def ofEntries (entries : List Entry) : Machine :=
  entries.foldl
    (fun m e =>
      match e.payload with
      | .noop => m
      | .command c =>
        match m.apply e.index e.term c.data with
        | .ok (m, _) => m
        | .error _ => m)
    {}

/-- The output of the command applied at an index, if it is still known. -/
def output? (m : Machine) (index : Nat) : Option Bytes :=
  if m.forgetful then none else (m.applied.find? fun a => a.index = index).map Applied.data

end Machine

end Raft
