import Raft.Entry

/-!
# Counters

What the nodes of a process count, and the text in which the counters are published: families in
the order of their names, each with a line of help and a line of type, then one line per labelled
counter in the order of the labels. A counter that was never raised is left out.
-/

namespace Raft

/-- What one node counts. -/
structure Counters where
  electionsStarted : Nat := 0
  leadersElected : Nat := 0
  committedEntries : Nat := 0
  /-- Rejected append requests by the peer that rejected them. -/
  appendRejections : List (NodeId × Nat) := []
  clientRedirects : Nat := 0
  leadershipTransfers : Nat := 0
  deriving Repr, Inhabited

namespace Counters

def raise (peer : NodeId) : List (NodeId × Nat) → List (NodeId × Nat)
  | [] => [(peer, 1)]
  | (p, n) :: rest => if p = peer then (p, n + 1) :: rest else (p, n) :: raise peer rest

/-- The counts of two runs of the same node together. -/
def add (a b : Counters) : Counters where
  electionsStarted := a.electionsStarted + b.electionsStarted
  leadersElected := a.leadersElected + b.leadersElected
  committedEntries := a.committedEntries + b.committedEntries
  appendRejections := b.appendRejections.foldl
    (fun acc item =>
      if acc.any (·.1 = item.1) then
        acc.map fun old => if old.1 = item.1 then (old.1, old.2 + item.2) else old
      else acc ++ [item])
    a.appendRejections
  clientRedirects := a.clientRedirects + b.clientRedirects
  leadershipTransfers := a.leadershipTransfers + b.leadershipTransfers

/-- One labelled counter of a family. -/
structure Sample where
  labels : List (String × String)
  value : Nat

def Sample.line (family : String) (s : Sample) : String :=
  family ++ "\x7b" ++ ",".intercalate (s.labels.map fun l => l.1 ++ "=\"" ++ l.2 ++ "\"")
    ++ "\x7d " ++ toString s.value ++ "\n"

/-- Whether one sample comes before another: by the texts of their labels. -/
def Sample.le (a b : Sample) : Bool :=
  !(b.labels.map (·.2)).lex (a.labels.map (·.2)) fun x y => x < y

/-- The text of a family; nothing if no counter of it was raised. -/
def family (name help : String) (samples : List Sample) : String :=
  match samples.filter (·.value ≠ 0) with
  | [] => ""
  | raised =>
    "# HELP " ++ name ++ " " ++ help ++ "\n# TYPE " ++ name ++ " counter\n"
      ++ String.join ((raised.mergeSort Sample.le).map (Sample.line name))

/-- The published text of the counters of all nodes. -/
def gather (nodes : List (NodeId × Counters)) : String :=
  let perNode (f : Counters → Nat) : List Sample :=
    nodes.map fun n => ⟨[("id", toString n.1)], f n.2⟩
  let rejections : List Sample := nodes.flatMap fun n =>
    n.2.appendRejections.map fun r => ⟨[("id", toString n.1), ("peer_id", toString r.1)], r.2⟩
  family "append_rejections" "AppendEntries rejected by a follower log check" rejections
    ++ family "client_redirects" "Client proposals answered with NotLeader"
      (perNode clientRedirects)
    ++ family "committed_entries" "Entries applied to the state machine"
      (perNode committedEntries)
    ++ family "elections_started" "Elections started by a node" (perNode electionsStarted)
    ++ family "leaders_elected" "Times a node won an election" (perNode leadersElected)
    ++ family "leadership_transfers" "Leadership transfers started by a node"
      (perNode leadershipTransfers)

end Counters

end Raft
