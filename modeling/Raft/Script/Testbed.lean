import Raft.Script.Errors
import Raft.Sim.Testbed.View

/-!
# Reports of a testbed

How the steps of a testbed are shown: what was handled and sent, who was answered, and how the
nodes look that changed.
-/

namespace Raft.Script

open Raft.Sim

def answer : Answer → Data
  | .vote r => result voteResponse r
  | .append r => result appendResponse r
  | .timeoutNow r => result timeoutNowResponse r
  | .client r => clientResponse r
  | .transfer r => result done r

/-- The callers that were answered, or whose request was dropped. -/
def answers {α : Type} (show' : α → Data) (l : List (String × Option α)) : Data :=
  .list (l.map fun a => .list [.text a.1, (a.2.map show').getD (.text "closed")])

/-- The name and the fields of a role event. -/
def roleEvent : RoleEvent → String × Data.Fields
  | .becomeFollower leader => ("BecomeFollower", [("leader", optNat leader)])
  | .becomeCandidate => ("BecomeCandidate", [])
  | .becomeLeader => ("BecomeLeader", [])
  | .newCommit index => ("NotifyNewCommitIndex", [("index", .nat index)])
  | .replay (.appendRequest ..) => ("ReprocessEvent", [("of", kind .append)])
  | .replay (.timeoutNowRequest ..) => ("ReprocessEvent", [("of", kind .timeoutNow)])
  | .replay _ => ("ReprocessEvent", [("of", kind .vote)])

/-- The name and the fields of an outcome. -/
def outcomeEvent : Event → String × Data.Fields
  | .voteResult peer term r => ("VoteResult", fields peer term r.toBool)
  | .appendResult peer m r =>
    ("AppendResult",
      fields peer m.term r.toBool ++ [("prev_index", .nat m.prevIndex), ("len", .nat m.length)])
  | .timeoutNowResult peer term r => ("TimeoutNowResult", fields peer term r.toBool)
  | _ => ("", [])
where
  fields (peer : NodeId) (term : Nat) (answered : Bool) : Data.Fields :=
    [("peer", .nat peer), ("term", .nat term), ("ok", .flag answered)]

/-- Something that a node handled by itself. -/
def handled (h : Handled) : Data :=
  let (name, fields) :=
    match h.event with
    | .inl e => roleEvent e
    | .inr e => outcomeEvent e
  .record ([("node", .nat h.node), ("event", .text name),
    ("r", (h.result.map error).getD (done ()))] ++ fields)

/-- A request that was sent. -/
def parcel (p : Parcel) : Data :=
  .record [("id", .nat p.id), ("from", .nat p.source), ("to", .nat p.target),
    ("kind", kind p.request.kind), ("body", request p.request)]

def nodeView : Option NodeView → Data
  | none => .text "down"
  | some v =>
    let progress (l : List (NodeId × Option Nat)) : Data :=
      .list (l.map fun p => .list [.nat p.1, optNat p.2])
    .record (
      [("role", .text v.role.name), ("term", .nat v.hard.term), ("vote", vote v.hard.vote),
        ("stored", hardState v.stored), ("commit", .nat v.commit), ("last", logId v.last),
        ("leader", optNat v.leader), ("applied", .nat v.applied), ("waiters", .nat v.waiters),
        ("sessions", .nat v.sessions), ("deadline", .nat v.deadline)]
      ++ (match v.leading with
        | some l =>
          [("next", progress l.next), ("match", progress l.matched), ("noop", optNat l.noop)]
        | none => [])
      ++ (v.stopped.map fun e => ("stopped", error e)).toList
      ++ (v.applyEnd.map fun e => ("apply_end", failed e)).toList)

/-- What a step shows besides its result. Parts that are empty are left out. -/
def stepView (r : Data) (v : Testbed.StepView) : Data :=
  let part (name : String) (empty : Bool) (d : Data) : Data.Fields :=
    if empty then [] else [(name, d)]
  .record ([("r", r), ("now", .nat v.now)]
    ++ part "trace" v.trace.isEmpty (.list (v.trace.map handled))
    ++ part "sent" v.sent.isEmpty (.list (v.sent.map parcel))
    ++ part "answers" v.answers.isEmpty (answers answer v.answers)
    ++ part "state" v.nodes.isEmpty
      (.record (v.nodes.map fun n => (toString n.1, nodeView n.2))))

end Raft.Script
