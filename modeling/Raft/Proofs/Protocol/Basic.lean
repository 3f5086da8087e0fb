import Mathlib.Logic.Function.Basic
import Raft.Election
import Raft.Proofs.Quorum
import Raft.Proofs.Log.Matching

/-!
# The protocol behind the nodes

A cluster with everything left out that its safety does not rest on. A node is its hard state, its
log, its commit index and its phase; messages are not sent but recorded, together with what they
prove: who voted for whom, how far a node was found to agree with a leader of a term, and which log
that leader has. The record only grows, so that what it shows stays true after restarts.

* `Core` is what the protocol sees of a node, `Record` what the cluster has done so far.
* `Step members p c r c' r'`: the node `p` goes from `c` to `c'` and the record from `r` to `r'`.
-/

namespace Raft.Protocol

/-- What a node takes part in elections and replication as. A node that is down, or about to step
down, is idle like a follower. -/
inductive Phase where
  | idle
  | candidate (votes : List NodeId)
  | leader
  deriving DecidableEq

/-- What the protocol sees of a node. -/
structure Core where
  hard : HardState := {}
  log : List Entry := []
  commit : Nat := 0
  phase : Phase := .idle

/-- What a cluster has done so far. -/
structure Record where
  /-- The vote requests that were sent. -/
  asked : VoteRequest → Prop := fun _ => False
  /-- A voter gave its vote of a term to a candidate. -/
  ballot : NodeId → Nat → NodeId → Prop := fun _ _ _ => False
  /-- The append requests that were sent. -/
  offered : AppendRequest → Prop := fun _ => False
  /-- The greatest index up to which a node was found, in a term, to hold the log of its leader. -/
  held : NodeId → Nat → Nat := fun _ _ => 0
  /-- The log of the leader of a term, as far as it went when that leader ended. -/
  ledger : Nat → List Entry := fun _ => []
  /-- The leader that a term had. -/
  leader : Nat → Option NodeId := fun _ => none

namespace Record

def cast (r : Record) (voter : NodeId) (term : Nat) (candidate : NodeId) : Record :=
  { r with ballot := fun v t x => r.ballot v t x ∨ v = voter ∧ t = term ∧ x = candidate }

def ask (r : Record) (q : VoteRequest) : Record := { r with asked := fun x => r.asked x ∨ x = q }

def offer (r : Record) (q : AppendRequest) : Record :=
  { r with offered := fun x => r.offered x ∨ x = q }

/-- A node is found to hold the log of a term's leader up to an index. -/
def hold (r : Record) (p : NodeId) (t i : Nat) : Record :=
  { r with held := fun q u => if q = p ∧ u = t then max (r.held q u) i else r.held q u }

/-- A node leads a term with a log. -/
def lead (r : Record) (p : NodeId) (t : Nat) (l : List Entry) : Record :=
  { r with
    held := fun q u => if q = p ∧ u = t then l.length else r.held q u
    ledger := Function.update r.ledger t l
    leader := Function.update r.leader t (some p) }

end Record

/-! ## Requests of clients -/

end Raft.Protocol

namespace Raft

/-- Whether two entries carry the same request of a client. -/
def Entry.SameRequest (a b : Entry) : Prop :=
  ∃ c d, a.payload = .command c ∧ b.payload = .command d ∧ c.client = d.client
    ∧ c.sequence = d.sequence

theorem Entry.SameRequest.symm {a b : Entry} (h : a.SameRequest b) : b.SameRequest a := by
  obtain ⟨c, d, hc, hd, hclient, hsequence⟩ := h
  exact ⟨d, c, hd, hc, hclient.symm, hsequence.symm⟩

end Raft

namespace Raft.Protocol

/-! ## Steps -/

/-- What a node can do. -/
inductive Step (members : List NodeId) (p : NodeId) (c : Core) (r : Record) :
    Core → Record → Prop
  /-- It enters a newer term. -/
  | adopt (t : Nat) (ht : c.hard.term < t) :
    Step members p c r { c with hard := ⟨t, none⟩, phase := .idle } r
  /-- It steps down, stops or starts again; a restart may lose some of the commit index. -/
  | rest (i : Nat) (hi : i ≤ c.commit) :
    Step members p c r { c with commit := i, phase := .idle } r
  /-- It starts an election. -/
  | stand (hp : p ∈ members) :
    Step members p c r
      { c with
        hard := ⟨c.hard.term + 1, some ⟨p, c.hard.term + 1⟩⟩
        phase := .candidate [p] }
      (r.cast p (c.hard.term + 1) p)
  /-- It asks for votes. -/
  | ask (votes : List NodeId) (hphase : c.phase = .candidate votes) :
    Step members p c r c (r.ask ⟨c.hard.term, p, c.log.length, lastTerm c.log⟩)
  /-- It gives its vote. -/
  | grant (q : VoteRequest) (hphase : c.phase = .idle) (hq : r.asked q)
      (hterm : q.term = c.hard.term)
      (hfree : ∀ v, c.hard.vote = some v → v.term = q.term → v.candidate = q.candidate)
      (hrecent : Election.isRecent c.log.length (lastTerm c.log) q.lastIndex q.lastTerm = true) :
    Step members p c r { c with hard := ⟨q.term, some ⟨q.candidate, q.term⟩⟩ }
      (r.cast p q.term q.candidate)
  /-- It counts a vote. -/
  | count (votes : List NodeId) (v : NodeId) (hphase : c.phase = .candidate votes)
      (hnew : v ∉ votes) (hv : v ∈ members) (hballot : r.ballot v c.hard.term p) :
    Step members p c r { c with phase := .candidate (votes ++ [v]) } r
  /-- It wins its election, and writes a no-op. -/
  | win (votes : List NodeId) (hphase : c.phase = .candidate votes)
      (hmajority : majority members.length ≤ votes.length) :
    Step members p c r
      { c with
        log := c.log ++ [.noop (c.log.length + 1) c.hard.term]
        phase := .leader }
      (r.lead p c.hard.term (c.log ++ [.noop (c.log.length + 1) c.hard.term]))
  /-- It takes a command into its log that is not there yet. -/
  | append (e : Entry) (hphase : c.phase = .leader) (hindex : e.index = c.log.length + 1)
      (hterm : e.term = c.hard.term) (hfresh : ∀ x ∈ c.log, ¬ x.SameRequest e) :
    Step members p c r { c with log := c.log ++ [e] } (r.lead p c.hard.term (c.log ++ [e]))
  /-- It sends a part of its log. -/
  | offer (q : AppendRequest) (hphase : c.phase = .leader) (hterm : q.term = c.hard.term)
      (hpart : q.IsPartOf c.log) (hcommit : q.commit = c.commit) :
    Step members p c r c (r.offer q)
  /-- It merges what it was sent into its log. -/
  | merge (q : AppendRequest) (l : List Entry) (hphase : c.phase = .idle) (hq : r.offered q)
      (hterm : q.term = c.hard.term) (hprev : termAt c.log q.prevIndex = some q.prevTerm)
      (hl : Merged c.commit c.log q.entries l) :
    Step members p c r { c with log := l } r
  /-- It confirms that it holds what it was sent. -/
  | confirm (q : AppendRequest) (hphase : c.phase = .idle) (hq : r.offered q)
      (hterm : q.term = c.hard.term) (hheld : q.HeldBy c.log) :
    Step members p c r c (r.hold p q.term q.last)
  /-- It learns what its leader committed. -/
  | learn (q : AppendRequest) (i : Nat) (hphase : c.phase = .idle) (hq : r.offered q)
      (hterm : q.term = c.hard.term) (hheld : q.HeldBy c.log) (hi : i ≤ min q.commit q.last) :
    Step members p c r { c with commit := i } r
  /-- It commits what a quorum holds. -/
  | commit (i : Nat) (Q : List NodeId) (hphase : c.phase = .leader)
      (hterm : termAt c.log i = some c.hard.term) (hi : 0 < i) (hQ : Quorum members Q)
      (hheld : ∀ v ∈ Q, i ≤ r.held v c.hard.term) :
    Step members p c r { c with commit := i } r

end Raft.Protocol
