import Mathlib.Logic.Relation
import Raft.Proofs.Apply.Waiters
import Raft.Proofs.Protocol.Basic
import Raft.Node.Loop

/-!
# What a node does to the cluster

The handlers of a node are taken apart into moves. A move changes the outline of a node, which is
what the other nodes and the safety of the cluster depend on: timers, counters, the leader a node
believes in and the bookkeeping of replication are left out. Each move says under what conditions a
handler makes it, so that a handler has to be looked at only once.

* `Node.outline` forgets what does not matter.
* `Utters src o e`: what has to be true of a node that makes an effect visible.
* `Move src o o'` is one move while the node handles the event `src`, `Moves` any number of them.
* `Wreck o o'`: what a node that stops with a failure can leave.
-/

namespace Raft.Node

/-- What a role is to the other nodes. -/
inductive Stance where
  | follower
  | candidate (votes : List NodeId)
  | leader (matched : PeerMap)

/-- What the safety of the cluster depends on in a node. -/
structure Outline where
  self : NodeId
  members : List NodeId
  /-- The number of members that a quorum of votes is taken of. -/
  voters : Nat
  stance : Stance
  hard : HardState
  stored : Option HardState
  commit : Nat
  log : List Entry
  queue : List RoleEvent
  closed : Bool
  signals : List Nat
  effects : List Effect
  applier : Applier

end Node

/-- A request of another node. -/
def Event.IsRequest : Event → Prop
  | .voteRequest .. => True
  | .appendRequest .. => True
  | .timeoutNowRequest .. => True
  | _ => False

/-- What a role is to the other nodes. -/
def Role.stance : Role → Node.Stance
  | .follower _ => .follower
  | .candidate _ votes => .candidate votes
  | .leader l => .leader l.matched

namespace Node

def outline (n : Node) : Outline where
  self := n.view.self
  members := n.view.memberIds
  voters := n.settings.cluster.members.length
  stance := n.role.stance
  hard := n.hard
  stored := n.stored
  commit := n.commit
  log := n.log.entries
  queue := n.queue
  closed := n.queueClosed
  signals := n.signals
  effects := n.effects.map Departure.effect
  applier := n.applier

/-- Whether a role event asks to step down. -/
def stepsDown : RoleEvent → Bool
  | .becomeFollower _ => true
  | _ => false

namespace Outline

/-- The phase of a node. One that is about to step down is idle. -/
def phase (o : Outline) : Protocol.Phase :=
  if o.queue.any stepsDown then .idle
  else
    match o.stance with
    | .follower => .idle
    | .candidate votes => .candidate votes
    | .leader _ => .leader

/-- Term and vote are changed and stored. -/
def store (o : Outline) (h : HardState) : Outline := { o with hard := h, stored := some h }

/-- A newer term is entered; an older one changes nothing. -/
def adopt (o : Outline) (t : Nat) : Outline :=
  { o with
    hard := if o.hard.term < t then ⟨t, none⟩ else o.hard
    stored := if o.hard.term < t then some ⟨t, none⟩ else o.stored }

/-- The outline without its effects. -/
def mute (o : Outline) : Outline := { o with effects := [] }

def IsPeer (o : Outline) (p : NodeId) : Prop := p ∈ o.members ∧ p ≠ o.self

/-- The answer to an append request comes from a peer. -/
def Expects (o : Outline) : Event → Prop
  | .appendResult peer _ _ => o.IsPeer peer
  | _ => True

def lastId (o : Outline) : LogId := (o.log.getLast?.map Entry.id).getD {}

end Outline

/-! ## Effects -/

/-- What has to be true of a node that makes an effect visible while it handles an event. -/
def Utters (src : Option Event) (o : Outline) : Effect → Prop
  | .send target r =>
    o.IsPeer target
      ∧ match r with
        | .vote r =>
          (∃ votes, o.phase = .candidate votes)
            ∧ r = ⟨o.hard.term, o.self, o.lastId.index, o.lastId.term⟩
        | .append r =>
          o.phase = .leader ∧ r.term = o.hard.term ∧ r.leader = o.self ∧ r.IsPartOf o.log
            ∧ r.commit = o.commit
        | .timeoutNow r => o.phase = .leader ∧ r = ⟨o.hard.term, o.self⟩
  | .answer caller a =>
    match a with
    | .vote (.ok a) => a.granted = true → ∃ r, src = some (.voteRequest r caller)
        ∧ a.term = r.term ∧ o.hard = ⟨r.term, some ⟨r.candidate, r.term⟩⟩
    | .append (.ok a) => a.success = true → ∃ r, src = some (.appendRequest r caller)
        ∧ o.phase = .idle ∧ r.term = o.hard.term ∧ a.term = r.term ∧ a.matchIndex = r.last
        ∧ (Consecutive r.prevIndex r.entries → r.HeldBy o.log)
    | .append (.error (.replication _)) => ∃ r, src = some (.appendRequest r caller)
        ∧ r.term = o.hard.term ∧ termAt o.log r.prevIndex = some r.prevTerm
        ∧ Contradicts o.commit o.log r.entries
    | .client (.committed c) => ∃ q request, src = some (.propose q request caller)
        ∧ o.applier.sessions.check q.client q.sequence = .applied c
    | _ => True

theorem mem_peers {n : Node} {p : NodeId} :
    p ∈ n.view.peers ↔ n.outline.IsPeer p := by
  unfold ClusterView.peers Outline.IsPeer
  simp [outline]

section Utters

variable {src : Option Event} {o : Outline} {caller : Caller}

theorem utters_ask {target : NodeId} {votes : List NodeId}
    (htarget : o.IsPeer target) (hphase : o.phase = .candidate votes) :
    Utters src o (.send target (.vote ⟨o.hard.term, o.self, o.lastId.index, o.lastId.term⟩)) :=
  ⟨htarget, ⟨votes, hphase⟩, rfl⟩

theorem utters_offer {target : NodeId} {r : AppendRequest}
    (htarget : o.IsPeer target) (hphase : o.phase = .leader)
    (hterm : r.term = o.hard.term) (hleader : r.leader = o.self) (hpart : r.IsPartOf o.log)
    (hcommit : r.commit = o.commit) : Utters src o (.send target (.append r)) :=
  ⟨htarget, hphase, hterm, hleader, hpart, hcommit⟩

theorem utters_handOver {target : NodeId} (htarget : o.IsPeer target)
    (hphase : o.phase = .leader) :
    Utters src o (.send target (.timeoutNow ⟨o.hard.term, o.self⟩)) :=
  ⟨htarget, hphase, rfl⟩

theorem utters_vote {a : VoteResponse} (h : a.granted = true → ∃ r,
    src = some (.voteRequest r caller) ∧ a.term = r.term
      ∧ o.hard = ⟨r.term, some ⟨r.candidate, r.term⟩⟩) :
    Utters src o (.answer caller (.vote (.ok a))) := h

theorem utters_append {a : AppendResponse} (h : a.success = true → ∃ r,
    src = some (.appendRequest r caller) ∧ o.phase = .idle ∧ r.term = o.hard.term
      ∧ a.term = r.term ∧ a.matchIndex = r.last
      ∧ (Consecutive r.prevIndex r.entries → r.HeldBy o.log)) :
    Utters src o (.answer caller (.append (.ok a))) := h

theorem utters_conflict {r : AppendRequest} {e : ReplicationError}
    (hsrc : src = some (.appendRequest r caller)) (hterm : r.term = o.hard.term)
    (hprev : termAt o.log r.prevIndex = some r.prevTerm)
    (h : Contradicts o.commit o.log r.entries) :
    Utters src o (.answer caller (.append (.error (.replication e)))) := ⟨r, hsrc, hterm, hprev, h⟩

theorem utters_timeoutNow {a : Except Error TimeoutNowResponse} :
    Utters src o (.answer caller (.timeoutNow a)) := trivial

theorem utters_committed {q : ClientRequest} {request : String} {c : CommitResult}
    (hsrc : src = some (.propose q request caller))
    (hcheck : o.applier.sessions.check q.client q.sequence = .applied c) :
    Utters src o (.answer caller (.client (.committed c))) := ⟨q, request, hsrc, hcheck⟩

theorem utters_notLeader {hint : Option NodeId} :
    Utters src o (.answer caller (.client (.notLeader hint))) := trivial

theorem utters_stale {latest : Nat} :
    Utters src o (.answer caller (.client (.stale latest))) := trivial

theorem utters_transfer {a : Except Error Unit} :
    Utters src o (.answer caller (.transfer a)) := trivial

end Utters

/-! ## Moves -/

/-- One move of a node that handles an event, or something else if `src` is absent. -/
inductive Move (src : Option Event) (o : Outline) : Outline → Prop
  /-- It makes an effect visible. -/
  | utter (e : Effect) (h : Utters src o e) : Move src o { o with effects := o.effects ++ [e] }
  /-- It enters a newer term. -/
  | adopt (t : Nat) (hphase : o.phase = .idle) (ht : o.hard.term < t) :
    Move src o (o.store ⟨t, none⟩)
  /-- It gives its vote. -/
  | grant (r : VoteRequest) (caller : Caller) (hsrc : src = some (.voteRequest r caller))
      (hphase : o.phase = .idle) (hterm : r.term = o.hard.term)
      (hfree : ∀ v, o.hard.vote = some v → v.term = r.term → v.candidate = r.candidate)
      (hrecent : Election.isRecent o.lastId.index o.lastId.term r.lastIndex r.lastTerm = true) :
    Move src o (o.store ⟨r.term, some ⟨r.candidate, r.term⟩⟩)
  /-- It merges what its leader sent into its log. -/
  | merge (r : AppendRequest) (caller : Caller) (l : List Entry)
      (hsrc : src = some (.appendRequest r caller)) (hphase : o.phase = .idle)
      (hterm : r.term = o.hard.term) (hprev : termAt o.log r.prevIndex = some r.prevTerm)
      (hl : Merged o.commit o.log r.entries l) :
    Move src o { o with log := l }
  /-- It learns what its leader committed. -/
  | learn (r : AppendRequest) (caller : Caller) (i : Nat)
      (hsrc : src = some (.appendRequest r caller)) (hphase : o.phase = .idle)
      (hqueue : o.queue = []) (hterm : r.term = o.hard.term)
      (hheld : Consecutive r.prevIndex r.entries → r.HeldBy o.log) (hlt : o.commit < i)
      (hi : i ≤ min r.commit r.last) :
    Move src o { o with commit := i, queue := [.newCommit i] }
  /-- It asks itself to step down. -/
  | yield (l : Option NodeId) (hqueue : o.queue = []) :
    Move src o { o with queue := [.becomeFollower l] }
  /-- It keeps the event it handles until it has stepped down. -/
  | postpone (e : Event) (l : Option NodeId) (hsrc : src = some e)
      (hqueue : o.queue = [.becomeFollower l]) :
    Move src o { o with queue := [.becomeFollower l, .replay e] }
  /-- It steps down. -/
  | settle (l : Option NodeId) (rest : List RoleEvent) (hqueue : o.queue = .becomeFollower l :: rest) :
    Move src o { o with stance := .follower, queue := rest }
  /-- It asks itself to start an election. -/
  | summon (hqueue : o.queue = []) (hstance : o.stance = .follower) :
    Move src o { o with queue := [.becomeCandidate] }
  /-- It starts an election. -/
  | stand (t : Nat) (hqueue : o.queue = []) (hstance : ∀ m, o.stance ≠ .leader m)
      (ht : o.hard.term ≤ t) :
    Move src o
      { o.store ⟨t + 1, some ⟨o.self, t + 1⟩⟩ with stance := .candidate [o.self] }
  /-- It counts a vote. -/
  | count (peer : NodeId) (r : VoteResponse) (votes : List NodeId)
      (hsrc : src = some (.voteResult peer o.hard.term (.ok r))) (hgranted : r.granted = true)
      (hterm : r.term = o.hard.term) (hqueue : o.queue = [])
      (hstance : o.stance = .candidate votes) (hnew : peer ∉ votes) :
    Move src o { o with stance := .candidate (votes ++ [peer]) }
  /-- It asks itself to take the lead. -/
  | elect (votes : List NodeId) (hqueue : o.queue = []) (hstance : o.stance = .candidate votes) :
    Move src o { o with queue := [.becomeLeader] }
  /-- It wins its election, and writes a no-op. -/
  | lead (votes : List NodeId) (hqueue : o.queue = []) (hstance : o.stance = .candidate votes)
      (hmajority : majority o.voters ≤ votes.length) :
    Move src o
      { o with
        stance := .leader ((o.members.filter (· ≠ o.self)).foldl (fun m p => m.put p 0) [])
        log := o.log ++ [.noop (o.log.length + 1) o.hard.term] }
  /-- It takes a client's command into its log. -/
  | append (q : ClientRequest) (request : String) (caller : Caller) (m : PeerMap)
      (hsrc : src = some (.propose q request caller)) (hqueue : o.queue = [])
      (hstance : o.stance = .leader m)
      (hcheck : o.applier.sessions.check q.client q.sequence = .new)
      (htail : ∀ e ∈ o.log.drop o.applier.lastApplied, e.isRequestOf q.client q.sequence = false) :
    Move src o { o with log := o.log ++ [.ofCommand (o.log.length + 1) o.hard.term q.toCommand] }
  /-- It lets a client wait for its command, which is in the log. -/
  | register (q : ClientRequest) (request : String) (caller : Caller) (e : Entry)
      (hsrc : src = some (.propose q request caller)) (he : e ∈ o.log)
      (hrequest : e.isRequestOf q.client q.sequence = true) :
    Move src o
      { o with
        applier :=
          { o.applier with
            waiters := o.applier.waiters.register e.index ⟨request, e.term, caller⟩ } }
  /-- It lets clients wait no longer. -/
  | dismiss (w : Waiters) (hw : ∀ i x, w.Has i x → o.applier.waiters.Has i x) :
    Move src o { o with applier := { o.applier with waiters := w } }
  /-- It learns how far a peer's log agrees with its own. -/
  | tally (peer : NodeId) (request : AppendMeta) (r : AppendResponse) (m : PeerMap)
      (hsrc : src = some (.appendResult peer request (.ok r))) (hrequest : request.term = o.hard.term)
      (hsuccess : r.success = true) (hstance : o.stance = .leader m) :
    Move src o
      { o with stance := .leader (m.put peer (max ((m.lookup peer).getD 0) r.matchIndex)) }
  /-- It commits what a majority holds. -/
  | commit (i : Nat) (m : PeerMap) (hqueue : o.queue = []) (hstance : o.stance = .leader m)
      (hlt : o.commit < i) (hterm : (entryAt o.log i).map Entry.term = some o.hard.term)
      (hmajority : majority (m.length + 1)
        ≤ (m.map Prod.snd ++ [o.log.length]).countP fun a => i ≤ a) :
    Move src o { o with commit := i, queue := [.newCommit i] }
  /-- It tells its apply loop a commit index. -/
  | inform (i : Nat) (rest : List RoleEvent) (hqueue : o.queue = .newCommit i :: rest) :
    Move src o { o with queue := rest, signals := o.signals ++ [i] }
  /-- It takes up another role event. -/
  | take (e : RoleEvent) (rest : List RoleEvent) (hqueue : o.queue = e :: rest)
      (he : stepsDown e = false) (hcommit : ∀ i, e ≠ .newCommit i) :
    Move src o { o with queue := rest }

def Moves (src : Option Event) : Outline → Outline → Prop := Relation.ReflTransGen (Move src)

/-- What a node leaves that stops with a failure: its memory does not count any more, and it may
have entered a newer term last. -/
structure Wreck (o o' : Outline) : Prop where
  self : o'.self = o.self
  members : o'.members = o.members
  voters : o'.voters = o.voters
  stored : o'.stored = o.stored
    ∨ ∃ t, o.hard.term < t ∧ t ≤ o'.hard.term ∧ o'.stored = some ⟨t, none⟩
  term_le : o.hard.term ≤ o'.hard.term
  commit : o'.commit = o.commit
  log : o'.log = o.log
  signals : o'.signals = o.signals
  effects : o'.effects = o.effects
  applier : o'.applier = o.applier

/-- The node stopped with a failure after some moves. -/
def Breaks (src : Option Event) (o o' : Outline) : Prop := ∃ m, Moves src o m ∧ Wreck m o'

theorem Wreck.refl (o : Outline) : Wreck o o :=
  ⟨rfl, rfl, rfl, Or.inl rfl, Nat.le_refl _, rfl, rfl, rfl, rfl, rfl⟩

variable {src : Option Event} {o o' o'' : Outline}

theorem Moves.refl (o : Outline) : Moves src o o := Relation.ReflTransGen.refl

theorem Moves.of_eq (h : o' = o) : Moves src o o' := by
  rw [h]
  exact Moves.refl o

theorem Move.moves (h : Move src o o') : Moves src o o' := Relation.ReflTransGen.single h

theorem Moves.trans (h : Moves src o o') (h' : Moves src o' o'') : Moves src o o'' :=
  Relation.ReflTransGen.trans h h'

theorem Moves.breaks (h : Moves src o o') : Breaks src o o' := ⟨o', h, Wreck.refl o'⟩

theorem Moves.trans_breaks (h : Moves src o o') (h' : Breaks src o' o'') : Breaks src o o'' := by
  obtain ⟨m, hm, hw⟩ := h'
  exact ⟨m, h.trans hm, hw⟩

/-! ## Phases -/

theorem Outline.phase_of_queue_nil (h : o.queue = []) : o.phase =
    match o.stance with
    | .follower => .idle
    | .candidate votes => .candidate votes
    | .leader _ => .leader := by
  unfold Outline.phase
  rw [h]
  simp

theorem Outline.phase_of_follower (h : o.stance = .follower) : o.phase = .idle := by
  unfold Outline.phase
  rw [h]
  simp

theorem Outline.phase_of_candidate {votes : List NodeId} (hqueue : o.queue = [])
    (h : o.stance = .candidate votes) : o.phase = .candidate votes := by
  rw [phase_of_queue_nil hqueue, h]

theorem Outline.phase_of_stays {m : PeerMap} (hstays : o.queue.any stepsDown = false)
    (h : o.stance = .leader m) : o.phase = .leader := by
  unfold Outline.phase
  rw [hstays, h]
  simp

theorem Outline.phase_of_leader {m : PeerMap} (hqueue : o.queue = [])
    (h : o.stance = .leader m) : o.phase = .leader :=
  phase_of_stays (by rw [hqueue]; rfl) h

theorem stance_of_leader {n : Node} {l : LeaderState} (h : n.role = .leader l) :
    n.outline.stance = .leader l.matched := by
  show n.role.stance = _
  rw [h]
  rfl

theorem Outline.phase_of_any (h : o.queue.any stepsDown = true) : o.phase = .idle := if_pos h

end Node

end Raft
