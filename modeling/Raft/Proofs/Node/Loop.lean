import Raft.Proofs.Node.Follower
import Raft.Proofs.Node.Candidate
import Raft.Proofs.Node.Leader
import Raft.Server

/-!
# What the event loop does

Whatever a node handles, an event, a tick or a role event, it makes moves only. A role event is taken
from the queue before it is handled; the moves are those of the node that still has it.

* `Work.IsDue n w`: the work `w` comes up in the node `n`.
* `Server.handle_cases`: a server that handled something made moves and goes on, or broke and ended.
-/

namespace Raft

namespace Node

variable {src : Option Event} {n : Node}

/-- An event that is handled with an empty queue. -/
theorem handle_does {e : Event} (hsrc : src = some e) (hexpects : n.outline.Expects e)
    (hopen : n.outline.closed = false) (hqueue : n.outline.queue = []) :
    Does src (handle e) n fun _ _ => True := by
  unfold handle
  refine does_get_bind ?_
  have hstance : n.outline.stance = n.role.stance := rfl
  cases hrole : n.role with
  | follower timer =>
    rw [hrole] at hstance
    exact Follower.handle_does hsrc hstance hopen hqueue
  | candidate timer votes =>
    rw [hrole] at hstance
    exact Candidate.handle_does hsrc hstance hopen hqueue
  | leader l =>
    rw [hrole] at hstance
    exact Leader.handle_does hsrc hexpects ⟨hopen, hqueue, _, hstance⟩

/-- A role that acts on its own. -/
theorem tick_does (hopen : n.outline.closed = false) (hqueue : n.outline.queue = []) :
    Does src tick n fun _ _ => True := by
  unfold tick
  refine does_get_bind ?_
  have hstance : n.outline.stance = n.role.stance := rfl
  cases hrole : n.role with
  | follower timer =>
    rw [hrole] at hstance
    exact Follower.tick_does hstance hopen hqueue
  | candidate timer votes =>
    rw [hrole] at hstance
    exact Candidate.tick_does hstance hopen hqueue
  | leader l =>
    rw [hrole] at hstance
    exact Leader.tick_does ⟨hopen, hqueue, _, hstance⟩

/-! ## Role events -/

theorem moves_utter_all {es : List Effect} (hes : ∀ e ∈ es, ∀ src o, Utters src o e) (o : Outline) :
    Moves src o { o with effects := o.effects ++ es } := by
  induction es generalizing o with
  | nil => exact Moves.of_eq (by simp)
  | cons e es ih =>
    have hmove := (Move.utter e (hes e (List.mem_cons_self ..) src o)).moves
    have hrest := ih (fun e he => hes e (List.mem_cons_of_mem _ he))
      { o with effects := o.effects ++ [e] }
    refine hmove.trans (hrest.trans (Moves.of_eq ?_))
    simp

theorem become_follower_ensures (h : n.role.kind ≠ .follower) :
    (become .follower).Ensures n (fun _ m => m.outline = { n.outline with stance := .follower })
      fun _ _ => False := by
  refine (become_follower_leaves h).weaken ?_
  rintro _ _ ⟨timer, seed, rfl⟩
  rfl

theorem become_candidate_ensures (n : Node) :
    (become .candidate).Ensures n
      (fun _ m => n.outline.stance = .follower
        ∧ m.outline = { n.outline with stance := .candidate [] })
      (Refused n) := by
  refine (become_leaves .candidate n).mono ?_ fun _ _ hf => hf.1
  rintro _ _ ⟨r, seed, hr, rfl⟩
  cases hr with
  | candidate timer old hrole =>
    refine ⟨?_, rfl⟩
    simp only [outline, hrole, Role.stance]

theorem become_leader_ensures (n : Node) :
    (become .leader).Ensures n
      (fun _ m => (∃ votes, n.outline.stance = .candidate votes
          ∧ majority n.outline.voters ≤ votes.length)
        ∧ m.outline = { n.outline with stance := .leader [] }
        ∧ m.view = n.view ∧ ∃ l, m.role = .leader l ∧ l.matched = [])
      (Refused n) := by
  refine (become_leaves .leader n).mono ?_ fun _ _ hf => hf.1
  rintro _ _ ⟨r, seed, hr, rfl⟩
  cases hr with
  | leader timer old votes hrole hmajority =>
    refine ⟨⟨votes, ?_, hmajority⟩, rfl, rfl, _, rfl, rfl⟩
    simp only [outline, hrole, Role.stance]

/-- A step down in moves: clients are let go, they are told, and the node settles. -/
theorem moves_of_dismissed {m : Node} {es : List Effect} {w : Waiters} (leader : Option NodeId)
    (hes : ∀ e ∈ es, ∀ src o, Utters src o e)
    (hw : ∀ i x, w.Has i x → n.applier.waiters.Has i x)
    (hm : m.outline = { n.outline with
      stance := .follower
      effects := n.outline.effects ++ es
      applier := { n.outline.applier with waiters := w } }) :
    Moves src { n.outline with queue := .becomeFollower leader :: n.outline.queue } m.outline := by
  rw [hm]
  refine (Move.dismiss (o := { n.outline with
    queue := .becomeFollower leader :: n.outline.queue }) w hw).moves.trans ?_
  refine (moves_utter_all hes _).trans ?_
  exact (Move.settle (o := { n.outline with
    effects := n.outline.effects ++ es
    queue := .becomeFollower leader :: n.outline.queue
    applier := { n.outline.applier with waiters := w } }) leader n.outline.queue rfl).moves

theorem becomeFollower_ensures (leader : Option NodeId) (n : Node) :
    (handleRole (.becomeFollower leader)).Ensures n
      (fun _ m => Moves src
        { n.outline with queue := .becomeFollower leader :: n.outline.queue } m.outline)
      fun _ _ => False := by
  have hsame : ∀ m : Node, m.outline = { n.outline with stance := .follower } →
      Moves src { n.outline with queue := .becomeFollower leader :: n.outline.queue } m.outline := by
    intro m hm
    have hnone : ∀ e ∈ ([] : List Effect), ∀ src o, Utters src o e := fun _ he => by cases he
    refine moves_of_dismissed leader hnone (w := n.applier.waiters) (fun _ _ h => h) ?_
    rw [hm, List.append_nil]
    rfl
  unfold handleRole
  refine Action.ensures_modify_bind (Action.ensures_get_bind ?_)
  generalize hk : ({ n with view := _ } : Node) = k
  have ho : k.outline = n.outline := by
    rw [← hk]
    cases leader <;> rfl
  have hstance : k.outline.stance = k.role.stance := rfl
  cases hrole : k.role with
  | follower timer =>
    rw [hrole] at hstance
    refine Action.ensures_pure (hsame k ?_)
    have hfollower : k.outline.stance = .follower := hstance
    rw [← ho, ← hfollower]
  | candidate timer votes =>
    refine (become_follower_ensures (by rw [hrole]; simp [Role.kind])).mono (fun _ m hm => ?_)
      fun _ _ hf => hf
    refine hsame m ?_
    rw [hm, ho]
  | leader l =>
    refine (Leader.onStepDown_ensures leader hrole).bind ?_
    rintro _ m ⟨hkind, es, w, hes, hw, hm⟩
    refine (become_follower_ensures (by rw [hkind]; simp)).mono
      (fun _ j hj => ?_) fun _ _ hf => hf
    have hwaiters : k.applier.waiters = n.applier.waiters :=
      congrArg (fun o : Outline => o.applier.waiters) ho
    rw [hwaiters] at hw
    refine moves_of_dismissed leader hes hw ?_
    rw [hj, hm, ho]

/-- A node with nothing else to do has taken its role event. -/
theorem moves_take {o : Outline} {e : RoleEvent} (hqueue : o.queue = []) (he : stepsDown e = false)
    (hcommit : ∀ i, e ≠ .newCommit i) : Moves src { o with queue := [e] } o := by
  refine (Move.take (o := { o with queue := [e] }) e [] rfl he hcommit).moves.trans
    (Moves.of_eq ?_)
  rw [← hqueue]

theorem becomeCandidate_ensures (hopen : n.outline.closed = false) (hqueue : n.outline.queue = []) :
    (handleRole .becomeCandidate).Ensures n
      (fun _ m => Moves src { n.outline with queue := [.becomeCandidate] } m.outline)
      fun f m => Fails src { n.outline with queue := [.becomeCandidate] } f m.outline := by
  have htake : Moves src { n.outline with queue := [.becomeCandidate] } n.outline :=
    moves_take hqueue rfl nofun
  unfold handleRole
  refine Action.Ensures.bind ((become_candidate_ensures n).mono (fun _ _ h => h) ?_) ?_
  · rintro f _ ⟨-, rfl⟩
    exact Fails.of_moves htake
  · rintro _ m ⟨hstance, hm⟩
    refine startElection_ensures (by rw [hm]; exact hopen) (by rw [hm]; exact hqueue) ?_ ?_
    · rw [hm]
      refine htake.trans (Move.stand n.outline.hard.term hqueue ?_ (Nat.le_refl _)).moves
      intro l hl
      rw [hstance] at hl
      cases hl
    · intro h hle
      rw [hm] at hle ⊢
      exact ⟨n.outline, htake, rfl, rfl, rfl, Or.inl rfl, hle, rfl, rfl, rfl, rfl, rfl⟩

theorem becomeLeader_ensures (hopen : n.outline.closed = false) (hqueue : n.outline.queue = []) :
    (handleRole .becomeLeader).Ensures n
      (fun _ m => Moves src { n.outline with queue := [.becomeLeader] } m.outline)
      fun f m => Fails src { n.outline with queue := [.becomeLeader] } f m.outline := by
  have htake : Moves src { n.outline with queue := [.becomeLeader] } n.outline :=
    moves_take hqueue rfl nofun
  unfold handleRole
  refine Action.Ensures.bind ((become_leader_ensures n).mono (fun _ _ h => h) ?_) ?_
  · rintro f _ ⟨-, rfl⟩
    exact Fails.of_moves htake
  · rintro _ m ⟨⟨votes, hstance, hmajority⟩, hm, hview, l, hrole, hl⟩
    refine Leader.onElected_ensures hrole hl (by rw [hm]; exact hopen) (by rw [hm]; exact hqueue)
      ?_ ?_
    · rw [hm, hview]
      exact htake.trans (Move.lead votes hqueue hstance hmajority).moves
    · intro s
      rw [hm]
      exact ⟨n.outline, htake, rfl, rfl, rfl, Or.inl rfl, Nat.le_refl _, rfl, rfl, rfl, rfl, rfl⟩

theorem newCommit_ensures (i : Nat) (n : Node) :
    (handleRole (.newCommit i)).Ensures n
      (fun _ m => Moves src { n.outline with queue := .newCommit i :: n.outline.queue } m.outline)
      fun _ _ => False := by
  refine Action.ensures_modify ?_
  exact (Move.inform (o := { n.outline with queue := .newCommit i :: n.outline.queue }) i
    n.outline.queue rfl).moves

theorem replay_ensures {e : Event} (hsrc : src = some e) (hexpects : n.outline.Expects e)
    (hopen : n.outline.closed = false) (hqueue : n.outline.queue = []) :
    (handleRole (.replay e)).Ensures n
      (fun _ m => Moves src { n.outline with queue := [.replay e] } m.outline)
      fun f m => Fails src { n.outline with queue := [.replay e] } f m.outline :=
  (Does.after (moves_take hqueue rfl fun _ h => by cases h)
    (handle_does hsrc hexpects hopen hqueue)).weaken fun _ _ h => h.1

end Node

/-! ## Work -/

/-- The event that a work is about. -/
def Work.source : Work → Option Event
  | .role (.replay e) => some e
  | .role _ => none
  | .tick => none
  | .event e => some e

/-- The outline of a node that has a role event still to take. -/
def Work.outline (n : Node) : Work → Node.Outline
  | .role e => { n.outline with queue := e :: n.outline.queue }
  | .tick => n.outline
  | .event _ => n.outline

/-- A work that comes up in a node. Stepping down and informing the apply loop can leave other role
events waiting; everything else is done with an empty queue. -/
def Work.IsDue (n : Node) : Work → Prop
  | .role (.becomeFollower _) => True
  | .role (.newCommit _) => True
  | .role (.replay e) => n.outline.queue = [] ∧ n.outline.Expects e
  | .role _ => n.outline.queue = []
  | .tick => n.outline.queue = []
  | .event e => n.outline.queue = [] ∧ n.outline.Expects e

/-- **What the loop does.** A work that comes up consists of moves. -/
theorem Work.run_ensures {n : Node} {w : Work} (hopen : n.outline.closed = false)
    (hdue : w.IsDue n) :
    w.run.Ensures n (fun _ m => Node.Moves w.source (w.outline n) m.outline)
      fun f m => Node.Fails w.source (w.outline n) f m.outline := by
  cases w with
  | role e =>
    cases e with
    | becomeFollower leader =>
      exact (Node.becomeFollower_ensures leader n).mono_of_sure fun _ _ h => h
    | newCommit i =>
      exact (Node.newCommit_ensures i n).mono_of_sure fun _ _ h => h
    | becomeCandidate =>
      unfold Work.outline
      rw [show n.outline.queue = [] from hdue]
      exact Node.becomeCandidate_ensures hopen hdue
    | becomeLeader =>
      unfold Work.outline
      rw [show n.outline.queue = [] from hdue]
      exact Node.becomeLeader_ensures hopen hdue
    | replay e =>
      obtain ⟨hqueue, hexpects⟩ := hdue
      unfold Work.outline
      rw [hqueue]
      exact Node.replay_ensures rfl hexpects hopen hqueue
  | tick =>
    exact (Node.tick_does hopen hdue).mono (fun _ _ h => h.1) fun _ _ h => h
  | event e =>
    exact (Node.handle_does rfl hdue.2 hopen hdue.1).mono (fun _ _ h => h.1) fun _ _ h => h

namespace Server

variable {s : Server} {w : Work}

/-- A server that handled something made moves and goes on, or it broke and ended. -/
theorem handle_cases (hopen : s.node.outline.closed = false) (hdue : w.IsDue s.node) :
    ((s.handle w).ended = s.ended ∧ (s.handle w).schedule = s.schedule
        ∧ Node.Moves w.source (w.outline s.node) (s.handle w).node.outline)
      ∨ ((s.handle w).ended.isSome = true ∧ (s.handle w).schedule = s.schedule
        ∧ Node.Breaks w.source (w.outline s.node) (s.handle w).node.outline) := by
  have h := Work.run_ensures hopen hdue
  unfold Action.Ensures at h
  unfold handle
  cases hrun : w.run.run s.node with
  | ok a n =>
    rw [hrun] at h
    exact Or.inl ⟨rfl, rfl, h⟩
  | error f n =>
    rw [hrun] at h
    have hstop : Node.Breaks w.source (w.outline s.node) n.outline →
        Node.Breaks w.source (w.outline s.node) { n.outline with queue := [] } := by
      rintro ⟨o, hmoves, hwreck⟩
      exact ⟨o, hmoves, { hwreck with }⟩
    cases f with
    | overflow => exact Or.inr ⟨rfl, rfl, hstop h⟩
    | error e =>
      dsimp only [Action.outcome]
      unfold Node.Fails at h
      dsimp only at h
      split
      · rename_i he
        rw [if_pos he] at h
        exact Or.inr ⟨rfl, rfl, hstop h⟩
      · rename_i he
        rw [if_neg he] at h
        exact Or.inl ⟨rfl, rfl, h⟩

theorem exists_of_start {s : Server} {settings : Settings} {storage : Node.Remains}
    {window now : Nat} {seed : Seed}
    (h : Server.start settings true (.ok storage) window now seed = .ok s) :
    settings.validate = .ok () ∧ ∃ node, Node.start settings window storage now seed = .ok node
      ∧ s = { node, schedule := ⟨settings.consensus.commit.interval, now, none⟩,
              status := node.status } := by
  unfold Server.start at h
  obtain ⟨_, hvalid, h⟩ := exists_of_bind_eq_ok h
  rw [if_neg (by decide)] at h
  obtain ⟨_, hstorage, h⟩ := exists_of_bind_eq_ok h
  obtain rfl := Except.ok.inj hstorage
  obtain ⟨node, hnode, h⟩ := exists_of_bind_eq_ok h
  exact ⟨hvalid, node, hnode, (Except.ok.inj h).symm⟩

theorem start_cases {s : Server} {settings : Settings} {storage : Node.Remains}
    {window now : Nat} {seed : Seed}
    (h : Server.start settings true (.ok storage) window now seed = .ok s) :
    settings.validate = .ok () ∧ s.isRunning = true ∧ s.node.writeFailed = false
      ∧ ∃ sessions, Sessions.rebuild window storage.log storage.machine storage.machine.last
          = .ok sessions
        ∧ s.node.outline =
          { self := settings.cluster.node
            members := settings.cluster.members.map Member.id
            voters := settings.cluster.members.length
            stance := .follower
            hard := storage.stored.getD {}
            stored := storage.stored
            commit := storage.machine.last
            log := storage.log.entries
            queue := []
            closed := false
            signals := []
            effects := []
            applier :=
              { batch := settings.consensus.commit.batch
                lastApplied := storage.machine.last
                machine := storage.machine
                sessions } } := by
  obtain ⟨hvalid, node, hnode, rfl⟩ := exists_of_start h
  obtain ⟨sessions, timer, seed, hsessions, rfl⟩ := Node.exists_of_start hnode
  exact ⟨hvalid, rfl, rfl, sessions, hsessions, rfl⟩

end Server

end Raft
