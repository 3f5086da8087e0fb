import Raft.Proofs.Network.Clients
import Raft.Proofs.Node.Loop

/-!
# A cluster that agrees with its past

Between two acts every member, and everything that is under way, agrees with what the cluster has
done.

* `Outline.Fits past p o`: a node that runs agrees with the past, `Outline.Rests` one that ended.
* `Network.Sound members n r`: the whole cluster agrees with the record.
-/

namespace Raft

open Node (Outline)
open Protocol (Core Record)

/-! ## Nodes -/

namespace Node.Outline

open Network (Past)

/-- What the protocol sees of a node that runs. -/
def core (o : Outline) : Core := ⟨o.hard, o.log, o.commit, o.phase⟩

/-- What the protocol sees of a node that ended: it starts again from what it stored. -/
def restCore (o : Outline) : Core := ⟨o.stored.getD {}, o.log, o.commit, .idle⟩

/-- The match indexes of a leader: one for each peer, none beyond what the peer was found to hold. -/
structure Tallied (past : Past) (p : NodeId) (t : Nat) (m : PeerMap) : Prop where
  peers : m.map Prod.fst = past.members.filter (· ≠ p)
  held : ∀ x ∈ m, x.2 ≤ past.record.held x.1 t

/-- What can wait in the queue of a node. -/
inductive Orderly (past : Past) (p : NodeId) (commit : Nat) : List RoleEvent → Prop
  | nil : Orderly past p commit []
  | inform (i : Nat) (hi : i ≤ commit) : Orderly past p commit [.newCommit i]
  | yield (l : Option NodeId) : Orderly past p commit [.becomeFollower l]
  | postpone (l : Option NodeId) (e : Event) (he : past.Knows p e) :
    Orderly past p commit [.becomeFollower l, .replay e]
  | replay (e : Event) (he : past.Knows p e) : Orderly past p commit [.replay e]
  | stand : Orderly past p commit [.becomeCandidate]
  | lead : Orderly past p commit [.becomeLeader]

/-- A node whose event loop ended agrees with the past. -/
structure Rests (past : Past) (p : NodeId) (o : Outline) : Prop where
  term_le : (o.stored.getD {}).term ≤ o.hard.term
  signals : ∀ i ∈ o.signals, i ≤ o.commit
  effects : ∀ e ∈ o.effects, past.Vouches p e
  applier : o.applier.Sound o.log o.commit
  serves : past.Serves o.log o.applier o.effects

/-- A node that runs agrees with the past. -/
structure Fits (past : Past) (p : NodeId) (o : Outline) : Prop extends Rests past p o where
  self : o.self = p
  members : o.members = past.members
  voters : o.voters = past.members.length
  mem : p ∈ past.members
  nodup : past.members.Nodup
  stored : o.stored.getD {} = o.hard
  opened : o.closed = false
  /-- A node that is about to step down need not have counted right. -/
  tallied : ∀ m, o.stance = .leader m → o.queue.any stepsDown = false →
    Tallied past p o.hard.term m
  queue : Orderly past p o.commit o.queue

variable {a b : Past} {p : NodeId} {o : Outline} {commit i : Nat} {queue : List RoleEvent}

theorem Tallied.mono {t : Nat} {m : PeerMap} (g : a.Grows b) (h : Tallied a p t m) :
    Tallied b p t m where
  peers := by rw [h.peers, g.members]
  held x hx := Nat.le_trans (h.held x hx) (g.record.held_le _ _)

theorem Orderly.mono (g : a.Grows b) (h : Orderly a p commit queue) (hi : commit ≤ i) :
    Orderly b p i queue := by
  cases h with
  | nil => exact .nil
  | inform j hj => exact .inform j (Nat.le_trans hj hi)
  | yield l => exact .yield l
  | postpone l e he => exact .postpone l e (he.mono g)
  | replay e he => exact .replay e (he.mono g)
  | stand => exact .stand
  | lead => exact .lead

/-- What is handled again is on record. -/
theorem Orderly.knows {e : Event} (h : Orderly a p commit queue) (he : .replay e ∈ queue) :
    a.Knows p e := by
  cases h with
  | nil => cases he
  | inform | yield | stand | lead => cases List.mem_singleton.1 he
  | postpone l x hx =>
    rcases List.mem_cons.1 he with heq | hmem
    · cases heq
    · obtain rfl := RoleEvent.replay.inj (List.mem_singleton.1 hmem)
      exact hx
  | replay x hx =>
    obtain rfl := RoleEvent.replay.inj (List.mem_singleton.1 he)
    exact hx

theorem Rests.mono (g : a.Grows b) (h : Rests a p o) : Rests b p o :=
  { h with
    effects := fun e he => (h.effects e he).mono g
    serves := h.serves.mono g }

theorem Fits.mono (g : a.Grows b) (h : Fits a p o) : Fits b p o where
  toRests := h.toRests.mono g
  self := h.self
  members := by rw [h.members, g.members]
  voters := by rw [h.voters, g.members]
  mem := by
    rw [g.members]
    exact h.mem
  nodup := by
    rw [g.members]
    exact h.nodup
  stored := h.stored
  opened := h.opened
  tallied m hm hq := (h.tallied m hm hq).mono g
  queue := h.queue.mono g (Nat.le_refl _)

end Node.Outline

/-! ## The cluster -/

namespace Network

def Site.core : Site → Core
  | .up s => if s.isRunning then s.node.outline.core else s.node.outline.restCore
  | .down r => ⟨r.stored.getD {}, r.log.entries, r.machine.last, .idle⟩

/-- What is left of a node agrees with the past: its state machine has applied a part of its log. -/
def Leaves (past : Past) (x : Node.Remains) : Prop :=
  ∀ window, past.Uniform window →
    ∃ t, x.machine.Follows window x.log.entries x.machine.last t

/-- A member agrees with the past. -/
def Site.Fits (past : Past) (p : NodeId) : Site → Prop
  | .up s => if s.isRunning then s.node.outline.Fits past p else s.node.outline.Rests past p
  | .down x => Leaves past x

/-- What the messages of a cluster are judged by. -/
def past (n : Network) (members : List NodeId) (r : Record) : Past :=
  ⟨members, n.callers, n.windows, r⟩

def cores (n : Network) (p : NodeId) : Core := (n.site p).core

/-- A cluster agrees with the record of what it has done. -/
structure Sound (members : List NodeId) (n : Network) (r : Record) : Prop where
  protocol : Protocol.Sound members n.cores r
  site : ∀ p, (n.site p).Fits (n.past members r) p
  origin : (n.past members r).Origin
  sent : ∀ l ∈ n.sent, (n.past members r).Holds l
  callers : ∀ l, .letter l ∈ n.callers → (n.past members r).Holds l
  replies : ∀ y ∈ n.replies, (n.past members r).Vouches y.node (.answer y.caller y.answer)
  /-- What was reported to clients is borne out by committed logs. -/
  reports : ∀ y ∈ n.replies, ∀ c, y.answer = .client (.committed c) →
    ∃ q, (n.past members r).Asks y.caller q ∧ (n.past members r).Bears q.client q.sequence c

theorem Leaves.mono {a b : Past} {x : Node.Remains} (g : a.Grows b) (h : Leaves a x) :
    Leaves b x :=
  fun window hw => h window (hw.anti g)

theorem Site.Fits.mono {a b : Past} {p : NodeId} {s : Site} (g : a.Grows b) (h : s.Fits a p) :
    s.Fits b p := by
  cases s with
  | down x => exact Leaves.mono g h
  | up s =>
    unfold Site.Fits at h ⊢
    dsimp only at h ⊢
    split
    · rename_i hs
      rw [if_pos hs] at h
      exact h.mono g
    · rename_i hs
      rw [if_neg hs] at h
      exact h.mono g

theorem sound_init (members : List NodeId) (whole : NodeId → Bool) :
    Sound members (init whole) {} where
  protocol := Protocol.sound_init
  site _ := fun window _ => ⟨Sessions.empty window, rfl, rfl, rfl⟩
  origin := nofun
  sent := nofun
  callers := nofun
  replies := nofun
  reports := nofun

end Network

end Raft
