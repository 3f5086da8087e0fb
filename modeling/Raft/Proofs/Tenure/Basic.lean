import Mathlib.Logic.Relation
import Raft.Proofs.Node.Follower

/-!
# The tenure of a node

What a node holds its role with, and what it owes: the progress of a leader with each peer, its
term, vote and log, the role events it queued, and the clients that wait. The handlers are taken
apart into deeds, which change a tenure. Nothing is assumed of the events that come in; a deed says
which event it takes, and how the tenure relates to the one at which that event was taken up.

* `Node.tenure` forgets everything else.
* `Deed src o a b` is one deed in the course of what was taken up at `o`; `Reached src o a` is what
  deeds lead to.
* `Lapses src o f b`: what a run that fails leaves.
* `Node.Performs src o x n Q`: the run of `x` from `n` goes on in deeds and ends in `Q`.
* `Node.Sits x n Q`: the run of `x` from `n` leaves the tenure as it is and does not fail.
-/

namespace Raft

open Node (stepsDown)

/-! ## Tenures -/

/-- What a leader knows of its peers, and of its own no-op. -/
structure Progress where
  next : PeerMap := []
  matched : PeerMap := []
  noop : Option Nat := none
  inFlight : List NodeId := []

/-- What a leader starts with over a log of some length, and its no-op. -/
def Progress.first (peers : List NodeId) (length : Nat) : Progress where
  next := peers.foldl (fun m peer => m.put peer (length + 1)) []
  matched := peers.foldl (fun m peer => m.put peer 0) []
  noop := some (length + 1)

def LeaderState.progress (l : LeaderState) : Progress := ⟨l.next, l.matched, l.noop, l.inFlight⟩

/-- A role with what it is held by. -/
inductive Seat where
  | follower
  | candidate (votes : List NodeId)
  | leader (x : Progress)

def Role.seat : Role → Seat
  | .follower _ => .follower
  | .candidate _ votes => .candidate votes
  | .leader l => .leader l.progress

/-- What a node holds its role with, and what it owes. -/
structure Tenure where
  self : NodeId
  peers : List NodeId
  /-- The number of members that a quorum of votes is taken of. -/
  voters : Nat
  /-- The number of votes at which a candidate takes itself for elected. -/
  quorum : Nat
  seat : Seat
  hard : HardState
  stored : Option HardState
  log : Log
  queue : List RoleEvent
  closed : Bool
  /-- The last index that was applied. -/
  applied : Nat
  /-- The last index at which the state machine applied a command. -/
  done : Nat
  waiters : Waiters
  /-- What the apply loop answered. -/
  replied : List (Caller × ClientResponse)
  /-- What the event loop made visible. -/
  said : List Effect

def Node.tenure (n : Node) : Tenure where
  self := n.view.self
  peers := n.view.peers
  voters := n.settings.cluster.members.length
  quorum := n.view.quorum
  seat := n.role.seat
  hard := n.hard
  stored := n.stored
  log := n.log
  queue := n.queue
  closed := n.queueClosed
  applied := n.applier.lastApplied
  done := n.applier.machine.last
  waiters := n.applier.waiters
  replied := n.applier.answers
  said := n.effects.map Departure.effect

namespace Tenure

/-- Role events can be queued, and none waits. -/
structure Free (a : Tenure) : Prop where
  opened : a.closed = false
  queue : a.queue = []

def adopt (a : Tenure) (t : Nat) : Tenure :=
  { a with
    hard := if a.hard.term < t then ⟨t, none⟩ else a.hard
    stored := if a.hard.term < t then some ⟨t, none⟩ else a.stored }

/-- The node stands for election in the term after `t`. -/
def standing (a : Tenure) (t : Nat) : Tenure :=
  { a with
    seat := .candidate [a.self]
    hard := ⟨t + 1, some ⟨a.self, t + 1⟩⟩
    stored := some ⟨t + 1, some ⟨a.self, t + 1⟩⟩ }

/-- A leader no longer awaits the answer whose outcome comes in, if it asked in its own term. -/
def receive (a : Tenure) (src : Option Event) : Tenure :=
  match src, a.seat with
  | some (.appendResult peer request _), .leader x =>
    if request.term = a.hard.term then
      { a with seat := .leader { x with inFlight := x.inFlight.filter (· ≠ peer) } }
    else a
  | _, _ => a

end Tenure

/-- What has to be true when a node that took something up at `o` makes an effect visible at `a`.
Append requests are sent by a deed of their own; a client is answered before anything else is
said. -/
def Says (src : Option Event) (o a : Tenure) : Effect → Prop
  | .send _ (.append _) => False
  | .send .. => True
  | .answer caller (.client _) =>
    (∃ q request, src = some (.propose q request caller)) ∧ a.said = o.said
      ∧ a.waiters = o.waiters
  | .answer caller (.append (.ok y)) => ∀ hint, y.conflict = some hint →
    ∃ r, src = some (.appendRequest r caller) ∧ o.hard.term ≤ r.term ∧ y.term = r.term
      ∧ Rejects o.log r hint
  | .answer .. => True

/-- What no deed changes: who the node is, and what it applied. -/
structure Tenure.StandsBy (b a : Tenure) : Prop where
  self : b.self = a.self
  peers : b.peers = a.peers
  voters : b.voters = a.voters
  quorum : b.quorum = a.quorum
  closed : b.closed = a.closed
  applied : b.applied = a.applied
  done : b.done = a.done
  replied : b.replied = a.replied

theorem Tenure.StandsBy.refl (a : Tenure) : a.StandsBy a :=
  ⟨rfl, rfl, rfl, rfl, rfl, rfl, rfl, rfl⟩

theorem Tenure.StandsBy.trans {a b c : Tenure} (h : c.StandsBy b) (h' : b.StandsBy a) :
    c.StandsBy a where
  self := h.self.trans h'.self
  peers := h.peers.trans h'.peers
  voters := h.voters.trans h'.voters
  quorum := h.quorum.trans h'.quorum
  closed := h.closed.trans h'.closed
  applied := h.applied.trans h'.applied
  done := h.done.trans h'.done
  replied := h.replied.trans h'.replied

/-! ## Deeds -/

/-- One deed of a node, in the course of what it took up at `o`. -/
inductive Deed (src : Option Event) (o a : Tenure) : Tenure → Prop
  /-- It makes an effect visible. -/
  | say (e : Effect) (h : Says src o a e) : Deed src o a { a with said := a.said ++ [e] }
  /-- A follower enters a term or votes. -/
  | follow (h : HardState) (hseat : a.seat = .follower) (hterm : a.hard.term ≤ h.term) :
    Deed src o a { a with hard := h, stored := some h }
  /-- A follower takes entries into its log. -/
  | merge (l : Log) (ho : o.seat = .follower) (hseat : a.seat = .follower) :
    Deed src o a { a with log := l }
  /-- It asks itself to start an election. -/
  | summon (hqueue : a.queue = []) (hseat : a.seat = .follower) :
    Deed src o a { a with queue := [.becomeCandidate] }
  /-- It asks itself to take the lead. -/
  | elect (votes : List NodeId) (hqueue : a.queue = []) (hseat : a.seat = .candidate votes)
      (hquorum : majority a.voters ≤ votes.length ∨ a.quorum ≤ votes.length) :
    Deed src o a { a with queue := [.becomeLeader] }
  /-- It asks itself to tell the apply loop. -/
  | commit (i : Nat) (hqueue : a.queue = []) : Deed src o a { a with queue := [.newCommit i] }
  /-- It enters a term and asks itself to step down; a leader does so for a newer term only. -/
  | yield (t : Nat) (l : Option NodeId) (hqueue : a.queue = []) (hterm : a.hard.term ≤ t)
      (hseat : a.seat ≠ .follower) (hleader : ∀ x, a.seat = .leader x → a.hard.term < t) :
    Deed src o a { a.adopt t with queue := [.becomeFollower l] }
  /-- It keeps the request it handles until it has stepped down. -/
  | postpone (e : Event) (l : Option NodeId) (hsrc : src = some e) (he : e.IsRequest)
      (hqueue : a.queue = [.becomeFollower l]) :
    Deed src o a { a with queue := [.becomeFollower l, .replay e] }
  /-- It starts an election. -/
  | stand (t : Nat) (ho : ∀ x, o.seat ≠ .leader x) (hqueue : a.queue = [])
      (hseat : ∀ x, a.seat ≠ .leader x) (hterm : a.hard.term ≤ t) : Deed src o a (a.standing t)
  /-- It counts a vote. -/
  | count (peer : NodeId) (votes : List NodeId) (hqueue : a.queue = [])
      (hseat : a.seat = .candidate votes) :
    Deed src o a { a with seat := .candidate (votes ++ [peer]) }
  /-- It takes the lead, with a no-op. -/
  | lead (votes : List NodeId) (l : Log) (ho : o.seat = .candidate votes) (hqueue : a.queue = [])
      (hseat : a.seat = .candidate votes)
      (hl : l.entries = a.log.entries ++ [.noop (a.log.lastIndex + 1) a.hard.term]) :
    Deed src o a { a with seat := .leader (.first a.peers a.log.lastIndex), log := l }
  /-- A leader takes a command into its log. -/
  | append (q : ClientRequest) (request : String) (caller : Caller) (x : Progress) (l : Log)
      (hsrc : src = some (.propose q request caller)) (hqueue : a.queue = [])
      (hseat : a.seat = .leader x) (hl : l.entries = a.log.entries
        ++ [.ofCommand (a.log.lastIndex + 1) a.hard.term q.toCommand]) :
    Deed src o a { a with log := l }
  /-- A leader lets a client wait for an entry that is not applied, or was just written. -/
  | register (q : ClientRequest) (request : String) (caller : Caller) (e : Entry) (x : Progress)
      (hsrc : src = some (.propose q request caller)) (hqueue : a.queue = [])
      (hseat : a.seat = .leader x)
      (hplace : e ∈ a.log.entries.drop a.applied ∨ a.log.entries = o.log.entries ++ [e])
      (hrequest : e.isRequestOf q.client q.sequence = true) (hsaid : a.said = o.said)
      (hwaiters : a.waiters = o.waiters) :
    Deed src o a { a with waiters := a.waiters.register e.index ⟨request, e.term, caller⟩ }
  /-- A leader sends entries to a peer whose answer it does not await. -/
  | send (peer : NodeId) (r : AppendRequest) (x : Progress) (next commit limit : Nat)
      (hseat : a.seat = .leader x) (hfree : peer ∉ x.inFlight)
      (hrequest : LogStore.appendRequest a.log a.self a.hard.term next commit limit = .ok r) :
    Deed src o a { a with
      seat := .leader { x with inFlight := peer :: x.inFlight }
      said := a.said ++ [.send peer (.append r)] }
  /-- A leader learns how far a peer holds its log. -/
  | tally (peer : NodeId) (request : AppendMeta) (y : AppendResponse) (x : Progress)
      (hsrc : src = some (.appendResult peer request (.ok y)))
      (hterm : request.term = a.hard.term) (hyterm : y.term ≤ a.hard.term)
      (hsuccess : y.success = true) (hseat : a.seat = .leader x) (ho : a = o) :
    Deed src o a { a with
      seat := .leader { x with
        matched := x.matched.put peer (max ((x.matched.lookup peer).getD 0) y.matchIndex)
        next := x.next.put peer
          (max ((x.next.lookup peer).getD (y.matchIndex + 1)) (y.matchIndex + 1)) } }
  /-- A leader steps back to where a peer's log may agree. -/
  | retreat (peer : NodeId) (request : AppendMeta) (y : AppendResponse) (hint : ConflictHint)
      (next : Nat) (x : Progress) (hsrc : src = some (.appendResult peer request (.ok y)))
      (hterm : request.term = a.hard.term) (hyterm : y.term ≤ a.hard.term)
      (hsuccess : y.success = false) (hhint : y.conflict = some hint) (hseat : a.seat = .leader x)
      (hnext : LogStore.nextAfterConflict a.log hint request.prevIndex = .ok next) (ho : a = o) :
    Deed src o a { a with seat := .leader { x with next := x.next.put peer next } }

/-- What a node that took something up at `o` has come to. -/
def Reached (src : Option Event) (o : Tenure) : Tenure → Prop :=
  Relation.ReflTransGen (Deed src o) o

/-- What a failure does not change. A term may have been entered that was not acted on. -/
structure Spares (m b : Tenure) : Prop where
  said : b.said = m.said
  stored : b.stored = m.stored ∨ ∃ t, m.hard.term < t ∧ b.stored = some ⟨t, none⟩
  waiters : b.waiters = m.waiters
  applied : b.applied = m.applied
  done : b.done = m.done
  replied : b.replied = m.replied
  log : b.log.entries = m.log.entries

/-- What a run that fails leaves. A node that survives the failure is where its deeds led, and no
change of role was refused. -/
def Lapses (src : Option Event) (o : Tenure) (f : Failure Error) (b : Tenure) : Prop :=
  ∃ m, Reached src o m ∧ Spares m b
    ∧ ∀ e, f = .error e → e.isFatal = false → b = m ∧ ∀ x, e ≠ .transition x

section Reached

variable {src : Option Event} {o a b m : Tenure} {f : Failure Error}

theorem Reached.refl (o : Tenure) : Reached src o o := Relation.ReflTransGen.refl

theorem Reached.step (h : Reached src o a) (h' : Deed src o a b) : Reached src o b :=
  Relation.ReflTransGen.tail h h'

theorem Reached.of_eq (h : Reached src o a) (hb : b = a) : Reached src o b := hb ▸ h

/-- What every deed keeps holds of whatever is reached. -/
theorem Reached.induct {P : Tenure → Prop} (h : Reached src o a)
    (hstep : ∀ x y, Reached src o x → P x → Deed src o x y → P y) (ho : P o) : P a := by
  induction h with
  | refl => exact ho
  | tail hx hdeed ih => exact hstep _ _ hx ih hdeed

theorem spares_refl (m : Tenure) : Spares m m := ⟨rfl, Or.inl rfl, rfl, rfl, rfl, rfl, rfl⟩

theorem Reached.lapses (h : Reached src o m) (hf : ∀ x, f ≠ .error (.transition x)) :
    Lapses src o f m := by
  refine ⟨m, h, spares_refl m, ?_⟩
  rintro e rfl -
  refine ⟨rfl, ?_⟩
  rintro x rfl
  exact hf x rfl

/-- A failure that stops the node leaves little in order. -/
theorem Reached.lapses_of_stop (h : Reached src o m) (hb : Spares m b) (hf : f.Stops) :
    Lapses src o f b := by
  refine ⟨m, h, hb, ?_⟩
  rintro e rfl he
  rcases hf with hf | ⟨e', he', hfatal⟩
  · cases hf
  · obtain rfl := Failure.error.inj he'
    rw [he] at hfatal
    cases hfatal

theorem Deed.standsBy (h : Deed src o a b) : b.StandsBy a := by
  cases h <;> exact ⟨rfl, rfl, rfl, rfl, rfl, rfl, rfl, rfl⟩

theorem Reached.standsBy (h : Reached src o a) : a.StandsBy o :=
  h.induct (P := fun x => x.StandsBy o) (fun _ _ _ hx hdeed => hdeed.standsBy.trans hx)
    (Tenure.StandsBy.refl o)

end Reached

namespace Tenure

variable {a : Tenure} {t : Nat}

theorem adopt_of_lt (h : a.hard.term < t) :
    a.adopt t = { a with hard := ⟨t, none⟩, stored := some ⟨t, none⟩ } := by
  unfold adopt
  rw [if_pos h, if_pos h]

theorem adopt_of_le (h : t ≤ a.hard.term) : a.adopt t = a := by
  unfold adopt
  rw [if_neg (Nat.not_lt.2 h), if_neg (Nat.not_lt.2 h)]

theorem term_adopt (h : a.hard.term ≤ t) : (a.adopt t).hard.term = t := by
  rcases Nat.lt_or_ge a.hard.term t with hlt | hge
  · rw [adopt_of_lt hlt]
  · rw [adopt_of_le hge]
    omega

theorem receive_of_ne {e : Event} (h : ∀ peer request r, e ≠ .appendResult peer request r) :
    a.receive (some e) = a := by
  cases e with
  | appendResult => exact absurd rfl (h _ _ _)
  | _ => rfl

/-- What is no longer awaited is all that changes. -/
theorem exists_receive_eq (a : Tenure) (src : Option Event) :
    ∃ y, a.receive src = { a with seat := y } := by
  unfold receive
  split
  · split
    · exact ⟨_, rfl⟩
    · exact ⟨a.seat, rfl⟩
  · exact ⟨a.seat, rfl⟩

theorem receive_of_seat {src : Option Event} (h : ∀ x, a.seat ≠ .leader x) :
    a.receive src = a := by
  unfold receive
  split
  · rename_i hx
    exact absurd hx (h _)
  · rfl

end Tenure

/-! ## Runs -/

namespace Node

variable {α β : Type} {src : Option Event} {o : Tenure} {n : Node} {x : Action Node α}
  {Q Q' : α → Node → Prop} {R : β → Node → Prop}

/-- A run from what was reached goes on in deeds, and ends in `Q`. -/
abbrev Performs (src : Option Event) (o : Tenure) (x : Action Node α) (n : Node)
    (Q : α → Node → Prop) : Prop :=
  x.Keeps (fun m => Reached src o m.tenure) (fun f m => Lapses src o f m.tenure) n Q

/-- A run that cannot fail and leaves the tenure as it is. -/
def Sits (x : Action Node α) (n : Node) (Q : α → Node → Prop) : Prop :=
  x.Ensures n (fun a m => m.tenure = n.tenure ∧ Q a m) fun _ _ => False

/-- A run that starts where something is taken up. -/
theorem reaches_of_performs (h : Performs src o x n Q) (ho : n.tenure = o) :
    x.Ensures n (fun _ m => Reached src o m.tenure) fun f m => Lapses src o f m.tenure :=
  (h (ho ▸ Reached.refl _)).weaken fun _ _ hm => hm.1

theorem Sits.performs (h : Sits x n Q) :
    Performs src o x n fun a m => m.tenure = n.tenure ∧ Q a m := by
  intro hn
  refine h.mono_of_sure ?_
  rintro a m ⟨hm, hQ⟩
  exact ⟨hn.of_eq hm, hm, hQ⟩

theorem Sits.performs_bind {f : α → Action Node β} (h : Sits x n Q)
    (hf : ∀ a m, m.tenure = n.tenure → Q a m → Performs src o (f a) m R) :
    Performs src o (x >>= f) n R :=
  h.performs.bind fun a m hm => hf a m hm.1 hm.2

theorem Sits.ensures_bind {f : α → Action Node β} {E : Failure Error → Node → Prop}
    (h : Sits x n Q) (hf : ∀ a m, m.tenure = n.tenure → Q a m → (f a).Ensures m R E) :
    (x >>= f).Ensures n R E :=
  Action.Ensures.bind_of_sure h fun a m hm => hf a m hm.1 hm.2

/-- One deed, done by an action that cannot fail. -/
theorem performs_deed {b : Tenure} (h : x.Ensures n (fun _ m => m.tenure = b) fun _ _ => False)
    (hdeed : Deed src o n.tenure b) : Performs src o x n fun _ m => m.tenure = b := by
  intro hn
  refine h.mono_of_sure ?_
  intro _ m hm
  exact ⟨(hn.step hdeed).of_eq hm, hm⟩

/-- A deed that ends in a failure of storage stops the node. -/
theorem performs_of_stop {b : Tenure}
    (h : x.Ensures n (fun _ m => m.tenure = b) fun f m => f.Stops ∧ Spares n.tenure m.tenure)
    (hdeeds : Reached src o n.tenure → Reached src o b) :
    Performs src o x n fun _ m => m.tenure = b := by
  intro hn
  refine h.mono ?_ ?_
  · intro _ m hm
    exact ⟨(hdeeds hn).of_eq hm, hm⟩
  · rintro f m ⟨hf, hm⟩
    exact hn.lapses_of_stop hm hf

theorem performs_fail {e : Error} (he : ∀ x, e ≠ .transition x) :
    Performs src o (Action.fail e : Action Node α) n Q :=
  Action.keeps_fail fun hn => hn.lapses fun x hx => he x (Failure.error.inj hx)

theorem performs_sum_bind {a b : Nat} {f : Nat → Action Node β}
    (h : Performs src o (f (a + b)) n R) :
    Performs src o (Action.ofExcept (sum a b) >>= f) n R := by
  refine Action.keeps_ofExcept_bind ?_ ?_
  · intro c hc
    rwa [← (sum_eq_ok_iff.1 hc).2]
  · intro e he hn
    rw [eq_overflow_of_sum_eq_error he]
    exact hn.lapses nofun

/-! ## Small actions -/

theorem perform_tenure (e : Effect) (n : Node) :
    (perform e).Ensures n
      (fun _ m => m.tenure = { n.tenure with said := n.tenure.said ++ [e] })
      fun _ _ => False := by
  refine Action.ensures_modify ?_
  simp only [tenure, List.map_append, List.map_singleton, departure]

theorem perform_performs {e : Effect} (h : Says src o n.tenure e) :
    Performs src o (perform e) n fun _ m =>
      m.tenure = { n.tenure with said := n.tenure.said ++ [e] } :=
  performs_deed (perform_tenure e n) (.say e h)

/-- Whatever was said makes no difference to what follows. -/
theorem answer_performs {caller : Caller} {y : Answer}
    (h : Says src o n.tenure (.answer caller y)) :
    Performs src o (answer caller y) n fun _ m =>
      m.tenure = { n.tenure with said := n.tenure.said ++ [.answer caller y] } :=
  perform_performs h

theorem seat_restart (timer : ElectionTimer) (now : Nat) (r : Role) :
    (r.restart timer now).seat = r.seat := by
  cases r <;> rfl

theorem resetTimer_sits (n : Node) : Sits resetTimer n fun _ _ => True := by
  refine (resetTimer_leaves n).weaken ?_
  rintro _ _ ⟨timer, seed, rfl⟩
  refine ⟨?_, trivial⟩
  simp only [tenure, seat_restart]

theorem count_sits (f : Counters → Counters) (n : Node) : Sits (count f) n fun _ _ => True :=
  ⟨rfl, trivial⟩

theorem modify_sits {g : Node → Node} (h : (g n).tenure = n.tenure) :
    Sits (modify g) n fun _ _ => True := ⟨h, trivial⟩

theorem modifyLeader_tenure {f : LeaderState → LeaderState} {l : LeaderState}
    (hrole : n.role = .leader l) :
    (modifyLeader f).Ensures n
      (fun _ m => m.tenure = { n.tenure with seat := .leader (f l).progress }) fun _ _ => False := by
  refine (modifyLeader_leaves hrole).weaken ?_
  rintro _ _ rfl
  rfl

/-- What a leader changes in its bookkeeping alone. -/
theorem modifyLeader_sits {f : LeaderState → LeaderState}
    (hf : ∀ l, (f l).progress = l.progress) : Sits (modifyLeader f) n fun _ _ => True := by
  refine modify_sits ?_
  cases h : n.role with
  | follower | candidate => rfl
  | leader l => simp only [tenure, Role.seat, h, hf l]

theorem exists_leader_of_seat {x : Progress} (h : n.tenure.seat = .leader x) :
    ∃ l, n.role = .leader l ∧ l.progress = x := by
  have hseat : n.role.seat = .leader x := h
  cases hrole : n.role with
  | leader l =>
    rw [hrole] at hseat
    exact ⟨l, rfl, Seat.leader.inj hseat⟩
  | follower | candidate =>
    rw [hrole] at hseat
    cases hseat

theorem seat_of_leader {l : LeaderState} (h : n.role = .leader l) :
    n.tenure.seat = .leader l.progress := by
  show n.role.seat = _
  rw [h]
  rfl

theorem setHard_tenure (h : HardState) (n : Node) :
    (setHard h).Ensures n (fun _ m => m.tenure = { n.tenure with hard := h, stored := some h })
      fun f m => f.Stops ∧ Spares n.tenure m.tenure := by
  refine (setHard_leaves h n).mono ?_ ?_
  · rintro _ _ ⟨savesLeft, rfl⟩
    rfl
  · rintro f _ ⟨hf, rfl⟩
    exact ⟨stops_of_persistence hf, rfl, Or.inl rfl, rfl, rfl, rfl, rfl, rfl⟩

theorem adoptTerm_tenure (t : Nat) (n : Node) :
    (adoptTerm t).Ensures n (fun _ m => m.tenure = n.tenure.adopt t)
      fun f m => f.Stops ∧ Spares n.tenure m.tenure := by
  refine (adoptTerm_leaves t n).mono ?_ ?_
  · rintro _ m (⟨hle, rfl⟩ | ⟨hlt, savesLeft, rfl⟩)
    · exact (Tenure.adopt_of_le (a := m.tenure) hle).symm
    · exact (Tenure.adopt_of_lt (a := n.tenure) hlt).symm
  · rintro f _ ⟨hf, -, rfl⟩
    exact ⟨stops_of_persistence hf, rfl, Or.inl rfl, rfl, rfl, rfl, rfl, rfl⟩

theorem emit_tenure {e : RoleEvent} (hopen : n.tenure.closed = false) :
    (emit e).Ensures n
      (fun _ m => m.tenure = { n.tenure with queue := n.tenure.queue ++ [e] })
      fun _ _ => False := by
  refine (emit_leaves_of_open hopen).weaken ?_
  rintro _ _ rfl
  rfl

theorem emit_performs {e : RoleEvent} (hopen : n.tenure.closed = false)
    (hdeed : Deed src o n.tenure { n.tenure with queue := n.tenure.queue ++ [e] }) :
    Performs src o (emit e) n fun _ m =>
      m.tenure = { n.tenure with queue := n.tenure.queue ++ [e] } :=
  performs_deed (emit_tenure hopen) hdeed

theorem setHard_performs {h : HardState} (hseat : n.tenure.seat = .follower)
    (hterm : n.tenure.hard.term ≤ h.term) :
    Performs src o (setHard h) n fun _ m =>
      m.tenure = { n.tenure with hard := h, stored := some h } :=
  performs_of_stop (setHard_tenure h n) fun hn => hn.step (Deed.follow h hseat hterm)

theorem adoptTerm_performs {t : Nat} (hseat : n.tenure.seat = .follower) :
    Performs src o (adoptTerm t) n fun _ m => m.tenure = n.tenure.adopt t := by
  refine performs_of_stop (adoptTerm_tenure t n) fun hn => ?_
  rcases Nat.lt_or_ge n.tenure.hard.term t with hlt | hge
  · rw [Tenure.adopt_of_lt hlt]
    exact hn.step (Deed.follow ⟨t, none⟩ hseat (Nat.le_of_lt hlt))
  · rw [Tenure.adopt_of_le hge]
    exact hn

/-- A term is entered, and the node asks itself to step down. -/
theorem yield_performs {t : Nat} {l : Option NodeId} (h : n.tenure.Free)
    (hterm : n.tenure.hard.term ≤ t)
    (hseat : n.tenure.seat ≠ .follower)
    (hleader : ∀ x, n.tenure.seat = .leader x → n.tenure.hard.term < t) :
    Performs src o (adoptTerm t >>= fun _ => emit (.becomeFollower l)) n fun _ m =>
      m.tenure = { n.tenure.adopt t with queue := [.becomeFollower l] } := by
  refine performs_of_stop ?_ fun hn => hn.step (Deed.yield t l h.queue hterm hseat hleader)
  refine (adoptTerm_tenure t n).bind fun _ m hm => ?_
  refine (emit_tenure (by rw [hm]; exact h.opened)).mono_of_sure fun _ k hk => ?_
  rw [hk, hm]
  show ({ n.tenure.adopt t with queue := n.tenure.queue ++ [.becomeFollower l] } : Tenure) = _
  rw [h.queue]
  rfl

/-- A term is entered, and a request is kept until the node has stepped down. -/
theorem stepDownAndReplay_performs {t : Nat} {l : Option NodeId} {e : Event}
    (hsrc : src = some e) (he : e.IsRequest) (h : n.tenure.Free) (hterm : n.tenure.hard.term ≤ t)
    (hseat : n.tenure.seat ≠ .follower)
    (hleader : ∀ x, n.tenure.seat = .leader x → n.tenure.hard.term < t) :
    Performs src o (adoptTerm t >>= fun _ => stepDownAndReplay l e) n fun _ _ => True := by
  rw [adoptTerm_stepDownAndReplay]
  refine (yield_performs h hterm hseat hleader).bind fun _ m hm => ?_
  refine (emit_performs (by rw [hm]; exact h.opened) ?_).weaken fun _ _ _ => trivial
  rw [hm]
  exact Deed.postpone e l hsrc he rfl

theorem advanceCommit_performs (i : Nat) (h : n.tenure.Free) :
    Performs src o (advanceCommit i) n fun _ m =>
      ∃ queue, m.tenure = { n.tenure with queue } := by
  intro hn
  refine (advanceCommit_leaves_of_open h.opened).mono_of_sure ?_
  rintro _ m (⟨-, rfl⟩ | ⟨-, rfl⟩)
  · exact ⟨hn, _, rfl⟩
  · refine ⟨hn.step ?_, _, rfl⟩
    show Deed src o n.tenure { n.tenure with queue := n.tenure.queue ++ [.newCommit i] }
    rw [h.queue]
    exact Deed.commit i h.queue

end Node

end Raft
