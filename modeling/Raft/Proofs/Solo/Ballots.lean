import Mathlib.Data.Finset.Card
import Raft.Proofs.Solo.Tenures
import Raft.Proofs.Solo.Turns

/-!
# Votes are counted exactly

A candidate learns what became of its vote requests in any order. Answers come twice, or belong to
another term, and requests fail. Whatever comes in, the candidate asks to take the lead once, with
the vote that completes the quorum, and if it has the quorum it is let.

* `Ballot`: what became of a vote request; `Ballot.grants` says that it is a vote of a term.
* `Ballot.voters self t bs`: the node and the peers that gave it their votes.
* `Node.Stands n t`: the node has started an election in a term and heard of no vote yet, as it has
  after `startElection`. `Node.election_ensures` is an election as a whole.
* `Node.polled n timer votes`: the candidate after it has counted votes.
* `Solo.ballots_counted` is the result.
-/

namespace Raft

/-- What became of a vote request. -/
structure Ballot where
  peer : NodeId
  /-- The term of the request. -/
  term : Nat
  answer : Except Error VoteResponse

namespace Ballot

variable {t : Nat} {b : Ballot} {bs bs' : List Ballot} {votes : List NodeId} {self : NodeId}

def event (b : Ballot) : Event := .voteResult b.peer b.term b.answer

/-- The vote was asked for in the term, and granted in it. -/
def grants (t : Nat) (b : Ballot) : Bool :=
  match b.answer with
  | .ok a => b.term = t && a.granted && a.term = t
  | .error _ => false

/-- A request of the term was not answered from a newer one. -/
def isCurrent (t : Nat) (b : Ballot) : Bool :=
  match b.answer with
  | .ok a => b.term ≠ t || a.term ≤ t
  | .error _ => true

/-- The node and the peers that gave it their votes. -/
def voters (self : NodeId) (t : Nat) (bs : List Ballot) : Finset NodeId :=
  insert self ((bs.filter (grants t)).map peer).toFinset

/-- The votes after one more ballot. -/
def tally (t : Nat) (votes : List NodeId) (b : Ballot) : List NodeId :=
  if b.grants t ∧ b.peer ∉ votes then votes ++ [b.peer] else votes

theorem tally_of_not_grants (h : b.grants t = false) : tally t votes b = votes := by
  unfold tally
  rw [if_neg (by simp [h])]

theorem nodup_tally (h : votes.Nodup) : (tally t votes b).Nodup := by
  unfold tally
  split
  · rename_i hnew
    rw [← List.concat_eq_append]
    exact h.concat hnew.2
  · exact h

theorem mem_tally {x : NodeId} :
    x ∈ tally t votes b ↔ x ∈ votes ∨ b.grants t = true ∧ x = b.peer := by
  unfold tally
  split
  · rename_i hnew
    rw [List.mem_append, List.mem_singleton]
    simp [hnew.1]
  · rename_i hold
    constructor
    · exact Or.inl
    · rintro (hx | ⟨hgrants, rfl⟩)
      · exact hx
      · by_contra hx
        exact hold ⟨hgrants, hx⟩

/-- However the ballots come in, everybody who gave its vote is counted once. -/
theorem foldl_tally (bs : List Ballot) (h : votes.Nodup) :
    (bs.foldl (tally t) votes).Nodup
      ∧ ∀ x, x ∈ bs.foldl (tally t) votes
        ↔ x ∈ votes ∨ x ∈ (bs.filter (grants t)).map peer := by
  induction bs generalizing votes with
  | nil => exact ⟨h, fun x => by simp⟩
  | cons b bs ih =>
    obtain ⟨hnodup, hmem⟩ := ih (nodup_tally (t := t) (b := b) h)
    refine ⟨hnodup, fun x => ?_⟩
    rw [List.foldl_cons, hmem, mem_tally, List.filter_cons, or_assoc]
    split
    · rename_i hgrants
      rw [List.map_cons, List.mem_cons]
      simp [hgrants]
    · rename_i hnot
      simp [hnot]

theorem length_foldl_tally (self : NodeId) (t : Nat) (bs : List Ballot) :
    (bs.foldl (tally t) [self]).length = (voters self t bs).card := by
  obtain ⟨hnodup, hmem⟩ := foldl_tally (t := t) bs (List.nodup_singleton self)
  rw [← List.toFinset_card_of_nodup hnodup]
  congr 1
  ext x
  unfold voters
  rw [List.mem_toFinset, hmem, List.mem_singleton, Finset.mem_insert, List.mem_toFinset]

theorem voters_perm (h : bs'.Perm bs) : voters self t bs' = voters self t bs := by
  unfold voters
  rw [List.toFinset_eq_of_perm _ _ ((h.filter _).map _)]

end Ballot

/-! ## Counting -/

namespace Node

open Ballot (tally tally_of_not_grants voters length_foldl_tally)

variable {n m : Node} {t : Nat} {timer : ElectionTimer} {votes : List NodeId} {b : Ballot}

/-- The node has started an election in a term, with its own vote and no other. -/
structure Stands (n : Node) (t : Nat) : Prop where
  role : ∃ timer, n.role = .candidate timer [n.id]
  hard : n.hard = ⟨t, some ⟨n.id, t⟩⟩

/-- A node of a cluster with other members, whose view has the quorum of that cluster. -/
structure Constituted (n : Node) : Prop where
  opened : n.queueClosed = false
  quorum : n.view.quorum = majority n.settings.cluster.members.length
  members : 2 ≤ n.settings.cluster.members.length

theorem Constituted.one_lt_quorum (h : n.Constituted) : 1 < n.view.quorum := by
  have hmembers := h.members
  rw [h.quorum]
  unfold majority
  omega

theorem askForVotes_leaves (peers : List NodeId) (n : Node) :
    (askForVotes peers).Ensures n (fun _ m => ∃ effects, m = { n with effects })
      fun _ _ => False := by
  induction peers generalizing n with
  | nil => exact Action.ensures_pure ⟨n.effects, rfl⟩
  | cons peer rest ih =>
    refine Action.ensures_get_bind (Action.ensures_modify_bind ((ih _).weaken ?_))
    rintro _ m ⟨effects, rfl⟩
    exact ⟨effects, rfl⟩

/-- Whoever starts an election stands for it in the next term. -/
theorem startElection_stands (hn : n.Constituted) :
    startElection.Ensures n
      (fun _ m => m.Stands (n.term + 1) ∧ m.Constituted ∧ m.id = n.id
        ∧ m.view.quorum = n.view.quorum ∧ m.queue = n.queue)
      fun f _ => f.Stops := by
  refine ensures_startElection (Or.inl rfl) (fun e => stops_of_persistence ⟨e, rfl⟩) ?_
  rintro m ⟨timer, savesLeft, seed, counters, rfl⟩
  have hfew : ¬ majority n.settings.cluster.members.length ≤ 1 := by
    rw [← hn.quorum]
    exact Nat.not_le.2 hn.one_lt_quorum
  split
  · -- its own vote is no quorum
    rename_i halone
    exact absurd (of_decide_eq_true halone) hfew
  · refine (askForVotes_leaves _ _).mono_of_sure ?_
    rintro _ k ⟨effects, rfl⟩
    exact ⟨⟨⟨timer, rfl⟩, rfl⟩, ⟨hn.opened, hn.quorum, hn.members⟩, rfl, rfl, rfl⟩

/-- Handles what became of vote requests, one after the other. -/
def handleAll : List Ballot → Action Node Unit
  | [] => return
  | b :: rest => do
    handle b.event
    handleAll rest

/-- The candidate with its votes. With a quorum of them it has asked to take the lead, once. -/
def polled (n : Node) (timer : ElectionTimer) (votes : List NodeId) : Node :=
  { n with
    role := .candidate timer votes
    queue := n.queue ++ if n.view.quorum ≤ votes.length then [.becomeLeader] else [] }

theorem emit_run {e : RoleEvent} (hopen : n.queueClosed = false) :
    (emit e).run n = .ok () { n with queue := n.queue ++ [e] } := by
  show (if n.queueClosed = true then Action.fail queueError
    else set { n with queue := n.queue ++ [e] } : Action Node Unit).run n = _
  rw [if_neg (by simp [hopen])]
  rfl

/-- A new vote is counted; the one that completes the quorum tells the node to take the lead. -/
theorem countVote_polled (hopen : n.queueClosed = false) {peer : NodeId} (hnew : peer ∉ votes) :
    (Candidate.countVote peer).run (n.polled timer votes)
      = .ok () (n.polled timer (votes ++ [peer])) := by
  have hcontains : ¬ votes.contains peer = true := by simpa using hnew
  show (if votes.contains peer = true then pure () else do
    set { n.polled timer votes with role := .candidate timer (votes ++ [peer]) }
    if votes.length + 1 = n.view.quorum then
      emit .becomeLeader : Action Node Unit).run (n.polled timer votes) = _
  rw [if_neg hcontains, EStateM.run_bind]
  show (if votes.length + 1 = n.view.quorum then emit .becomeLeader else pure () :
    Action Node Unit).run { n.polled timer votes with role := .candidate timer (votes ++ [peer]) }
      = _
  split
  · rename_i hlast
    refine (emit_run (n := { n.polled timer votes with
      role := .candidate timer (votes ++ [peer]) }) hopen).trans ?_
    unfold polled
    rw [if_neg (by omega), if_pos (by rw [List.length_append, List.length_singleton]; omega),
      List.append_nil]
  · rename_i hother
    have hsame : n.view.quorum ≤ (votes ++ [peer]).length ↔ n.view.quorum ≤ votes.length := by
      rw [List.length_append, List.length_singleton]
      omega
    unfold polled
    rw [if_congr hsame rfl rfl]
    rfl

theorem countVote_again {peer : NodeId} (hold : peer ∈ votes) :
    (Candidate.countVote peer).run (n.polled timer votes) = .ok () (n.polled timer votes) := by
  have hcontains : votes.contains peer = true := by simpa using hold
  show (if votes.contains peer = true then pure () else _ : Action Node Unit).run _ = _
  rw [if_pos hcontains]
  rfl

/-- An answer that is not from a newer term is counted if it is a vote. -/
theorem onVote_run {peer : NodeId} {a : VoteResponse} (hle : a.term ≤ m.term) :
    (Candidate.onVote peer a).run m
      = (if a.granted && a.term == m.term then Candidate.countVote peer else pure ()).run m := by
  have hvote : Election.isVote m.term a.term a.granted = .ok (a.granted && a.term == m.term) := by
    unfold Election.isVote
    rw [if_neg (Nat.not_lt.2 hle)]
  unfold Candidate.onVote
  rw [EStateM.run_bind, EStateM.run_get]
  dsimp only
  rw [hvote]
  cases a.granted && a.term == m.term <;> rfl

/-- **One ballot.** It is counted if it is a vote of the term from somebody new, and passed over
otherwise. -/
theorem handle_polled (hopen : n.queueClosed = false) (hb : b.isCurrent n.term = true) :
    (handle b.event).run (n.polled timer votes)
      = .ok () (n.polled timer (tally n.term votes b)) := by
  obtain ⟨peer, term, answer⟩ := b
  show (if term = n.term then _ else _ : Action Node Unit).run (n.polled timer votes) = _
  split
  · rename_i hterm
    cases answer with
    | error e =>
      rw [tally_of_not_grants rfl]
      rfl
    | ok a =>
      -- the answer is of the term or of an older one, and a vote only if it is of the term
      have hle : a.term ≤ n.term := by simpa [Ballot.isCurrent, hterm] using hb
      have hgrants : (⟨peer, term, .ok a⟩ : Ballot).grants n.term
          = (a.granted && a.term == n.term) := by
        unfold Ballot.grants
        simp [hterm, beq_eq_decide]
      refine (onVote_run (m := n.polled timer votes) hle).trans ?_
      show (if (a.granted && a.term == n.term) = true then _ else _ : Action Node Unit).run _ = _
      rw [← hgrants]
      split
      · rename_i hvote
        unfold tally
        by_cases hold : peer ∈ votes
        · rw [if_neg (by simp [hold])]
          exact countVote_again hold
        · rw [if_pos ⟨hvote, hold⟩]
          exact countVote_polled hopen hold
      · rename_i hvote
        rw [tally_of_not_grants (by simpa using hvote)]
        rfl
  · rename_i hterm
    have hnot : (⟨peer, term, answer⟩ : Ballot).grants n.term = false := by
      unfold Ballot.grants
      cases answer <;> simp [hterm]
    rw [tally_of_not_grants hnot]
    rfl

/-- **Any number of ballots.** -/
theorem handleAll_polled (hopen : n.queueClosed = false) (bs : List Ballot)
    (hbs : ∀ b ∈ bs, b.isCurrent n.term = true) :
    (handleAll bs).run (n.polled timer votes)
      = .ok () (n.polled timer (bs.foldl (tally n.term) votes)) := by
  induction bs generalizing votes with
  | nil => rfl
  | cons b bs ih =>
    show (handle b.event >>= fun _ => handleAll bs).run _ = _
    rw [EStateM.run_bind, handle_polled hopen (hbs b (List.mem_cons_self ..))]
    exact ih fun b' hb' => hbs b' (List.mem_cons_of_mem _ hb')

theorem changeRole_polled :
    Action.outcome ((changeRole .leader).run (n.polled timer votes))
      = if majority n.settings.cluster.members.length ≤ votes.length then
          .ok (.leader { timer := .start n.settings.consensus.replication.heartbeat n.now })
        else .error (.error (.transition .notEnoughVotes)) := by
  show Action.outcome ((if (n.polled timer votes).isQuorum votes.length = true then _ else _ :
    Action Node Role).run _) = _
  by_cases hmajority : majority n.settings.cluster.members.length ≤ votes.length
  · have hvotes : (n.polled timer votes).isQuorum votes.length = true := decide_eq_true hmajority
    rw [if_pos hmajority, if_pos hvotes]
    rfl
  · have hvotes : ¬ (n.polled timer votes).isQuorum votes.length = true :=
      fun hvotes => hmajority (of_decide_eq_true hvotes)
    rw [if_neg hmajority, if_neg hvotes]
    rfl

theorem Stands.polled (h : n.Stands t) (hquorum : 1 < n.view.quorum) :
    ∃ timer, n = n.polled timer [n.id] := by
  obtain ⟨timer, hrole⟩ := h.role
  refine ⟨timer, ?_⟩
  have hfew : ¬ n.view.quorum ≤ [n.id].length := Nat.not_le.2 hquorum
  unfold Node.polled
  rw [if_neg hfew, List.append_nil, ← hrole]

theorem Stands.exists_handleAll (h : n.Stands t) (hn : n.Constituted) :
    ∃ timer, ∀ bs, (∀ b ∈ bs, b.isCurrent t = true) → (handleAll bs).run n
      = .ok () (n.polled timer (bs.foldl (tally t) [n.id])) := by
  obtain ⟨timer, hpolled⟩ := h.polled hn.one_lt_quorum
  refine ⟨timer, fun bs hbs => ?_⟩
  have hterm : n.term = t := congrArg HardState.term h.hard
  have hrun : (handleAll bs).run (n.polled timer [n.id]) = _ :=
    handleAll_polled hn.opened bs (hterm ▸ hbs)
  rwa [← hpolled, hterm] at hrun

/-- **An election as a whole.** A node that starts an election and then learns what became of its
vote requests has asked to take the lead once if it got a quorum, and not at all otherwise; or it
stopped. -/
theorem election_ensures (hn : n.Constituted) (bs : List Ballot)
    (hbs : ∀ b ∈ bs, b.isCurrent (n.term + 1) = true) :
    (startElection >>= fun _ => handleAll bs).Ensures n
      (fun _ m => m.queue = n.queue
        ++ if n.view.quorum ≤ (voters n.id (n.term + 1) bs).card then [.becomeLeader] else [])
      fun f _ => f.Stops := by
  refine (startElection_stands hn).bind ?_
  rintro _ m ⟨hstands, hm, hid, hquorum, hqueue⟩
  obtain ⟨timer, hall⟩ := hstands.exists_handleAll hm
  unfold Action.Ensures
  rw [hall bs hbs, ← hid, ← hquorum, ← length_foldl_tally, ← hqueue]
  rfl

end Node

/-! ## A node by itself -/

namespace Solo

open Ballot (voters voters_perm length_foldl_tally)

theorem constituted_run (r : Node.Remains) (acts : List Act) {s : Server}
    (hs : (run r acts).site = .up s) (hrun : s.isRunning = true)
    (hmembers : 2 ≤ s.node.settings.cluster.members.length) : s.node.Constituted := by
  obtain ⟨hopen, hquorum, -⟩ := fits_run r acts s hs hrun
  exact ⟨hopen, hquorum, hmembers⟩

/-- Whatever node of a cluster with other members starts an election, its ballots decide. -/
theorem elections_counted (r : Node.Remains) (acts : List Act) {s : Server}
    (hs : (run r acts).site = .up s) (hrun : s.isRunning = true)
    (hmembers : 2 ≤ s.node.settings.cluster.members.length) (bs : List Ballot)
    (hbs : ∀ b ∈ bs, b.isCurrent (s.node.term + 1) = true) :
    (Node.startElection >>= fun _ => Node.handleAll bs).Ensures s.node
      (fun _ m => m.queue = s.node.queue
        ++ if s.node.view.quorum ≤ (voters s.node.id (s.node.term + 1) bs).card then
          [.becomeLeader] else [])
      fun f _ => f.Stops :=
  Node.election_ensures (constituted_run r acts hs hrun hmembers) bs hbs

/-- **Votes are counted exactly.** Whatever node of a cluster with other members has started an
election, and whatever it learns of its vote requests, in any order, as long as no request of the
term is answered from a newer one: it asks once to take the lead if with the peers that gave it
their votes it is a quorum, and not at all otherwise; then it is let, and otherwise it is not. In
which order it learns does not matter. -/
theorem ballots_counted (r : Node.Remains) (acts : List Act) {s : Server} {t : Nat}
    (hs : (run r acts).site = .up s) (hrun : s.isRunning = true) (hstands : s.node.Stands t)
    (hmembers : 2 ≤ s.node.settings.cluster.members.length) (bs : List Ballot)
    (hbs : ∀ b ∈ bs, b.isCurrent t = true) :
    ∃ m, (Node.handleAll bs).run s.node = .ok () m
      ∧ m = { s.node with role := m.role, queue := m.queue }
      ∧ m.queue = s.node.queue
        ++ (if s.node.view.quorum ≤ (voters s.node.id t bs).card then [.becomeLeader] else [])
      ∧ ((∃ role, Action.outcome ((Node.changeRole .leader).run m) = .ok role)
        ↔ s.node.view.quorum ≤ (voters s.node.id t bs).card)
      ∧ ∀ bs', bs'.Perm bs → ∃ m', (Node.handleAll bs').run s.node = .ok () m'
        ∧ m'.queue = m.queue
        ∧ Action.outcome ((Node.changeRole .leader).run m')
          = Action.outcome ((Node.changeRole .leader).run m) := by
  have hn := constituted_run r acts hs hrun hmembers
  have hquorum := hn.quorum
  generalize s.node = n at *
  obtain ⟨timer, hall⟩ := hstands.exists_handleAll hn
  refine ⟨_, hall bs hbs, rfl, ?_, ?_, fun bs' hperm => ?_⟩
  · rw [← length_foldl_tally]
    rfl
  · rw [Node.changeRole_polled, ← length_foldl_tally, hquorum]
    split
    · rename_i hmajority
      exact ⟨fun _ => hmajority, fun _ => ⟨_, rfl⟩⟩
    · rename_i hfew
      exact ⟨nofun, fun hmajority => absurd hmajority hfew⟩
  · -- in another order the same voters are counted
    have hlength : (bs'.foldl (Ballot.tally t) [n.id]).length
        = (bs.foldl (Ballot.tally t) [n.id]).length := by
      rw [length_foldl_tally, length_foldl_tally, voters_perm hperm]
    refine ⟨_, hall bs' fun b hb => hbs b (hperm.mem_iff.1 hb), ?_, ?_⟩
    · unfold Node.polled
      rw [hlength]
    · rw [Node.changeRole_polled, Node.changeRole_polled, hlength]

/-- A node of three starts an election. -/
def standFirst : List Act := [startOne, .setClock 1000, .tick, .role]

/-- A request fails, an older one is answered late, one is refused, and two are granted, one of them
twice. -/
def scattered : List Ballot :=
  [⟨2, 1, .error Node.queueError⟩, ⟨3, 0, .ok ⟨4, true, 0, 0⟩⟩, ⟨2, 1, .ok ⟨1, false, 0, 0⟩⟩,
    ⟨3, 1, .ok ⟨1, true, 0, 0⟩⟩, ⟨3, 1, .ok ⟨1, true, 0, 0⟩⟩, ⟨2, 1, .ok ⟨1, true, 0, 0⟩⟩]

theorem ballots_counted_of_scattered :
    ∃ s m, (run {} standFirst).site = .up s ∧ s.node.Stands 1
      ∧ (Node.handleAll scattered).run s.node = .ok () m ∧ m.queue = [.becomeLeader]
      ∧ ∃ role, Action.outcome ((Node.changeRole .leader).run m) = .ok role := by
  obtain ⟨s, hs, hlook⟩ := exists_of_server? (n := run {} standFirst) (f := fun s =>
    s.isRunning && s.node.queue.isEmpty && s.node.id == 1 && s.node.hard == ⟨1, some ⟨1, 1⟩⟩
      && s.node.settings.cluster.members.length == 3 && s.node.view.quorum == 2
      && s.node.role == .candidate (.start s.node.settings.consensus.election.lo
        s.node.settings.consensus.election.hi s.node.now s.node.seed) [1]) (by cbv)
  simp only [Bool.and_eq_true, beq_iff_eq, List.isEmpty_iff] at hlook
  obtain ⟨⟨⟨⟨⟨⟨hrun, hqueue⟩, hid⟩, hhard⟩, hmembers⟩, hquorum⟩, hrole⟩ := hlook
  have hstands : s.node.Stands 1 := ⟨⟨_, by rw [hid]; exact hrole⟩, by rw [hid]; exact hhard⟩
  obtain ⟨m, hm, -, hasked, hlet, -⟩ :=
    ballots_counted {} standFirst hs hrun hstands (by omega) scattered (by decide)
  rw [hid, hquorum] at hasked hlet
  have hcard : 2 ≤ (voters 1 1 scattered).card := by decide
  rw [hqueue, if_pos hcard] at hasked
  exact ⟨s, m, hs, hstands, hm, hasked, hlet.2 hcard⟩

end Solo

end Raft
