import Raft.Proofs.Node.Runs

/-!
# What a candidate does

A candidate asks for votes, counts them, and steps down for a leader or a newer term. A node enters
an election in one move, from whatever it was.
-/

namespace Raft.Node

variable {src : Option Event} {n k : Node} {o : Outline}

/-! ## Starting an election -/

theorem askForVotes_does {votes : List NodeId} (peers : List NodeId)
    (hpeers : ∀ p ∈ peers, n.outline.IsPeer p)
    (hphase : n.outline.phase = .candidate votes) :
    Does src (askForVotes peers) n fun _ _ => True := by
  induction peers generalizing n with
  | nil => exact does_pure trivial
  | cons peer rest ih =>
    have hpeer := hpeers peer (List.mem_cons_self ..)
    refine does_get_bind ((send_does (utters_ask hpeer hphase)).bind fun _ m hm => ?_)
    refine ih (fun p hp => ?_) ((congrArg Outline.phase hm).trans hphase)
    have hmembers := congrArg Outline.members hm
    have hself := congrArg Outline.self hm
    unfold Outline.IsPeer
    rw [show m.outline.members = n.outline.members from hmembers,
      show m.outline.self = n.outline.self from hself]
    exact hpeers p (List.mem_cons_of_mem _ hp)

/-- The outline of a node that starts an election. -/
def Outline.standing (o : Outline) : Outline :=
  { o.store ⟨o.hard.term + 1, some ⟨o.self, o.hard.term + 1⟩⟩ with
    stance := .candidate [o.self] }

/-- An election is started, by a node whose run so far need not have been moves. -/
theorem startElection_ensures (hopen : k.outline.closed = false) (hqueue : k.outline.queue = [])
    (hmoves : Moves src o k.outline.standing)
    (hbreaks : ∀ h : HardState, k.outline.hard.term ≤ h.term →
      Breaks src o { k.outline with hard := h }) :
    startElection.Ensures k (fun _ m => Moves src o m.outline)
      fun f m => Fails src o f m.outline := by
  refine ensures_startElection ?_ (fun e => ?_) ?_
  · exact Fails.of_breaks (hbreaks k.outline.hard (Nat.le_refl _)) (Or.inl rfl)
  · exact Fails.of_breaks (hbreaks _ (Nat.le_succ k.hard.term)) (stops_of_persistence ⟨e, rfl⟩)
  rintro m ⟨timer, savesLeft, seed, counters, hm⟩
  have ho : m.outline = k.outline.standing := by
    rw [hm]
    rfl
  have hstance : m.outline.stance = .candidate [m.outline.self] := by
    rw [ho]
    rfl
  have hqueue' : m.outline.queue = [] := by
    rw [ho]
    exact hqueue
  refine (Does.after (ho ▸ hmoves) (Q := fun _ _ => True) ?_).weaken fun _ _ h => h.1
  refine does_ite (fun _ => ?_) fun _ => ?_
  · refine (emit_does (by rw [ho]; exact hopen) (by rw [hqueue']) ?_).weaken fun _ _ _ => trivial
    exact (Move.elect _ hqueue' hstance).moves
  · exact askForVotes_does _ (fun p hp => mem_peers.1 hp)
      (Outline.phase_of_candidate hqueue' hstance)

theorem startElection_does (hopen : n.outline.closed = false) (hqueue : n.outline.queue = [])
    (hstance : ∀ m, n.outline.stance ≠ .leader m) :
    Does src startElection n fun _ _ => True := by
  refine (startElection_ensures hopen hqueue ?_ fun h hle => ?_).weaken fun _ _ h => ⟨h, trivial⟩
  · exact (Move.stand n.outline.hard.term hqueue hstance (Nat.le_refl _)).moves
  · exact ⟨n.outline, Moves.refl _, rfl, rfl, rfl, Or.inl rfl, hle, rfl, rfl, rfl, rfl, rfl⟩

/-- A candidate that is asked to start an election enters the newer term and starts it. -/
theorem restart_does {t : Nat} {caller : Caller} (hopen : n.outline.closed = false)
    (hqueue : n.outline.queue = []) (hstance : ∀ m, n.outline.stance ≠ .leader m)
    (ht : n.outline.hard.term ≤ t) :
    Does src (adoptTerm t >>= fun _ => answerTimeoutNow caller true >>= fun _ => startElection) n
      fun _ _ => True := by
  refine Action.Ensures.bind (Q := fun _ m => m.outline = n.outline.adopt t)
    ((adoptTerm_ensures t n).mono (fun _ _ h => h) ?_) ?_
  · rintro f m ⟨hf, hlt, hm⟩
    exact fails_of_store hf (Nat.le_of_lt hlt) hm
  intro _ m hm
  have hterm : (n.outline.adopt t).hard.term = t := Outline.term_adopt ht
  have hanswer : (answerTimeoutNow caller true).Ensures m (fun _ k => k.outline =
      { n.outline.adopt t with
        effects := n.outline.effects ++ [.answer caller (.timeoutNow (.ok ⟨m.term, true⟩))] })
      fun _ _ => False := by
    refine Action.ensures_get_bind ((perform_ensures _ m).weaken fun _ k ⟨_, hk⟩ => ?_)
    rw [hk, hm]
    rfl
  refine hanswer.bind_of_sure ?_
  intro _ k hk
  -- the answer comes first in the moves: it does not depend on the term
  generalize he : Effect.answer caller (.timeoutNow (.ok ⟨m.term, true⟩)) = e at hk
  have hutters : Utters src n.outline e := by
    rw [← he]
    exact utters_timeoutNow
  have hutter := (Move.utter e hutters).moves
  refine (startElection_ensures (by rw [hk]; exact hopen) (by rw [hk]; exact hqueue) ?_
    fun h hle => ?_).weaken fun _ _ h => ⟨h, trivial⟩
  · rw [hk]
    exact hutter.trans (Move.stand (o := { n.outline with effects := n.outline.effects ++ [e] })
      (n.outline.adopt t).hard.term hqueue hstance (by rw [hterm]; exact ht)).moves
  · rw [hk] at hle ⊢
    have hle' : t ≤ h.term := by
      rw [← hterm]
      exact hle
    refine ⟨_, hutter, rfl, rfl, rfl, ?_, Nat.le_trans ht hle', rfl, rfl, rfl, rfl, rfl⟩
    rcases Nat.lt_or_ge n.outline.hard.term t with hlt | hge
    · exact Or.inr ⟨t, hlt, hle', by rw [Outline.adopt_of_lt hlt]; rfl⟩
    · exact Or.inl (by rw [Outline.adopt_of_le hge])

/-! ## Handling events -/

namespace Candidate

theorem countVote_does {peer : NodeId} {r : VoteResponse} {votes : List NodeId}
    (hsrc : src = some (.voteResult peer n.outline.hard.term (.ok r))) (hgranted : r.granted = true)
    (hterm : r.term = n.outline.hard.term) (hopen : n.outline.closed = false)
    (hqueue : n.outline.queue = []) (hstance : n.outline.stance = .candidate votes) :
    Does src (countVote peer) n fun _ _ => True := by
  unfold countVote
  refine does_get_bind ?_
  have hstance' : n.role.stance = .candidate votes := hstance
  cases hrole : n.role with
  | candidate timer ws =>
    rw [hrole] at hstance'
    obtain rfl : ws = votes := Stance.candidate.inj hstance'
    dsimp only
    refine does_ite (fun _ => does_pure trivial) fun hnew => ?_
    have hcount := (Move.count peer r ws hsrc hgranted hterm hqueue hstance
      (by simpa using hnew)).moves
    refine does_set_bind (k := { n with role := .candidate timer (ws ++ [peer]) }) hcount ?_
    refine does_ite (fun _ => ?_) fun _ => does_pure trivial
    refine (emit_does (n := { n with role := .candidate timer (ws ++ [peer]) }) hopen
      (o := { n.outline with stance := .candidate (ws ++ [peer]), queue := [.becomeLeader] })
      ?_ ?_).weaken fun _ _ _ => trivial
    · show ({ n.outline with
        stance := .candidate (ws ++ [peer])
        queue := n.outline.queue ++ [.becomeLeader] } : Outline) = _
      rw [hqueue]
      rfl
    · exact (Move.elect (o := { n.outline with stance := .candidate (ws ++ [peer]) })
        (ws ++ [peer]) hqueue rfl).moves
  | follower | leader =>
    rw [hrole] at hstance'
    cases hstance'

theorem followNewer_does {t : Nat} (hopen : n.outline.closed = false)
    (hqueue : n.outline.queue = []) : Does src (followNewer t) n fun _ _ => True := by
  unfold followNewer
  refine does_get_bind (does_ite (fun _ => ?_) fun _ => does_pure trivial)
  exact (yield_does hopen hqueue).weaken fun _ _ _ => trivial

theorem onVote_does {peer : NodeId} {r : VoteResponse} {votes : List NodeId}
    (hsrc : src = some (.voteResult peer n.outline.hard.term (.ok r)))
    (hopen : n.outline.closed = false) (hqueue : n.outline.queue = [])
    (hstance : n.outline.stance = .candidate votes) :
    Does src (onVote peer r) n fun _ _ => True := by
  unfold onVote
  refine does_get_bind ?_
  unfold Election.isVote
  split
  · rename_i hvote
    split at hvote
    · cases hvote
    · have hvote := Except.ok.inj hvote
      simp only [Bool.and_eq_true, beq_iff_eq] at hvote
      exact countVote_does hsrc hvote.1 hvote.2 hopen hqueue hstance
  · exact does_pure trivial
  · exact followNewer_does hopen hqueue

theorem handle_does {e : Event} {votes : List NodeId} (hsrc : src = some e)
    (hstance : n.outline.stance = .candidate votes) (hopen : n.outline.closed = false)
    (hqueue : n.outline.queue = []) : Does src (handle e) n fun _ _ => True := by
  have hne : ∀ m, n.outline.stance ≠ .leader m := by
    intro m hm
    rw [hstance] at hm
    cases hm
  unfold handle
  refine does_get_bind ?_
  cases e with
  | voteRequest r caller =>
    exact does_ite (fun _ => stepDownAndReplay_does hsrc hopen hqueue) fun _ =>
      refuseVote_does caller
  | appendRequest r caller =>
    exact does_ite (fun _ => refuseAppend_does caller) fun _ =>
      stepDownAndReplay_does hsrc hopen hqueue
  | timeoutNowRequest r caller =>
    refine does_ite (fun _ => ?_) fun hterm => ?_
    · exact (answerTimeoutNow_does caller false).weaken fun _ _ _ => trivial
    · exact restart_does hopen hqueue hne (Nat.not_lt.1 hterm)
  | propose r request caller => exact (answer_does utters_notLeader).weaken fun _ _ _ => trivial
  | transfer target caller => exact (answer_does utters_transfer).weaken fun _ _ _ => trivial
  | voteResult peer term r =>
    refine does_ite (fun hterm => ?_) fun _ => does_pure trivial
    cases r with
    | ok r =>
      subst hterm
      exact onVote_does hsrc hopen hqueue hstance
    | error e => exact does_pure trivial
  | appendResult peer request r =>
    cases r with
    | ok r => exact followNewer_does hopen hqueue
    | error e => exact does_pure trivial
  | timeoutNowResult peer term r =>
    cases r with
    | ok r => exact followNewer_does hopen hqueue
    | error e => exact does_pure trivial

theorem tick_does {votes : List NodeId} (hstance : n.outline.stance = .candidate votes)
    (hopen : n.outline.closed = false) (hqueue : n.outline.queue = []) :
    Does src tick n fun _ _ => True := by
  unfold tick
  refine does_get_bind (does_ite (fun _ => ?_) fun _ => does_pure trivial)
  refine startElection_does hopen hqueue fun m hm => ?_
  rw [hstance] at hm
  cases hm

end Candidate

end Raft.Node
