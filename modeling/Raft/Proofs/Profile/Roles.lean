import Raft.Proofs.Node.Follower
import Raft.Proofs.Profile.Basic

/-!
# Turns of followers and candidates

The handlers of the two roles, one after the other. A follower reaches terms and votes; a candidate
counts votes, starts over, or asks itself to step down. What they do for the log leaves the profile
as it is.

* `Follower.handle_makes`, `Candidate.handle_makes`: the events.
* `startElection_profile`: what an election starts with.
-/

namespace Raft.Node

variable {src : Option Event} {o : Profile} {n : Node}

/-! ## Followers -/

namespace Follower

theorem storeDecision_makes {r : VoteRequest} {d : Election.Decision}
    (hpost : n.profile.post = .follower) (hd : Election.decide r n.hard n.log.lastId = d) :
    Makes src o (if !d.isEmpty then setHard (d.apply n.hard) else pure ⟨⟩) n := by
  subst hd
  apply takes_ite
  · intro hempty
    obtain ⟨hle, hterm⟩ := Election.term_apply (by simpa using hempty)
    exact (setHard_takes hpost (hterm ▸ hle)).makes
  · intro _
    exact makes_pure

theorem onVoteRequest_makes {r : VoteRequest} {caller : Caller}
    (hpost : n.profile.post = .follower) : Makes src o (onVoteRequest r caller) n := by
  unfold onVoteRequest
  apply takes_get_bind
  dsimp only
  generalize hd : Election.decide r n.hard n.log.lastId = d
  apply takes_ite_bind
  apply (storeDecision_makes hpost hd).bind
  intro _ m _
  apply takes_ite_bind
  have htimer : Calm (if d.granted then resetTimer else pure ⟨⟩) m :=
    calm_ite (resetTimer_idle m).calm calm_pure
  apply htimer.takes_bind
  intro _ k _
  exact takes_get_bind (answerVote_idle caller _).makes

theorem onAppendRequest_makes {r : AppendRequest} {caller : Caller}
    (hopen : n.profile.closed = false) (hpost : n.profile.post = .follower) :
    Makes src o (onAppendRequest r caller) n := by
  unfold onAppendRequest
  apply (adoptTerm_takes hpost).bind
  intro _ m1 hm1
  apply Idle.takes_bind (idle_modify (by rfl))
  intro _ m2 hm2
  apply (resetTimer_idle m2).takes_bind
  intro _ m3 hm3
  apply takes_get_bind
  apply (tryLog_calm _).takes_bind
  intro a m4 hm4
  have hopen4 : m4.profile.closed = false := by
    rw [hm4, hm3, hm2, hm1]
    exact hopen
  dsimp only
  split
  · split
    · exact (advanceCommit_takes _ hopen4).bind fun _ m5 _ => (answerAppend_idle caller _).makes
    · exact (answerAppend_idle caller _).makes
  · exact (answerAppend_idle caller _).makes
  · exact calm_fail.makes

theorem adoptTermOf_makes {α : Type} {termOf : α → Nat} (hpost : n.profile.post = .follower)
    (r : Except Error α) : Makes src o (adoptTermOf termOf r) n := by
  cases r with
  | ok a => exact (adoptTerm_takes hpost).makes
  | error e => exact makes_pure

theorem handle_makes {e : Event} (hsrc : src = some e) (he : n.profile.Admits e)
    (hpost : n.profile.post = .follower) : Makes src o (handle e) n := by
  unfold handle
  apply takes_get_bind
  cases e with
  | voteRequest r caller => exact onVoteRequest_makes hpost
  | appendRequest r caller =>
    apply takes_ite
    · intro _
      exact takes_get_bind (answerAppend_idle caller _).makes
    · intro _
      exact onAppendRequest_makes he.opened hpost
  | timeoutNowRequest r caller =>
    apply takes_ite
    · intro _
      exact (answerTimeoutNow_idle caller false).makes
    · intro _
      apply (adoptTerm_takes hpost).bind
      intro _ m hm
      apply (answerTimeoutNow_idle caller true).takes_bind
      intro _ k hk
      rw [hm] at hk
      exact (emit_takes .becomeCandidate (by rw [hk]; exact he.opened) rfl nofun).makes
  | propose r request caller =>
    apply (count_idle _ n).takes_bind
    intro _ m _
    exact (answerClient_idle caller _).makes
  | transfer target caller =>
    exact (takes_turn (answerTransfer_profile _ _ n)
      (Turn.refuse target caller _ hsrc (he.fresh _ _ rfl))).makes
  | voteResult peer term r => exact adoptTermOf_makes hpost r
  | appendResult peer request r => exact adoptTermOf_makes hpost r
  | timeoutNowResult peer term r => exact adoptTermOf_makes hpost r

theorem tick_makes (hopen : n.profile.closed = false) : Makes src o tick n := by
  unfold tick
  apply takes_get_bind
  apply takes_ite
  · intro _
    apply (resetTimer_idle n).takes_bind
    intro _ m hm
    rw [← hm] at hopen
    exact (emit_takes .becomeCandidate hopen rfl nofun).makes
  · intro _
    exact makes_pure

end Follower

/-! ## Candidates -/

theorem askForVotes_idle (peers : List NodeId) : Idle (askForVotes peers) n := by
  induction peers generalizing n with
  | nil => exact rfl
  | cons peer rest ih =>
    apply Action.ensures_get_bind
    apply (perform_idle (by rfl)).ensures_bind
    intro _ m hm
    exact (ih (n := m)).weaken fun _ _ hk => hk.trans hm

/-- An election starts with the node's own vote in the next term. A node that is a quorum by itself
is about to be elected. -/
theorem startElection_profile (hopen : n.profile.closed = false) :
    startElection.Ensures n
      (fun _ m => m.profile = n.profile.standing
        ∨ m.profile = { n.profile.standing with queue := n.profile.queue ++ [.becomeLeader] })
      fun f m => f.Stops ∧ m.profile.notes = n.profile.notes := by
  refine ensures_startElection ⟨Or.inl rfl, rfl⟩ (fun e => ?_) ?_
  · exact ⟨stops_of_persistence ⟨e, rfl⟩, rfl⟩
  rintro m ⟨timer, savesLeft, seed, counters, hm⟩
  have hprofile : m.profile = n.profile.standing := by
    rw [hm]
    rfl
  split
  · refine (emit_profile (by rw [hprofile]; exact hopen)).mono_of_sure fun _ k hk => Or.inr ?_
    rw [hk, hprofile]
    rfl
  · refine (askForVotes_idle _).mono_of_sure fun _ k hk => Or.inl ?_
    rw [hk, hprofile]

/-- An election is started, by a node that need not have got where it is in turns. -/
theorem startElection_ensures_turns (hopen : n.profile.closed = false)
    (hstand : Turns src o n.profile.standing)
    (hnotes : ∃ p, Turns src o p ∧ n.profile.notes = p.notes) :
    startElection.Ensures n (fun _ m => Turns src o m.profile)
      fun f m => Halts src o f m.profile := by
  obtain ⟨p, hp, hnotes⟩ := hnotes
  refine (startElection_profile hopen).mono ?_ ?_
  · rintro _ m (hm | hm)
    · rw [hm]
      exact hstand
    · rw [hm]
      exact hstand.step (Turn.queue .becomeLeader rfl nofun)
  · rintro f m ⟨hf, hm⟩
    exact hp.halts_of_stop (hm.trans hnotes) hf

theorem startElection_makes (hopen : n.profile.closed = false)
    (hpost : ∀ x, n.profile.post ≠ .leader x) : Makes src o startElection n := by
  intro hn
  have hstand := hn.step (Turn.stand n.profile.hard.term hpost (Nat.le_refl _))
  exact (startElection_ensures_turns hopen hstand ⟨_, hn, rfl⟩).weaken fun _ _ hm => ⟨hm, trivial⟩

namespace Candidate

/-- A candidate that is asked to start an election enters the term and starts it. -/
theorem restart_makes {t : Nat} {caller : Caller} (hopen : n.profile.closed = false)
    (hpost : ∀ x, n.profile.post ≠ .leader x) (hterm : n.profile.hard.term ≤ t) :
    Makes src o
      (adoptTerm t >>= fun _ => answerTimeoutNow caller true >>= fun _ => startElection) n := by
  intro hn
  refine Action.Ensures.bind ((adoptTerm_profile t n).mono (fun _ _ h => h) ?_) ?_
  · rintro f m ⟨hf, hnotes⟩
    exact hn.halts_of_stop hnotes hf
  intro _ m hm
  apply (answerTimeoutNow_idle caller true).ensures_bind
  intro _ k hk
  rw [hm] at hk
  have hstand : Turn src n.profile k.profile.standing := by
    have hturn : Turn src n.profile _ := Turn.stand t hpost hterm
    have hreached : k.profile.hard.term = t := by
      rw [hk]
      exact Profile.term_adopt hterm
    unfold Profile.standing
    rw [hreached, hk]
    exact hturn
  have hnotes : k.profile.notes = n.profile.notes := by
    rw [hk]
    rfl
  exact (startElection_ensures_turns (by rw [hk]; exact hopen) (hn.step hstand)
    ⟨_, hn, hnotes⟩).weaken fun _ _ hj => ⟨hj, trivial⟩

theorem followNewer_makes (t : Nat) (hopen : n.profile.closed = false)
    (hpost : ∀ x, n.profile.post ≠ .leader x) : Makes src o (followNewer t) n := by
  unfold followNewer
  apply takes_get_bind
  apply takes_ite
  · intro hlt
    exact (yield_takes hopen (Nat.le_of_lt hlt) fun x hx => absurd hx (hpost x)).makes
  · intro _
    exact makes_pure

theorem countVote_makes {peer : NodeId} {r : VoteResponse} {votes : List NodeId}
    (hsrc : src = some (.voteResult peer n.profile.hard.term (.ok r))) (hgranted : r.granted = true)
    (hterm : r.term = n.profile.hard.term) (hopen : n.profile.closed = false)
    (hstays : n.profile.retires = false) (hpost : n.profile.post = .candidate votes) :
    Makes src o (countVote peer) n := by
  have hpost' : n.role.post = .candidate votes := hpost
  unfold countVote
  apply takes_get_bind
  cases hrole : n.role with
  | candidate timer ws =>
    rw [hrole] at hpost'
    obtain rfl : ws = votes := Post.candidate.inj hpost'
    apply takes_ite
    · intro _
      exact makes_pure
    · intro hnew hn
      have hcount := hn.step (Turn.count peer r ws hsrc hgranted hterm hstays hpost
        (by simpa using hnew))
      have hrest : ∀ k : Node, k.profile.closed = false →
          Makes src o (if ws.length + 1 = n.view.quorum then emit .becomeLeader else pure ⟨⟩)
            k := by
        intro k hk
        apply takes_ite
        · intro _
          exact (emit_takes .becomeLeader hk rfl nofun).makes
        · intro _
          exact makes_pure
      exact Action.ensures_set_bind (hrest _ hopen hcount)
  | follower | leader =>
    rw [hrole] at hpost'
    cases hpost'

theorem onVote_makes {peer : NodeId} {r : VoteResponse} {votes : List NodeId}
    (hsrc : src = some (.voteResult peer n.profile.hard.term (.ok r)))
    (hopen : n.profile.closed = false) (hstays : n.profile.retires = false)
    (hpost : n.profile.post = .candidate votes) : Makes src o (onVote peer r) n := by
  unfold onVote
  apply takes_get_bind
  unfold Election.isVote
  split
  · rename_i hvote
    split at hvote
    · cases hvote
    · have hvote := Except.ok.inj hvote
      simp only [Bool.and_eq_true, beq_iff_eq] at hvote
      exact countVote_makes hsrc hvote.1 hvote.2 hopen hstays hpost
  · exact makes_pure
  · exact followNewer_makes r.term hopen fun x hx => by rw [hpost] at hx; cases hx

theorem handle_makes {e : Event} {votes : List NodeId} (hsrc : src = some e)
    (he : n.profile.Admits e) (hpost : n.profile.post = .candidate votes) :
    Makes src o (handle e) n := by
  have hpost' : ∀ x, n.profile.post ≠ .leader x := by
    intro x hx
    rw [hpost] at hx
    cases hx
  unfold handle
  apply takes_get_bind
  cases e with
  | voteRequest r caller =>
    apply takes_ite
    · intro hlt
      exact stepDownAndReplay_makes hsrc trivial he.opened (Nat.le_of_lt hlt)
        fun x hx => absurd hx (hpost' x)
    · intro _
      exact takes_get_bind (answerVote_idle caller _).makes
  | appendRequest r caller =>
    apply takes_ite
    · intro _
      exact takes_get_bind (answerAppend_idle caller _).makes
    · intro hlt
      exact stepDownAndReplay_makes hsrc trivial he.opened (Nat.not_lt.1 hlt)
        fun x hx => absurd hx (hpost' x)
  | timeoutNowRequest r caller =>
    apply takes_ite
    · intro _
      exact (answerTimeoutNow_idle caller false).makes
    · intro hlt
      exact restart_makes he.opened hpost' (Nat.not_lt.1 hlt)
  | propose r request caller => exact (answerClient_idle caller _).makes
  | transfer target caller =>
    exact (takes_turn (answerTransfer_profile _ _ n)
      (Turn.refuse target caller _ hsrc (he.fresh _ _ rfl))).makes
  | voteResult peer term r =>
    have hstays : n.profile.retires = false := he.stays.resolve_left fun h => h
    apply takes_ite
    · intro hterm
      cases r with
      | ok r =>
        subst hterm
        exact onVote_makes hsrc he.opened hstays hpost
      | error => exact makes_pure
    · intro _
      exact makes_pure
  | appendResult peer request r =>
    cases r with
    | ok r => exact followNewer_makes r.term he.opened hpost'
    | error => exact makes_pure
  | timeoutNowResult peer term r =>
    cases r with
    | ok r => exact followNewer_makes r.term he.opened hpost'
    | error => exact makes_pure

theorem tick_makes {votes : List NodeId} (hopen : n.profile.closed = false)
    (hpost : n.profile.post = .candidate votes) : Makes src o tick n := by
  unfold tick
  apply takes_get_bind
  apply takes_ite
  · intro _
    exact startElection_makes hopen fun x hx => by rw [hpost] at hx; cases hx
  · intro _
    exact makes_pure

end Candidate

end Raft.Node
