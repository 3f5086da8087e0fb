import Raft.Proofs.Tenure.Basic

/-!
# Deeds of followers and candidates

* `Follower.handle_performs`, `Follower.tick_performs`: a follower enters terms, votes, takes entries
  into its log and asks itself to start an election.
* `Candidate.handle_performs`, `Candidate.tick_performs`: a candidate counts votes, starts over, and
  steps down for others.
* `startElection_tenures`: an election is started, by a node that did something before.
-/

namespace Raft.Node

variable {src : Option Event} {o : Tenure} {n : Node}

/-! ## Saying something -/

theorem says_client {a : Tenure} {q : ClientRequest} {request : String} {caller : Caller}
    {y : ClientResponse} (hsrc : src = some (.propose q request caller)) (ha : a = o) :
    Says src o a (.answer caller (.client y)) :=
  ⟨⟨q, request, hsrc⟩, congrArg Tenure.said ha, congrArg Tenure.waiters ha⟩

theorem answerClient_performs {q : ClientRequest} {request : String} {caller : Caller}
    {y : ClientResponse} (hsrc : src = some (.propose q request caller)) (hn : n.tenure = o) :
    Performs src o (answer caller (.client y)) n fun _ _ => True :=
  (answer_performs (says_client hsrc hn)).weaken fun _ _ _ => trivial

theorem answerTransfer_performs (caller : Caller) (y : Except Error Unit) :
    Performs src o (answer caller (.transfer y)) n fun _ m =>
      m.tenure.queue = n.tenure.queue ∧ m.tenure.seat = n.tenure.seat :=
  (answer_performs (by trivial)).weaken fun _ _ hm => by rw [hm]; exact ⟨rfl, rfl⟩

theorem refuseVote_performs (caller : Caller) :
    Performs src o (refuseVote caller) n fun _ _ => True :=
  Action.keeps_get_bind ((answer_performs (by trivial)).weaken fun _ _ _ => trivial)

theorem refuseAppend_performs (caller : Caller) :
    Performs src o (refuseAppend caller) n fun _ _ => True :=
  Action.keeps_get_bind ((answer_performs (by rintro _ ⟨⟩)).weaken fun _ _ _ => trivial)

theorem answerTimeoutNow_performs (caller : Caller) (accepted : Bool) :
    Performs src o (answerTimeoutNow caller accepted) n fun _ m =>
      ∃ said, m.tenure = { n.tenure with said } :=
  Action.keeps_get_bind ((answer_performs (by trivial)).weaken fun _ _ hm => ⟨_, hm⟩)

/-! ## Followers -/

namespace Follower

theorem setDecision_performs {r : VoteRequest} {d : Election.Decision}
    (hseat : n.tenure.seat = .follower) (hd : Election.decide r n.hard n.log.lastId = d) :
    Performs src o (if !d.isEmpty then setHard (d.apply n.hard) else pure ⟨⟩) n fun _ _ => True := by
  subst hd
  refine Action.keeps_ite (fun hempty => ?_) fun _ => Action.keeps_pure trivial
  obtain ⟨hle, hterm⟩ := Election.term_apply (by simpa using hempty)
  exact (setHard_performs hseat (hterm ▸ hle)).weaken fun _ _ _ => trivial

theorem onVoteRequest_performs {r : VoteRequest} {caller : Caller}
    (hseat : n.tenure.seat = .follower) :
    Performs src o (onVoteRequest r caller) n fun _ _ => True := by
  unfold onVoteRequest
  refine Action.keeps_get_bind ?_
  dsimp only
  generalize hd : Election.decide r n.hard n.log.lastId = d
  refine Action.keeps_ite_bind ((setDecision_performs hseat hd).bind fun _ m _ => ?_)
  refine Action.keeps_ite_bind (Action.Keeps.bind (Q := fun _ _ => True) ?_ fun _ k _ => ?_)
  · refine Action.keeps_ite (fun _ => ?_) fun _ => Action.keeps_pure trivial
    exact (resetTimer_sits m).performs.weaken fun _ _ _ => trivial
  · exact Action.keeps_get_bind ((answer_performs (by trivial)).weaken fun _ _ _ => trivial)

theorem tryHandle_performs {r : AppendRequest} (ho : o.seat = .follower)
    (hseat : n.tenure.seat = .follower) :
    Performs src o (tryLog (Replication.handle n.id r n.term n.commit)) n fun out m =>
      ∃ l, m.tenure = { n.tenure with log := l } ∧ ∀ a, out = .ok a →
        Replication.Handled n.id r n.term n.commit n.log a l := by
  intro hn
  refine (tryLog_leaves (Replication.handle_ensures n.id r n.term n.commit n.log)).mono ?_ ?_
  · rintro (e | a) m ⟨l, w, rfl, hl⟩
    · exact ⟨hn.step (Deed.merge l ho hseat), l, rfl, nofun⟩
    · refine ⟨hn.step (Deed.merge l ho hseat), l, rfl, ?_⟩
      rintro _ ⟨⟩
      exact hl.2
  · rintro f m ⟨l, rfl, rfl, -⟩
    exact (hn.step (Deed.merge l ho hseat)).lapses nofun

theorem onAppendRequest_performs {r : AppendRequest} {caller : Caller}
    (hsrc : src = some (.appendRequest r caller)) (hn : n.tenure = o)
    (hseat : n.tenure.seat = .follower) (h : n.tenure.Free)
    (hterm : n.tenure.hard.term ≤ r.term) :
    Performs src o (onAppendRequest r caller) n fun _ _ => True := by
  unfold onAppendRequest
  refine (adoptTerm_performs hseat).bind fun _ m hm => ?_
  refine Sits.performs_bind (modify_sits rfl) fun _ m1 hm1 _ => ?_
  refine (resetTimer_sits m1).performs_bind fun _ m2 hm2 _ => ?_
  refine Action.keeps_get_bind ?_
  have ha : m2.tenure = n.tenure.adopt r.term := by rw [hm2, hm1, hm]
  have hseat2 : m2.tenure.seat = .follower := by
    rw [ha]
    exact hseat
  refine (tryHandle_performs (hn ▸ hseat) hseat2).bind ?_
  rintro (e | out) k ⟨l, hk, hout⟩
  · -- the log failed: only a committed entry that is contradicted is answered
    dsimp only
    split
    · rename_i heq
      cases heq
    · exact (answer_performs (by trivial)).weaken fun _ _ _ => trivial
    · exact performs_fail nofun
  · dsimp only
    have hanswer : ∀ j : Node, Performs src o (answer caller (.append (.ok out.response))) j
        fun _ _ => True := by
      intro j
      refine (answer_performs ?_).weaken fun _ _ _ => trivial
      -- a rejection names where the log, as it was, and the request part
      intro hint hhint
      rcases hout out rfl with ⟨matched, -, rfl⟩ | ⟨hint', -, hrejects, rfl⟩
      · cases hhint
      · obtain rfl : hint' = hint := Option.some.inj hhint
        have hlog : m2.log = o.log := by
          rw [← hn]
          exact congrArg Tenure.log ha
        have hterm2 : m2.term = r.term := by
          show m2.tenure.hard.term = _
          rw [ha]
          exact Tenure.term_adopt hterm
        rw [hn] at hterm
        exact ⟨r, hsrc, hterm, hterm2, hlog ▸ hrejects⟩
    split
    · refine (advanceCommit_performs _ ?_).bind fun _ j _ => hanswer j
      rw [hk, ha]
      exact ⟨h.opened, h.queue⟩
    · exact hanswer k

theorem handle_performs {e : Event} (hsrc : src = some e) (hn : n.tenure = o)
    (hseat : n.tenure.seat = .follower) (h : n.tenure.Free) :
    Performs src o (handle e) n fun _ _ => True := by
  have hoffer : ∀ {α : Type} (termOf : α → Nat) (r : Except Error α),
      Performs src o (adoptTermOf termOf r) n fun _ _ => True := by
    intro α termOf r
    cases r with
    | ok a => exact (adoptTerm_performs hseat).weaken fun _ _ _ => trivial
    | error e => exact Action.keeps_pure trivial
  unfold handle
  refine Action.keeps_get_bind ?_
  cases e with
  | voteRequest r caller => exact onVoteRequest_performs hseat
  | appendRequest r caller =>
    refine Action.keeps_ite (fun _ => refuseAppend_performs caller) fun hterm => ?_
    exact onAppendRequest_performs hsrc hn hseat h (Nat.not_lt.1 hterm)
  | timeoutNowRequest r caller =>
    refine Action.keeps_ite (fun _ => ?_) fun _ => ?_
    · exact (answerTimeoutNow_performs caller false).weaken fun _ _ _ => trivial
    · refine (adoptTerm_performs hseat).bind fun _ m hm => ?_
      refine (answerTimeoutNow_performs caller true).bind fun _ k ⟨said, hk⟩ => ?_
      rw [hm] at hk
      refine (emit_performs (by rw [hk]; exact h.opened) ?_).weaken fun _ _ _ => trivial
      rw [hk]
      show Deed src o _ { n.tenure.adopt r.term with queue := n.tenure.queue ++ [_], said }
      rw [h.queue]
      exact Deed.summon (a := { n.tenure.adopt r.term with said }) h.queue hseat
  | propose q request caller =>
    refine (count_sits _ n).performs_bind fun _ m hm _ => ?_
    exact answerClient_performs hsrc (hm.trans hn)
  | transfer target caller =>
    exact (answerTransfer_performs caller _).weaken fun _ _ _ => trivial
  | voteResult peer term r => exact hoffer _ r
  | appendResult peer request r => exact hoffer _ r
  | timeoutNowResult peer term r => exact hoffer _ r

theorem tick_performs (hseat : n.tenure.seat = .follower) (h : n.tenure.Free) :
    Performs src o tick n fun _ _ => True := by
  unfold tick
  refine Action.keeps_get_bind (Action.keeps_ite (fun _ => ?_) fun _ => Action.keeps_pure trivial)
  refine (resetTimer_sits n).performs_bind fun _ m hm _ => ?_
  refine (emit_performs (by rw [hm]; exact h.opened) ?_).weaken fun _ _ _ => trivial
  rw [hm, h.queue]
  exact Deed.summon h.queue hseat

end Follower

/-! ## Elections -/

theorem askForVotes_performs (peers : List NodeId) :
    Performs src o (askForVotes peers) n fun _ _ => True := by
  induction peers generalizing n with
  | nil => exact Action.keeps_pure trivial
  | cons peer rest ih =>
    exact Action.keeps_get_bind ((perform_performs (by trivial)).bind fun _ _ _ => ih)

/-- An election is started, by a node whose run so far need not have been deeds. -/
theorem startElection_tenures (h : n.tenure.Free)
    (hstanding : Reached src o (n.tenure.standing n.tenure.hard.term))
    (hlapses : ∀ f b, Spares n.tenure b → f.Stops → Lapses src o f b) :
    startElection.Ensures n (fun _ m => Reached src o m.tenure)
      fun f m => Lapses src o f m.tenure := by
  refine ensures_startElection ?_ (fun e => ?_) ?_
  · exact hlapses _ _ (spares_refl _) (Or.inl rfl)
  · exact hlapses _ _ ⟨rfl, Or.inl rfl, rfl, rfl, rfl, rfl, rfl⟩ (stops_of_persistence ⟨e, rfl⟩)
  rintro m ⟨timer, savesLeft, seed, counters, hm⟩
  have ha : m.tenure = n.tenure.standing n.tenure.hard.term := by
    rw [hm]
    rfl
  have hend : Performs src o (if m.isQuorum 1 then emit .becomeLeader
      else askForVotes m.view.peers) m fun _ _ => True := by
    refine Action.keeps_ite (fun hquorum => ?_) fun _ => askForVotes_performs _
    have hmajority : majority m.tenure.voters ≤ 1 := by
      simpa [isQuorum, tenure] using hquorum
    have hqueue : m.tenure.queue = [] := by
      rw [ha]
      exact h.queue
    refine (emit_performs (by rw [ha]; exact h.opened) ?_).weaken fun _ _ _ => trivial
    rw [hqueue]
    exact Deed.elect [m.tenure.self] hqueue (by rw [ha]; rfl) (Or.inl hmajority)
  exact (hend (hstanding.of_eq ha)).weaken fun _ _ h => h.1

theorem startElection_performs (ho : ∀ x, o.seat ≠ .leader x) (h : n.tenure.Free)
    (hseat : ∀ x, n.tenure.seat ≠ .leader x) : Performs src o startElection n fun _ _ => True := by
  intro hn
  refine (startElection_tenures h ?_ fun f b hb hf => ?_).weaken
    fun _ _ h => ⟨h, trivial⟩
  · exact hn.step (Deed.stand _ ho h.queue hseat (Nat.le_refl _))
  · exact hn.lapses_of_stop hb hf

/-- A candidate that is asked to start an election enters the newer term and starts it. What it
answers comes first among the deeds: it does not depend on the term that is stored. -/
theorem restart_performs {t : Nat} {caller : Caller} (ho : ∀ x, o.seat ≠ .leader x)
    (h : n.tenure.Free) (hseat : ∀ x, n.tenure.seat ≠ .leader x) (ht : n.tenure.hard.term ≤ t) :
    Performs src o
      (adoptTerm t >>= fun _ => answerTimeoutNow caller true >>= fun _ => startElection) n
      fun _ _ => True := by
  intro hn
  refine Action.Ensures.bind ((adoptTerm_tenure t n).mono (fun _ _ h => h) ?_) ?_
  · rintro f m ⟨hf, hm⟩
    exact hn.lapses_of_stop hm hf
  intro _ m hm
  have hterm : (n.tenure.adopt t).hard.term = t := Tenure.term_adopt ht
  have hanswer : (answerTimeoutNow caller true).Ensures m (fun _ k => k.tenure =
      { n.tenure.adopt t with
        said := n.tenure.said ++ [.answer caller (.timeoutNow (.ok ⟨m.term, true⟩))] })
      fun _ _ => False := by
    refine Action.ensures_get_bind ((perform_tenure _ m).weaken fun _ k hk => ?_)
    rw [hk, hm]
    rfl
  refine hanswer.bind_of_sure ?_
  intro _ k hk
  generalize he : Effect.answer caller (.timeoutNow (.ok ⟨m.term, true⟩)) = e at hk
  have hsaid : Reached src o { n.tenure with said := n.tenure.said ++ [e] } :=
    hn.step (Deed.say e (by rw [← he]; trivial))
  refine (startElection_tenures (by rw [hk]; exact ⟨h.opened, h.queue⟩) ?_
    fun f b hb hf => ?_).weaken fun _ _ h => ⟨h, trivial⟩
  · -- the answer comes first, and the election is one deed
    rw [hk]
    refine (hsaid.step (Deed.stand t ho h.queue hseat ht)).of_eq ?_
    show (({ n.tenure.adopt t with said := _ } : Tenure).standing (n.tenure.adopt t).hard.term) = _
    rw [hterm]
    rfl
  · -- what could not be stored is the next term, or the one that was entered on the way
    refine hsaid.lapses_of_stop ?_ hf
    rw [hk] at hb
    refine { hb with stored := ?_ }
    have hstored := hb.stored
    rcases Nat.lt_or_ge n.tenure.hard.term t with hlt | hge
    · rw [Tenure.adopt_of_lt hlt] at hstored
      rcases hstored with hstored | ⟨u, hu, hstored⟩
      · exact Or.inr ⟨t, hlt, hstored⟩
      · exact Or.inr ⟨u, Nat.lt_trans hlt hu, hstored⟩
    · rwa [Tenure.adopt_of_le hge] at hstored

/-! ## Candidates -/

namespace Candidate

theorem countVote_performs {peer : NodeId} (h : n.tenure.Free) :
    Performs src o (countVote peer) n fun _ _ => True := by
  unfold countVote
  refine Action.keeps_get_bind ?_
  split
  · rename_i timer votes hrole
    refine Action.keeps_ite (fun _ => Action.keeps_pure trivial) fun _ => ?_
    have hseat : n.tenure.seat = .candidate votes := by
      show n.role.seat = _
      rw [hrole]
      rfl
    let m : Node := { n with role := .candidate timer (votes ++ [peer]) }
    have hcount : Reached src o n.tenure → Reached src o m.tenure :=
      fun hn => hn.step (Deed.count peer votes h.queue hseat)
    refine Action.keeps_set_bind hcount ?_
    refine Action.keeps_ite (fun hquorum => ?_) fun _ => Action.keeps_pure trivial
    refine (emit_performs (n := m) h.opened ?_).weaken fun _ _ _ => trivial
    rw [show m.tenure.queue = [] from h.queue]
    refine Deed.elect (a := m.tenure) (votes ++ [peer]) h.queue rfl (Or.inr ?_)
    rw [List.length_append]
    exact Nat.le_of_eq hquorum.symm
  · exact Action.keeps_pure trivial

theorem followNewer_performs {t : Nat} (h : n.tenure.Free) (hseat : n.tenure.seat ≠ .follower) :
    Performs src o (followNewer t) n fun _ _ => True := by
  unfold followNewer
  refine Action.keeps_get_bind (Action.keeps_ite (fun hlt => ?_) fun _ => Action.keeps_pure trivial)
  exact (yield_performs h (Nat.le_of_lt hlt) hseat fun _ _ => hlt).weaken
    fun _ _ _ => trivial

theorem onVote_performs {peer : NodeId} {r : VoteResponse} (h : n.tenure.Free)
    (hseat : n.tenure.seat ≠ .follower) :
    Performs src o (onVote peer r) n fun _ _ => True := by
  unfold onVote
  refine Action.keeps_get_bind ?_
  split
  · exact countVote_performs h
  · exact Action.keeps_pure trivial
  · exact followNewer_performs h hseat

theorem handle_performs {e : Event} {votes : List NodeId} (hsrc : src = some e) (hn : n.tenure = o)
    (hseat : n.tenure.seat = .candidate votes) (h : n.tenure.Free) :
    Performs src o (handle e) n fun _ _ => True := by
  have hleader : ∀ x, n.tenure.seat ≠ .leader x := by
    intro x hx
    rw [hseat] at hx
    cases hx
  have hfollower : n.tenure.seat ≠ .follower := by
    rw [hseat]
    exact nofun
  have hreplay : ∀ t l, e.IsRequest → n.tenure.hard.term ≤ t →
      Performs src o (adoptTerm t >>= fun _ => stepDownAndReplay l e) n fun _ _ => True :=
    fun t l he ht => stepDownAndReplay_performs hsrc he h ht hfollower
      fun x hx => absurd hx (hleader x)
  unfold handle
  refine Action.keeps_get_bind ?_
  cases e with
  | voteRequest r caller =>
    refine Action.keeps_ite (fun hlt => ?_) fun _ => refuseVote_performs caller
    exact hreplay _ _ trivial (Nat.le_of_lt hlt)
  | appendRequest r caller =>
    refine Action.keeps_ite (fun _ => refuseAppend_performs caller) fun hlt => ?_
    exact hreplay _ _ trivial (Nat.not_lt.1 hlt)
  | timeoutNowRequest r caller =>
    refine Action.keeps_ite (fun _ => ?_) fun hlt => ?_
    · exact (answerTimeoutNow_performs caller false).weaken fun _ _ _ => trivial
    · exact restart_performs (hn ▸ hleader) h hleader (Nat.not_lt.1 hlt)
  | propose q request caller => exact answerClient_performs hsrc hn
  | transfer target caller =>
    exact (answerTransfer_performs caller _).weaken fun _ _ _ => trivial
  | voteResult peer term r =>
    refine Action.keeps_ite (fun _ => ?_) fun _ => Action.keeps_pure trivial
    cases r with
    | ok r => exact onVote_performs h hfollower
    | error e => exact Action.keeps_pure trivial
  | appendResult peer request r =>
    cases r with
    | ok r => exact followNewer_performs h hfollower
    | error e => exact Action.keeps_pure trivial
  | timeoutNowResult peer term r =>
    cases r with
    | ok r => exact followNewer_performs h hfollower
    | error e => exact Action.keeps_pure trivial

theorem tick_performs {votes : List NodeId} (hn : n.tenure = o)
    (hseat : n.tenure.seat = .candidate votes) (h : n.tenure.Free) :
    Performs src o tick n fun _ _ => True := by
  have hleader : ∀ x, n.tenure.seat ≠ .leader x := by
    intro x hx
    rw [hseat] at hx
    cases hx
  unfold tick
  refine Action.keeps_get_bind (Action.keeps_ite (fun _ => ?_) fun _ => Action.keeps_pure trivial)
  exact startElection_performs (hn ▸ hleader) h hleader

end Candidate

end Raft.Node
