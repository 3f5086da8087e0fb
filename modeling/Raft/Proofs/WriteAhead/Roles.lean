import Raft.Proofs.WriteAhead.Basic

/-!
# Every handler writes before it speaks

The handlers of the three roles and of the loop, one after the other. Only two of them bind the node:
the vote request and the append request of a follower.

* `Work.run_keeps`: whatever the loop handles, the node writes before it speaks.
-/

namespace Raft.Node

variable {inbound : List Event} {base : HardState} {n : Node}

/-! ## Followers -/

namespace Follower

theorem storeDecision_writes {r : VoteRequest} {d : Election.Decision}
    (hd : Election.decide r n.hard n.log.lastId = d) :
    Writes inbound base (if !d.isEmpty then setHard (d.apply n.hard) else pure ⟨⟩) n
      fun _ m => d.granted = true → m.hard = ⟨r.term, some ⟨r.candidate, r.term⟩⟩ := by
  obtain ⟨hgranted, hrefused⟩ := Election.decide_spec r n.hard n.log.lastId
  rw [hd] at hgranted hrefused
  apply writes_ite
  · intro hempty
    have hempty : d.isEmpty = false := by simpa using hempty
    cases hg : d.granted with
    | true =>
      obtain ⟨-, happly, hle, hfree, -⟩ := hgranted hg
      rw [happly]
      apply (setHard_writes (HardState.precedes_vote hle hfree)).weaken
      intro _ m hm _
      exact hm
    | false =>
      obtain ⟨hlt, happly⟩ := hrefused hg hempty
      rw [happly]
      apply (setHard_writes (HardState.precedes_adopt hlt)).weaken
      intro _ m _ hc
      cases hc
  · intro hempty hn
    refine ⟨hn, fun hg => ?_⟩
    have := (hgranted hg).1
    simp [this] at hempty

/-- A vote that is granted is the stored one. -/
theorem answerVote_keeps {r : VoteRequest} {caller : Caller} {granted : Bool} {i t : Nat}
    (hr : (Event.voteRequest r caller).IsAmong inbound)
    (hgranted : granted = true → n.hard = ⟨r.term, some ⟨r.candidate, r.term⟩⟩) :
    Keeps inbound base (answer caller (.vote (.ok ⟨n.term, granted, i, t⟩))) n := by
  refine (perform_writes fun hs => ?_).keeps
  constructor
  · exact hs
  · rintro t ⟨⟩
    rfl
  · rintro c a ⟨⟩ ha
    have hhard := hgranted ha
    refine ⟨r, hr _ rfl, ?_, ?_⟩
    · show n.hard.term = r.term
      rw [hhard]
    · show n.stored = _
      rw [hhard] at hs
      cases hstored : n.stored with
      | none =>
        rw [hstored] at hs
        cases congrArg HardState.vote hs
      | some h =>
        rw [hstored] at hs
        exact congrArg some hs
  · rintro c a ⟨⟩

theorem onVoteRequest_keeps {r : VoteRequest} {caller : Caller}
    (hr : (Event.voteRequest r caller).IsAmong inbound) :
    Keeps inbound base (onVoteRequest r caller) n := by
  unfold onVoteRequest
  apply writes_get_bind
  dsimp only
  generalize hd : Election.decide r n.hard n.log.lastId = d
  apply writes_ite_bind
  apply (storeDecision_writes hd).bind
  intro _ m hm
  apply writes_ite_bind
  have htimer : Writes inbound base (if d.granted then resetTimer else pure ⟨⟩) m
      fun _ k => k.hard = m.hard := by
    apply writes_ite
    · intro _
      exact (resetTimer_still m).writes.weaken fun _ k hk => hard_eq_of_paper hk.1
    · intro _ hm
      exact ⟨hm, rfl⟩
  apply htimer.bind
  intro _ k hk
  apply writes_get_bind
  exact answerVote_keeps hr fun hg => hk.trans (hm hg)

/-- What is confirmed of a request is in the log. -/
theorem confirm_keeps {r : AppendRequest} {caller : Caller} {a : AppendResponse}
    (hr : (Event.appendRequest r caller).IsAmong inbound) (hterm : a.term = n.hard.term)
    (hheld : a.success = true → a.term = r.term ∧ a.matchIndex = r.last
      ∧ (Consecutive r.prevIndex r.entries → r.HeldBy n.log.entries)) :
    Keeps inbound base (answer caller (.append (.ok a))) n := by
  refine (perform_writes fun hs => ?_).keeps
  constructor
  · exact hs
  · rintro t ⟨⟩
    exact hterm
  · rintro c b ⟨⟩
  · rintro c b ⟨⟩ hb
    exact ⟨r, hr _ rfl, hheld hb⟩

theorem onAppendRequest_keeps {r : AppendRequest} {caller : Caller}
    (hr : (Event.appendRequest r caller).IsAmong inbound) (hterm : n.hard.term ≤ r.term) :
    Keeps inbound base (onAppendRequest r caller) n := by
  unfold onAppendRequest
  apply (adoptTerm_writes r.term).bind
  intro _ m hm
  apply writes_modify_bind rfl
  apply (resetTimer_still _).writes_bind
  intro _ m2 hm2 _
  apply writes_get_bind
  have hterm2 : m2.hard.term = r.term := by
    rw [hard_eq_of_paper hm2]
    show m.hard.term = r.term
    omega
  apply tryLog_writes (Replication.handle_ensures m2.id r m2.term m2.commit m2.log)
  · rintro out l (⟨matched, ⟨rfl, hprev, hl, hknows⟩, rfl⟩ | ⟨hint, rfl, -, rfl⟩)
    · -- what is confirmed is in the log by then
      have hheld : Consecutive r.prevIndex r.entries → r.HeldBy l.entries := by
        intro hc
        exact ⟨hl.termAt_eq hc hprev, hknows hc⟩
      have hanswer : ∀ k : Node, k.hard = m2.hard → k.log = l → Keeps inbound base
          (answer caller (.append (.ok (.accepted m2.id m2.term r.last)))) k := by
        intro k hk hlog
        apply confirm_keeps hr
        · rw [hk]
          rfl
        · intro _
          rw [hlog]
          exact ⟨hterm2, rfl, hheld⟩
      dsimp only
      split
      · apply (advanceCommit_writes _).bind
        rintro _ k ⟨hk, hlog⟩
        exact hanswer k hk hlog
      · exact hanswer _ rfl rfl
    · -- a rejection binds nobody
      apply confirm_keeps hr rfl
      rintro ⟨⟩
  · intro e l _
    dsimp only
    split
    · rename_i heq
      cases heq
    · rename_i index commit heq
      obtain rfl := Except.error.inj heq
      refine Or.inl ⟨rfl, (answer_writes ?_ (by simp [Effect.Binds])).keeps⟩
      rintro t ⟨⟩
    · exact Or.inr ⟨_, _, rfl⟩

theorem handle_keeps {e : Event} (he : e.IsAmong inbound) : Keeps inbound base (handle e) n := by
  unfold handle
  apply writes_get_bind
  cases e with
  | voteRequest r caller => exact onVoteRequest_keeps he
  | appendRequest r caller =>
    apply writes_ite
    · intro _
      exact refuseAppend_keeps caller
    · intro hterm
      exact onAppendRequest_keeps he (Nat.not_lt.1 hterm)
  | timeoutNowRequest r caller =>
    apply writes_ite
    · intro _
      exact answerTimeoutNow_keeps caller false
    · intro _
      apply (adoptTerm_writes r.term).bind
      intro _ m _
      apply (answerTimeoutNow_keeps caller true).bind
      intro _ k _
      exact emit_keeps nofun
  | propose r request caller =>
    apply (count_still _ n).writes_bind
    intro _ m _ _
    exact answerClient_keeps caller _
  | transfer target caller => exact answerTransfer_keeps caller _
  | voteResult peer term r => exact adoptTermOf_keeps _ r
  | appendResult peer request r => exact adoptTermOf_keeps _ r
  | timeoutNowResult peer term r => exact adoptTermOf_keeps _ r

theorem tick_keeps : Keeps inbound base tick n := by
  unfold tick
  apply writes_get_bind
  apply writes_ite
  · intro _
    apply (resetTimer_still n).writes_bind
    intro _ m _ _
    exact emit_keeps nofun
  · intro _
    exact keeps_pure

end Follower

/-! ## Candidates -/

theorem askForVotes_keeps (peers : List NodeId) : Keeps inbound base (askForVotes peers) n := by
  induction peers generalizing n with
  | nil => exact keeps_pure
  | cons peer rest ih =>
    apply writes_get_bind
    apply (send_writes rfl).bind
    intro _ m _
    exact ih

theorem startElection_keeps : Keeps inbound base startElection n := by
  intro hn
  have hvote : n.hard.Precedes ⟨n.term + 1, some ⟨n.id, n.term + 1⟩⟩ :=
    HardState.precedes_vote (Nat.le_succ _) fun heq => absurd heq (Nat.succ_ne_self _).symm
  refine ensures_startElection (Or.inl hn) (fun e => ?_) ?_
  · exact spoils_persistence _ e { hn.toDurable with }
  rintro m ⟨timer, savesLeft, seed, counters, hm⟩
  have hwritten : m.Written inbound base := by
    rw [hm]
    exact (hn.store hvote).congr rfl
  have hrest : Keeps inbound base (if m.isQuorum 1 then emit .becomeLeader
      else askForVotes m.view.peers) m := by
    apply writes_ite
    · intro _
      exact emit_keeps nofun
    · intro _
      exact askForVotes_keeps _
  exact hrest hwritten

namespace Candidate

theorem followNewer_keeps (t : Nat) : Keeps inbound base (followNewer t) n := by
  unfold followNewer
  apply writes_get_bind
  apply writes_ite
  · intro _
    apply (adoptTerm_writes t).bind
    intro _ m _
    exact emit_keeps nofun
  · intro _
    exact keeps_pure

theorem countVote_keeps (peer : NodeId) : Keeps inbound base (countVote peer) n := by
  unfold countVote
  apply writes_get_bind
  split
  · apply writes_ite
    · intro _
      exact keeps_pure
    · intro _
      apply writes_set_bind (by rfl)
      apply writes_ite
      · intro _
        exact emit_keeps nofun
      · intro _
        exact keeps_pure
  · exact keeps_pure

theorem onVote_keeps (peer : NodeId) (r : VoteResponse) :
    Keeps inbound base (onVote peer r) n := by
  unfold onVote
  apply writes_get_bind
  split
  · exact countVote_keeps peer
  · exact keeps_pure
  · exact followNewer_keeps r.term

theorem handle_keeps {e : Event} (he : e.IsAmong inbound) : Keeps inbound base (handle e) n := by
  unfold handle
  apply writes_get_bind
  cases e with
  | voteRequest r caller =>
    apply writes_ite
    · intro _
      exact (adoptTerm_writes r.term).bind fun _ m _ => stepDownAndReplay_keeps he
    · intro _
      exact refuseVote_keeps caller
  | appendRequest r caller =>
    apply writes_ite
    · intro _
      exact refuseAppend_keeps caller
    · intro _
      exact (adoptTerm_writes r.term).bind fun _ m _ => stepDownAndReplay_keeps he
  | timeoutNowRequest r caller =>
    apply writes_ite
    · intro _
      exact answerTimeoutNow_keeps caller false
    · intro _
      apply (adoptTerm_writes r.term).bind
      intro _ m _
      apply (answerTimeoutNow_keeps caller true).bind
      intro _ k _
      exact startElection_keeps
  | propose r request caller => exact answerClient_keeps caller _
  | transfer target caller => exact answerTransfer_keeps caller _
  | voteResult peer term r =>
    apply writes_ite
    · intro _
      cases r with
      | ok r => exact onVote_keeps peer r
      | error e => exact keeps_pure
    · intro _
      exact keeps_pure
  | appendResult peer request r =>
    cases r with
    | ok r => exact followNewer_keeps r.term
    | error e => exact keeps_pure
  | timeoutNowResult peer term r =>
    cases r with
    | ok r => exact followNewer_keeps r.term
    | error e => exact keeps_pure

theorem tick_keeps : Keeps inbound base tick n := by
  unfold tick
  apply writes_get_bind
  apply writes_ite
  · intro _
    exact startElection_keeps
  · intro _
    exact keeps_pure

end Candidate

/-! ## Leaders -/

namespace Leader

theorem replicateTo_keeps (peer : NodeId) : Keeps inbound base (replicateTo peer) n := by
  intro hn
  refine (replicateTo_leaves peer n).mono ?_ ?_
  · rintro _ _ (rfl | ⟨l, next, r, -, -, -, hr, rfl⟩)
    · exact ⟨hn, trivial⟩
    · exact ⟨hn.send (r := .append r) (appendRequest_isPartOf hr).1 rfl, trivial⟩
  · rintro f _ ⟨rfl, -⟩
    exact Or.inl hn

theorem replicateToAll_keeps (peers : List NodeId) :
    Keeps inbound base (replicateToAll peers) n := by
  induction peers generalizing n with
  | nil => exact keeps_pure
  | cons peer rest ih => exact (replicateTo_keeps peer).bind fun _ m _ => ih

theorem commitMajority_keeps : Keeps inbound base commitMajority n := by
  intro hn
  exact ensures_commitMajority ⟨hn, trivial⟩ fun _ i _ _ => (advanceCommit_writes i).keeps hn

theorem askTarget_keeps (peer : NodeId) : Keeps inbound base (askTarget peer) n := by
  intro hn
  refine (askTarget_leaves peer n).mono_of_sure ?_
  rintro (_ | _) m hm
  · obtain rfl : m = n := hm
    exact ⟨hn, trivial⟩
  · obtain ⟨l, t, -, -, -, -, -, rfl⟩ := hm
    exact ⟨hn.send (r := .timeoutNow ⟨n.term, n.id⟩) rfl rfl, trivial⟩

theorem abortTransfer_keeps (error : NodeId → Error) :
    Keeps inbound base (abortTransfer error) n := by
  intro hn
  refine (abortTransfer_leaves error n).mono_of_sure ?_
  rintro _ _ (⟨-, rfl⟩ | ⟨l, t, -, -, rfl⟩)
  · exact ⟨hn, trivial⟩
  have hdue : ∀ e ∈ t.caller.toList.map fun c =>
      Effect.answer c (.transfer (.error (error t.target))),
      (n.departure e).WrittenAhead inbound := by
    intro e he
    obtain ⟨c, -, rfl⟩ := List.mem_map.1 he
    exact writtenAhead_of_not_binds hn.stored (fun _ h => by cases h) (by simp [Effect.Binds])
  refine ⟨(hn.depart hdue).congr ?_, trivial⟩
  simp [paper]

theorem stepDown_keeps (t : Nat) : Keeps inbound base (stepDown t) n := by
  apply (adoptTerm_writes t).bind
  intro _ m _
  exact emit_keeps nofun

theorem onElected_keeps : Keeps inbound base onElected n := by
  unfold onElected
  apply writes_get_bind
  apply still_ofExcept.writes_bind
  rintro index _ - ⟨-, rfl⟩
  apply (modifyLeader_still _ n).writes_bind
  intro _ m _ _
  apply tryLog_writes (Log.append_ensures m.log _)
  · intro _ l _
    apply (modifyLeader_still _ _).writes_bind
    intro _ m1 _ _
    apply writes_modify_bind rfl
    apply (count_still _ _).writes_bind
    intro _ m3 _ _
    apply (resetTimer_still m3).writes_bind
    intro _ m4 _ _
    exact (replicateToAll_keeps _).bind fun _ m5 _ => commitMajority_keeps
  · intro e l _
    exact Or.inr ⟨_, _, rfl⟩

theorem onMatched_keeps (peer : NodeId) (matched : Nat) :
    Keeps inbound base (onMatched peer matched) n := by
  unfold onMatched
  apply still_ofExcept.writes_bind
  rintro after _ - ⟨-, rfl⟩
  apply (modifyLeader_still _ n).writes_bind
  intro _ m _ _
  apply commitMajority_keeps.bind
  intro _ m1 _
  apply (askTarget_keeps peer).bind
  intro asked m2 _
  apply writes_ite
  · intro _
    exact keeps_pure
  · intro _
    apply writes_get_bind
    split
    · apply writes_ite
      · intro _
        exact replicateTo_keeps peer
      · intro _
        exact keeps_pure
    · exact keeps_pure

theorem onConflict_keeps (peer : NodeId) (prevIndex : Nat) (hint : ConflictHint) :
    Keeps inbound base (onConflict peer prevIndex hint) n := by
  unfold onConflict
  apply (count_still _ n).writes_bind
  intro _ m _ _
  apply writes_get_bind
  apply still_ofExcept.writes_bind
  rintro next _ - ⟨-, rfl⟩
  apply (modifyLeader_still _ m).writes_bind
  intro _ k _ _
  exact replicateTo_keeps peer

theorem onAppendResult_keeps (peer : NodeId) (request : AppendMeta)
    (r : Except Error AppendResponse) :
    Keeps inbound base (onAppendResult peer request r) n := by
  unfold onAppendResult
  apply writes_get_bind
  apply writes_ite
  · intro _
    apply (modifyLeader_still _ n).writes_bind
    intro _ m _ _
    cases r with
    | error e => exact keeps_pure
    | ok r =>
      dsimp only
      split
      · exact onMatched_keeps peer _
      · exact keeps_pure
      · exact stepDown_keeps _
      · exact onConflict_keeps peer _ _
  · intro _
    exact keeps_pure

theorem place_keeps (r : ClientRequest) : Keeps inbound base (place r) n := by
  unfold place
  apply writes_get_bind
  apply still_ofResult.writes_bind
  rintro found _ - rfl
  split
  · exact keeps_pure
  · apply still_ofExcept.writes_bind
    rintro index _ - ⟨-, rfl⟩
    apply tryLog_writes (Log.append_ensures n.log _)
    · intro _ l _
      exact keeps_pure
    · intro e l _
      exact Or.inr ⟨_, _, rfl⟩

theorem onPropose_keeps (r : ClientRequest) (request : String) (caller : Caller) :
    Keeps inbound base (onPropose r request caller) n := by
  unfold onPropose
  apply writes_get_bind
  split
  · exact answerClient_keeps caller _
  · split
    · exact answerClient_keeps caller _
    · exact answerClient_keeps caller _
    · apply (place_keeps r).bind
      intro id m _
      apply writes_modify_bind rfl
      exact (replicateToAll_keeps _).bind fun _ j _ => commitMajority_keeps

theorem onTransfer_keeps (target : NodeId) (caller : Caller) :
    Keeps inbound base (onTransfer target caller) n := by
  unfold onTransfer
  apply writes_get_bind
  split
  · exact answerTransfer_keeps caller _
  · apply writes_ite
    · intro _
      exact answerTransfer_keeps caller _
    · intro _
      apply (count_still _ n).writes_bind
      intro _ m _ _
      apply (modifyLeader_still _ m).writes_bind
      intro _ k _ _
      apply (askTarget_keeps target).bind
      intro asked j _
      apply writes_ite
      · intro _
        exact keeps_pure
      · intro _
        exact replicateTo_keeps target

theorem onTimeoutNowResult_keeps (t : Nat) (r : Except Error TimeoutNowResponse) :
    Keeps inbound base (onTimeoutNowResult t r) n := by
  unfold onTimeoutNowResult
  apply writes_get_bind
  apply writes_ite
  · intro _
    cases r with
    | error e => exact abortTransfer_keeps _
    | ok r =>
      dsimp only
      apply writes_ite
      · intro _
        exact stepDown_keeps r.term
      · intro _
        apply writes_ite
        · intro _
          split
          · split
            · apply (modifyLeader_still _ n).writes_bind
              intro _ m _ _
              exact answerTransfer_keeps _ _
            · exact keeps_pure
          · exact keeps_pure
        · intro _
          exact abortTransfer_keeps _
  · intro _
    exact keeps_pure

theorem handle_keeps {e : Event} (he : e.IsAmong inbound) : Keeps inbound base (handle e) n := by
  unfold handle
  apply writes_get_bind
  have hyield : ∀ t l, Keeps inbound base (adoptTerm t >>= fun _ => stepDownAndReplay l e) n :=
    fun t l => (adoptTerm_writes t).bind fun _ m _ => stepDownAndReplay_keeps he
  cases e with
  | voteRequest r caller => exact writes_ite (fun _ => hyield _ _) fun _ => refuseVote_keeps caller
  | appendRequest r caller =>
    exact writes_ite (fun _ => hyield _ _) fun _ => refuseAppend_keeps caller
  | timeoutNowRequest r caller =>
    exact writes_ite (fun _ => hyield _ _) fun _ => answerTimeoutNow_keeps caller false
  | propose r request caller => exact onPropose_keeps r request caller
  | transfer target caller => exact onTransfer_keeps target caller
  | voteResult peer term r =>
    cases r with
    | ok r => exact writes_ite (fun _ => stepDown_keeps r.term) fun _ => keeps_pure
    | error e => exact keeps_pure
  | appendResult peer request r => exact onAppendResult_keeps peer request r
  | timeoutNowResult peer term r => exact onTimeoutNowResult_keeps term r

theorem tick_keeps : Keeps inbound base tick n := by
  have hheartbeat : ∀ m : Node, Keeps inbound base (do
      let k ← get
      if k.role.isExpired k.now then
        resetTimer
        replicateToAll k.view.peers) m := by
    intro m
    apply writes_get_bind
    apply writes_ite
    · intro _
      apply (resetTimer_still m).writes_bind
      intro _ k _ _
      exact replicateToAll_keeps _
    · intro _
      exact keeps_pure
  unfold tick
  apply writes_get_bind
  split
  · apply writes_ite
    · intro _
      exact (abortTransfer_keeps _).bind fun _ m _ => hheartbeat m
    · intro _
      exact hheartbeat n
  · exact hheartbeat n

/-- Answers to clients bind nobody. -/
theorem onStepDown_keeps (leader : Option NodeId) {l : LeaderState} (hrole : n.role = .leader l) :
    Keeps inbound base (onStepDown leader) n := by
  intro hn
  refine (onStepDown_leaves leader hrole).mono_of_sure ?_
  rintro _ _ rfl
  -- an answer of this kind binds the node to nothing
  have hdue : ∀ e ∈ redirects n.applier.waiters leader ++ parting leader l,
      (n.departure e).WrittenAhead inbound := by
    intro e he
    rcases List.mem_append.1 he with he | he
    · obtain ⟨w, -, rfl⟩ := List.mem_map.1 he
      exact writtenAhead_of_not_binds hn.stored (fun _ h => by cases h) (by simp [Effect.Binds])
    · obtain ⟨c, x, rfl⟩ := answer_of_mem_parting he
      exact writtenAhead_of_not_binds hn.stored (fun _ h => by cases h) (by simp [Effect.Binds])
  exact ⟨(hn.depart hdue).congr rfl, trivial⟩

end Leader

/-! ## The loop -/

theorem handle_keeps {e : Event} (he : e.IsAmong inbound) : Keeps inbound base (handle e) n := by
  unfold handle
  apply writes_get_bind
  split
  · exact Follower.handle_keeps he
  · exact Candidate.handle_keeps he
  · exact Leader.handle_keeps he

theorem tick_keeps : Keeps inbound base tick n := by
  unfold tick
  apply writes_get_bind
  split
  · exact Follower.tick_keeps
  · exact Candidate.tick_keeps
  · exact Leader.tick_keeps

theorem become_keeps (target : RoleKind) : Keeps inbound base (become target) n := by
  intro hn
  refine (become_leaves target n).mono ?_ ?_
  · rintro _ _ ⟨role, seed, -, rfl⟩
    exact ⟨hn.congr rfl, trivial⟩
  · rintro f _ ⟨⟨-, rfl⟩, -⟩
    exact Or.inl hn

theorem handleRole_keeps {e : RoleEvent} (he : ∀ x, e = .replay x → x.IsAmong inbound) :
    Keeps inbound base (handleRole e) n := by
  unfold handleRole
  cases e with
  | becomeFollower leader =>
    apply writes_modify_bind rfl
    apply writes_get_bind
    split
    · exact keeps_pure
    · exact become_keeps .follower
    · rename_i hrole
      exact (Leader.onStepDown_keeps leader hrole).bind fun _ k _ => become_keeps .follower
  | becomeCandidate => exact (become_keeps .candidate).bind fun _ m _ => startElection_keeps
  | becomeLeader => exact (become_keeps .leader).bind fun _ m _ => Leader.onElected_keeps
  | newCommit i => exact (still_modify rfl).writes.keeps
  | replay e => exact handle_keeps (he e rfl)

end Raft.Node

namespace Raft

/-- **Write-ahead.** Whatever the loop handles, the node writes before it speaks. -/
theorem Work.run_keeps {inbound : List Event} {base : HardState} {n : Node} {w : Work}
    (hw : ∀ e, w = .event e ∨ w = .role (.replay e) → e.IsAmong inbound) :
    Node.Keeps inbound base w.run n := by
  cases w with
  | role e =>
    apply Node.handleRole_keeps
    rintro x rfl
    exact hw x (Or.inr rfl)
  | tick => exact Node.tick_keeps
  | event e => exact Node.handle_keeps (hw e (Or.inl rfl))

end Raft
