import Raft.Proofs.Profile.Roles

/-!
# Turns of leaders

What a leader does for the logs of its peers leaves its profile as it is. What is left are
transfers, and the newer terms for which it steps down.

* `handle_makes`, `tick_makes`: events and ticks.
* `onStepDown_profile`: what a leader owes when it steps down.
-/

namespace Raft.Node

variable {src : Option Event} {o : Profile} {n : Node}

namespace Leader

theorem replicateTo_calm (peer : NodeId) : Calm (replicateTo peer) n := by
  refine (replicateTo_leaves peer n).mono ?_ ?_
  · rintro _ _ (rfl | ⟨l, next, r, hrole, -, -, -, rfl⟩)
    · rfl
    · simp [profile, hrole, Role.post, departure, Departure.note?]
  · rintro f _ ⟨rfl, -⟩
    rfl

theorem replicateToAll_calm (peers : List NodeId) : Calm (replicateToAll peers) n := by
  induction peers generalizing n with
  | nil => exact calm_pure
  | cons peer rest ih => exact (replicateTo_calm peer).bind fun _ m _ => ih

theorem commitMajority_takes (hopen : n.profile.closed = false) :
    Takes src o commitMajority n fun _ m =>
      m.profile.closed = false ∧ m.profile.retires = n.profile.retires := by
  intro hn
  exact ensures_commitMajority ⟨hn, hopen, rfl⟩ fun _ i _ _ => advanceCommit_takes i hopen hn

/-- The peers are sent what they lack, and what a majority holds is committed. -/
theorem replicate_commit_makes {peers : List NodeId} (hopen : n.profile.closed = false) :
    Makes src o (do replicateToAll peers; commitMajority) n := by
  apply (replicateToAll_calm peers).takes_bind
  intro _ m hm
  rw [← hm] at hopen
  exact (commitMajority_takes hopen).makes

theorem exists_of_post_leader {x : Option Transfer} (h : n.profile.post = .leader x) :
    ∃ l, n.role = .leader l ∧ l.transfer = x := by
  have hpost : n.role.post = .leader x := h
  cases hrole : n.role with
  | leader l =>
    rw [hrole] at hpost
    exact ⟨l, rfl, Post.leader.inj hpost⟩
  | follower | candidate =>
    rw [hrole] at hpost
    cases hpost

theorem askTarget_makes (peer : NodeId) (hstays : n.profile.retires = false) :
    Makes src o (askTarget peer) n := by
  intro hn
  refine (askTarget_leaves peer n).mono_of_sure ?_
  rintro (_ | _) m hm
  · obtain rfl : m = n := hm
    exact ⟨hn, trivial⟩
  · obtain ⟨l, t, hrole, ht, rfl, hasked, -, rfl⟩ := hm
    have hpost : n.profile.post = .leader (some t) := by
      show n.role.post = _
      rw [hrole, Role.post, ht]
    have hturn := hn.step (Turn.ask t hpost hasked hstays)
    refine ⟨?_, trivial⟩
    simpa [profile, term, Node.id, Role.post, departure, Departure.note?] using hturn

theorem abortTransfer_idle {error : NodeId → Error} (h : n.profile.post.transfer? = none) :
    Idle (abortTransfer error) n := by
  refine (abortTransfer_leaves error n).weaken ?_
  rintro _ _ (⟨-, rfl⟩ | ⟨l, t, hrole, ht, rfl⟩)
  · rfl
  · have hsome : n.profile.post.transfer? = some t := by
      show n.role.post.transfer? = _
      rw [hrole]
      exact ht
    rw [hsome] at h
    cases h

theorem abortTransfer_profile {error : NodeId → Error} {t : Transfer}
    (hpost : n.profile.post = .leader (some t)) :
    (abortTransfer error).Ensures n
      (fun _ m => m.profile = { n.profile with
        post := .leader none
        notes := n.profile.notes ++ n.profile.owed fun _ => .error (error t.target) })
      fun _ _ => False := by
  obtain ⟨l, hrole, ht⟩ := exists_of_post_leader hpost
  refine (abortTransfer_leaves error n).weaken ?_
  rintro _ _ (⟨hnone, -⟩ | ⟨l', t', hrole', ht', rfl⟩)
  · simp [leader?, hrole, ht] at hnone
  obtain rfl := Role.leader.inj (hrole.symm.trans hrole')
  obtain rfl := Option.some.inj (ht.symm.trans ht')
  cases hcaller : t.caller with
  | some caller =>
    rw [Profile.owed_of_caller (by rw [hpost]; rfl) hcaller]
    simp [profile, Role.post, departure, Departure.note?]
  | none =>
    rw [Profile.owed_of_none ((Profile.caller?_of_post hpost).trans hcaller)]
    simp [profile, Role.post]

theorem abortTransfer_makes (error : NodeId → Error) :
    Makes src o (abortTransfer error) n := by
  cases ht : n.profile.post.transfer? with
  | none => exact (abortTransfer_idle ht).makes
  | some t =>
    have hpost := Post.eq_leader_of_transfer? ht
    exact (takes_turn (abortTransfer_profile hpost) (Turn.abort t (error t.target) hpost)).makes

/-- A newer term is entered before the leader steps down. -/
theorem stepDown_makes {t : Nat} (hopen : n.profile.closed = false)
    (hlt : n.profile.hard.term < t) : Makes src o (stepDown t) n :=
  (yield_takes hopen (Nat.le_of_lt hlt) fun _ _ => hlt).makes

theorem onElected_makes (hopen : n.profile.closed = false) :
    Makes src o onElected n := by
  unfold onElected
  apply takes_get_bind
  apply calm_ofExcept.takes_bind
  intro index m hm
  refine Idle.takes_bind (modifyLeader_idle fun _ => rfl) fun _ m1 hm1 => ?_
  apply (tryLog_calm _).takes_bind
  intro a m2 hm2
  split
  · exact calm_fail.makes
  · refine Idle.takes_bind (modifyLeader_idle fun _ => rfl) fun _ m3 hm3 => ?_
    apply Idle.takes_bind (idle_modify (by rfl))
    intro _ m4 hm4
    apply (count_idle _ m4).takes_bind
    intro _ m5 hm5
    apply (resetTimer_idle m5).takes_bind
    intro _ m6 hm6
    refine replicate_commit_makes ?_
    rw [hm6, hm5, hm4, hm3, hm2, hm1, hm]
    exact hopen

theorem onMatched_makes (peer : NodeId) (matched : Nat) (hopen : n.profile.closed = false)
    (hstays : n.profile.retires = false) :
    Makes src o (onMatched peer matched) n := by
  unfold onMatched
  apply calm_ofExcept.takes_bind
  intro after m hm
  refine Idle.takes_bind (modifyLeader_idle fun _ => rfl) fun _ m1 hm1 => ?_
  rw [hm] at hm1
  apply (commitMajority_takes (by rw [hm1]; exact hopen)).bind
  rintro _ m2 ⟨-, hm2⟩
  apply (askTarget_makes peer (by rw [hm2, hm1]; exact hstays)).bind
  intro asked m3 _
  apply takes_ite
  · intro _
    exact makes_pure
  · intro _
    apply takes_get_bind
    split
    · apply takes_ite
      · intro _
        exact (replicateTo_calm peer).makes
      · intro _
        exact makes_pure
    · exact makes_pure

theorem onConflict_calm (peer : NodeId) (prevIndex : Nat) (hint : ConflictHint) :
    Calm (onConflict peer prevIndex hint) n := by
  unfold onConflict
  apply (count_idle _ n).calm.bind
  intro _ m _
  apply calm_get_bind
  apply calm_ofExcept.bind
  intro next k _
  exact Calm.bind (Idle.calm (modifyLeader_idle fun _ => rfl)) fun _ j _ => replicateTo_calm peer

theorem onAppendResult_makes (peer : NodeId) (request : AppendMeta)
    (r : Except Error AppendResponse) (hopen : n.profile.closed = false)
    (hstays : n.profile.retires = false) : Makes src o (onAppendResult peer request r) n := by
  unfold onAppendResult
  apply takes_get_bind
  apply takes_ite
  · intro _
    refine Idle.takes_bind (modifyLeader_idle fun _ => rfl) fun _ m hm => ?_
    rw [← hm] at hopen hstays
    cases r with
    | error => exact makes_pure
    | ok r =>
      dsimp only
      unfold Replication.verdict
      split
      · exact onMatched_makes peer _ hopen hstays
      · exact makes_pure
      · rename_i t hv
        split at hv
        · rename_i hlt
          obtain rfl := Replication.Verdict.higherTerm.inj hv
          refine stepDown_makes hopen ?_
          rw [hm]
          exact hlt
        · split at hv
          · cases hv
          · split at hv <;> cases hv
      · exact (onConflict_calm peer _ _).makes
  · intro _
    exact makes_pure

theorem place_calm (r : ClientRequest) : Calm (place r) n := by
  unfold place
  apply calm_get_bind
  apply calm_ofResult.bind
  intro found m _
  split
  · exact calm_pure
  · apply calm_ofExcept.bind
    intro index k _
    apply (tryLog_calm _).bind
    intro a j _
    split
    · exact calm_fail
    · exact calm_pure

theorem onPropose_makes (r : ClientRequest) (request : String) (caller : Caller)
    (hopen : n.profile.closed = false) :
    Makes src o (onPropose r request caller) n := by
  unfold onPropose
  apply takes_get_bind
  have hanswer : ∀ x, Makes src o (answer caller (.client x)) n :=
    fun x => (answerClient_idle caller x).makes
  split
  · exact hanswer _
  · split
    · exact hanswer _
    · exact hanswer _
    · apply (place_calm r).takes_bind
      intro id m hm
      apply Idle.takes_bind (idle_modify (by rfl))
      intro _ k hk
      refine replicate_commit_makes ?_
      rw [hk, hm]
      exact hopen

theorem onTransfer_makes {target : NodeId} {caller : Caller} {l : LeaderState}
    (hsrc : src = some (.transfer target caller))
    (he : n.profile.Admits (.transfer target caller)) (hrole : n.role = .leader l) :
    Makes src o (onTransfer target caller) n := by
  have hfresh := he.fresh _ _ rfl
  have hrefuse : ∀ e, Makes src o (answer caller (.transfer (.error e))) n :=
    fun e => (takes_turn (answerTransfer_profile _ _ n)
      (Turn.refuse target caller e hsrc hfresh)).makes
  unfold onTransfer
  apply takes_get_bind
  simp only [leader?, hrole, Option.bind_some]
  split
  · exact hrefuse _
  · rename_i hnone
    apply takes_ite
    · intro _
      exact hrefuse _
    · intro _ hn
      have hpost : n.profile.post = .leader none := by
        show n.role.post = _
        rw [hrole, Role.post, hnone]
      refine Action.ensures_modify_bind ?_
      generalize hm : ({ n with counters := _ } : Node) = m
      have hprofile : m.profile = n.profile := by
        rw [← hm]
        rfl
      have hrole' : m.role = .leader l := by
        rw [← hm]
        exact hrole
      refine (modifyLeader_profile hrole').bind_of_sure ?_
      intro _ k hk
      rw [hprofile] at hk
      have hstays : n.profile.retires = false := he.stays.resolve_left fun h => h
      -- the transfer begins before its target is asked, if the target is asked at all
      have hbegin := hn.step (Turn.begin target caller
        (n.now + n.settings.consensus.transfer.timeout) hsrc hfresh hpost hstays)
      replace hstays : k.profile.retires = false := by
        rw [hk]
        exact hstays
      have hrest : Makes src o (do
          let asked ← askTarget target
          if asked then pure ⟨⟩ else replicateTo target) k := by
        apply (askTarget_makes target hstays).bind
        intro asked j _
        apply takes_ite
        · intro _
          exact makes_pure
        · intro _
          exact (replicateTo_calm target).makes
      exact hrest (hk ▸ hbegin)

/-- The caller of a transfer is told that the target takes over; the transfer goes on. -/
theorem accept_profile {t : Transfer} {caller : Caller}
    (hpost : n.profile.post = .leader (some t)) :
    (do
      modifyLeader fun l => { l with transfer := some { t with caller := none } }
      answer caller (.transfer (.ok ()))).Ensures n
      (fun _ m => m.profile = { n.profile with
        post := .leader (some { t with caller := none })
        notes := n.profile.notes ++ [Note.tells caller (.ok ()) n.profile.hard.term] })
      fun _ _ => False := by
  obtain ⟨l, hrole, -⟩ := exists_of_post_leader hpost
  apply (modifyLeader_profile hrole).bind
  intro _ m hm
  refine (answerTransfer_profile _ _ m).weaken fun _ k hk => ?_
  rw [hk, hm]

theorem onTimeoutNowResult_makes {peer : NodeId} {term : Nat}
    {r : Except Error TimeoutNowResponse} {l : LeaderState}
    (hsrc : src = some (.timeoutNowResult peer term r)) (hrole : n.role = .leader l)
    (hopen : n.profile.closed = false) (hstays : n.profile.retires = false) :
    Makes src o (onTimeoutNowResult term r) n := by
  unfold onTimeoutNowResult
  apply takes_get_bind
  apply takes_ite
  · intro hterm
    cases r with
    | error e => exact abortTransfer_makes _
    | ok r =>
      apply takes_ite
      · exact fun hlt => stepDown_makes hopen hlt
      · intro hlt
        apply takes_ite
        · intro haccepted
          simp only [leader?, hrole, Option.bind_some]
          split
          · rename_i t ht
            split
            · rename_i caller hcaller
              rw [hterm] at hsrc
              have hpost : n.profile.post = .leader (some t) := by
                show n.role.post = _
                rw [hrole, Role.post, ht]
              exact (takes_turn (accept_profile hpost) (Turn.accept peer r t caller hsrc haccepted
                (Nat.not_lt.1 hlt) hpost hcaller hstays)).makes
            · exact makes_pure
          · exact makes_pure
        · intro _
          exact abortTransfer_makes _
  · intro _
    exact makes_pure

theorem handle_makes {e : Event} {l : LeaderState} (hsrc : src = some e)
    (he : n.profile.Admits e) (hrole : n.role = .leader l) : Makes src o (handle e) n := by
  have hstays : ¬ e.IsRequest → n.profile.retires = false := he.stays.resolve_left
  have hyield : ∀ t l, e.IsRequest → n.profile.hard.term < t →
      Makes src o (adoptTerm t >>= fun _ => stepDownAndReplay l e) n := fun t l hrequest hlt =>
    stepDownAndReplay_makes hsrc hrequest he.opened (Nat.le_of_lt hlt) fun _ _ => hlt
  unfold handle
  apply takes_get_bind
  cases e with
  | voteRequest r caller =>
    exact takes_ite (fun hlt => hyield _ _ trivial hlt)
      fun _ => takes_get_bind (answerVote_idle caller _).makes
  | appendRequest r caller =>
    exact takes_ite (fun hlt => hyield _ _ trivial hlt)
      fun _ => takes_get_bind (answerAppend_idle caller _).makes
  | timeoutNowRequest r caller =>
    exact takes_ite (fun hlt => hyield _ _ trivial hlt)
      fun _ => (answerTimeoutNow_idle caller false).makes
  | propose r request caller => exact onPropose_makes r request caller he.opened
  | transfer target caller => exact onTransfer_makes hsrc he hrole
  | voteResult peer term r =>
    cases r with
    | ok r => exact takes_ite (fun hlt => stepDown_makes he.opened hlt) fun _ => makes_pure
    | error => exact makes_pure
  | appendResult peer request r =>
    exact onAppendResult_makes peer request r he.opened (hstays fun h => h)
  | timeoutNowResult peer term r =>
    exact onTimeoutNowResult_makes hsrc hrole he.opened (hstays fun h => h)

theorem tick_makes : Makes src o tick n := by
  have hheartbeat : ∀ m : Node, Makes src o (do
      let k ← get
      if k.role.isExpired k.now then
        resetTimer
        replicateToAll k.view.peers) m := by
    intro m
    apply takes_get_bind
    apply takes_ite
    · intro _
      apply (resetTimer_idle m).takes_bind
      intro _ k _
      exact (replicateToAll_calm _).makes
    · intro _
      exact makes_pure
  unfold tick
  apply takes_get_bind
  split
  · apply takes_ite
    · intro _
      exact (abortTransfer_makes _).bind fun _ m _ => hheartbeat m
    · intro _
      exact hheartbeat n
  · exact hheartbeat n

/-- The caller of the transfer is told, and nobody else hears of it. -/
theorem notes_of_farewells (leader : Option NodeId) {l : LeaderState} (hrole : n.role = .leader l) :
    ((redirects n.applier.waiters leader ++ parting leader l).map n.departure).filterMap
      Departure.note? = n.profile.owed (Profile.settlement leader) := by
  have hsilent : ((redirects n.applier.waiters leader).map n.departure).filterMap Departure.note?
      = [] := by
    refine List.filterMap_eq_nil_iff.2 fun d hd => ?_
    obtain ⟨e, he, rfl⟩ := List.mem_map.1 hd
    obtain ⟨w, -, rfl⟩ := List.mem_map.1 he
    rfl
  rw [List.map_append, List.filterMap_append, hsilent, List.nil_append]
  unfold parting Profile.owed
  rw [show n.profile.post.transfer? = l.transfer by
    show n.role.post.transfer? = _
    rw [hrole]
    rfl]
  cases l.transfer with
  | none => rfl
  | some t =>
    dsimp only [Option.bind_some]
    cases t.caller <;> rfl

/-- A leader that steps down has nothing under way any more, and tells its transfer's caller. -/
theorem onStepDown_profile (leader : Option NodeId) {l : LeaderState} (hrole : n.role = .leader l) :
    (onStepDown leader).Ensures n
      (fun _ m => m.role.kind = .leader ∧ m.profile = { n.profile with
        post := .leader none
        notes := n.profile.notes ++ n.profile.owed (Profile.settlement leader) })
      fun _ _ => False := by
  refine (onStepDown_leaves leader hrole).weaken ?_
  rintro _ _ rfl
  refine ⟨rfl, ?_⟩
  rw [← notes_of_farewells leader hrole]
  simp only [profile, List.filterMap_append]
  rfl

end Leader

end Raft.Node
