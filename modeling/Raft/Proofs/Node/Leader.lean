import Raft.Proofs.Node.Runs

/-!
# What a leader does

A leader sends parts of its log, counts how far its peers hold it, commits what a majority holds,
and takes commands that are not in its log yet. It steps down for a newer term.

* `Outline.Leading`: a leader that has nothing in its queue.
-/

namespace Raft

namespace Node

variable {src : Option Event} {n k : Node} {o : Outline}

/-- A leader with an empty queue. -/
structure Outline.Leading (o : Outline) : Prop where
  closed : o.closed = false
  queue : o.queue = []
  stance : ∃ m, o.stance = .leader m

theorem Outline.Leading.phase (h : o.Leading) : o.phase = .leader := by
  obtain ⟨m, hm⟩ := h.stance
  exact phase_of_leader h.queue hm

theorem Outline.Leading.of_mute {o' : Outline} (h : o.Leading) (hm : o'.mute = o.mute) :
    o'.Leading := by
  have hclosed := congrArg Outline.closed hm
  have hqueue := congrArg Outline.queue hm
  have hstance := congrArg Outline.stance hm
  exact ⟨hclosed.trans h.closed, hqueue.trans h.queue, h.stance.imp fun _ h => hstance.trans h⟩

theorem Outline.IsPeer.of_mute {o' : Outline} {p : NodeId} (h : o.IsPeer p)
    (hm : o'.mute = o.mute) : o'.IsPeer p := by
  have hmembers := congrArg Outline.members hm
  have hself := congrArg Outline.self hm
  unfold IsPeer
  rw [show o'.members = o.members from hmembers, show o'.self = o.self from hself]
  exact h

theorem Outline.phase_advance (h : o.queue = []) (i : Nat) : (o.advance i).phase = o.phase := by
  unfold Outline.advance
  split
  · rw [phase_of_queue_nil h]
    rfl
  · rfl

namespace Leader

/-- A leader makes something visible, and changes its bookkeeping alone. -/
theorem moves_speak {l l' : LeaderState} {e : Effect} {m : Node} (hrole : n.role = .leader l)
    (hm : m = { n with role := .leader l', effects := n.effects ++ [n.departure e] })
    (hmatched : l'.matched = l.matched) (he : Utters src n.outline e) :
    Moves src n.outline m.outline ∧ m.outline.mute = n.outline.mute := by
  have ho : m.outline = { n.outline with effects := n.outline.effects ++ [e] } := by
    rw [hm]
    simp [outline, hrole, Role.stance, hmatched, departure]
  rw [ho]
  exact ⟨(Move.utter e he).moves, rfl⟩

/-! ## Replication -/

theorem replicateTo_does {peer : NodeId} (hpeer : n.outline.IsPeer peer)
    (hphase : n.outline.phase = .leader) :
    Does src (replicateTo peer) n fun _ m => m.outline.mute = n.outline.mute := by
  refine (replicateTo_leaves peer n).mono ?_ ?_
  · rintro _ m (rfl | ⟨l, next, r, hrole, -, -, hr, rfl⟩)
    · exact ⟨Moves.refl _, rfl⟩
    · obtain ⟨hterm, hleader, hcommit, hpart⟩ := appendRequest_isPartOf hr
      exact moves_speak hrole rfl rfl (utters_offer hpeer hphase hterm hleader hpart hcommit)
  · rintro f _ ⟨rfl, -⟩
    exact Fails.of_moves (Moves.refl _)

theorem replicateToAll_does (peers : List NodeId) (hpeers : ∀ p ∈ peers, n.outline.IsPeer p)
    (hphase : n.outline.phase = .leader) :
    Does src (replicateToAll peers) n fun _ m => m.outline.mute = n.outline.mute := by
  induction peers generalizing n with
  | nil => exact does_pure rfl
  | cons peer rest ih =>
    refine (replicateTo_does (hpeers peer (List.mem_cons_self ..)) hphase).bind fun _ m hm => ?_
    refine (ih (fun p hp => ?_) ?_).weaken fun _ k hk => hk.trans hm
    · exact (hpeers p (List.mem_cons_of_mem _ hp)).of_mute hm
    · have := congrArg Outline.phase hm
      exact this.trans hphase

theorem commitMajority_does (h : n.outline.Leading) :
    Does src commitMajority n fun _ m => ∃ i, m.outline = n.outline.advance i := by
  refine ensures_commitMajority ⟨Moves.refl _, 0, (if_neg (Nat.not_lt_zero _)).symm⟩
    fun l i hrole hi => ?_
  obtain ⟨hlt, hterm, hmajority⟩ := majority_le_countP_of_majorityIndex hi
  refine (advanceCommit_does h.closed h.queue fun _ => ?_).weaken fun _ m hm => ⟨i, hm⟩
  refine Move.commit i l.matched h.queue ?_ hlt hterm ?_
  · simp only [outline, hrole, Role.stance]
  · rwa [List.length_map] at hmajority

/-- A leader sends its peers what they lack, and commits what a majority holds. -/
theorem replicate_commit_does {peers : List NodeId} (h : n.outline.Leading)
    (hpeers : ∀ p ∈ peers, n.outline.IsPeer p) :
    Does src (do replicateToAll peers; commitMajority) n fun _ _ => True :=
  (replicateToAll_does peers hpeers h.phase).bind fun _ _ hm =>
    (commitMajority_does (h.of_mute hm)).weaken fun _ _ _ => trivial

/-! ## Transfers -/

theorem askTarget_does {peer : NodeId} (hpeer : n.outline.IsPeer peer)
    (hphase : n.outline.phase = .leader) :
    Does src (askTarget peer) n fun _ m => m.outline.mute = n.outline.mute := by
  refine (askTarget_leaves peer n).mono_of_sure ?_
  rintro (_ | _) m hm
  · obtain rfl : m = n := hm
    exact ⟨Moves.refl _, rfl⟩
  · obtain ⟨l, t, hrole, -, -, -, -, rfl⟩ := hm
    exact moves_speak hrole rfl rfl (utters_handOver hpeer hphase)

theorem abortTransfer_does (error : NodeId → Error) :
    Does src (abortTransfer error) n fun _ m => m.outline.mute = n.outline.mute := by
  refine (abortTransfer_leaves error n).mono_of_sure ?_
  rintro _ m (⟨-, rfl⟩ | ⟨l, t, hrole, -, hm⟩)
  · exact ⟨Moves.refl _, rfl⟩
  cases hcaller : t.caller with
  | some caller =>
    rw [hcaller] at hm
    exact moves_speak hrole hm rfl utters_transfer
  | none =>
    rw [hcaller] at hm
    have ho : m.outline = n.outline := by
      rw [hm]
      simp [outline, hrole, Role.stance]
    exact ⟨Moves.of_eq ho, congrArg Outline.mute ho⟩

theorem stepDown_does {t : Nat} (h : n.outline.Leading) :
    Does src (stepDown t) n fun _ _ => True :=
  (yield_does h.closed h.queue).weaken fun _ _ _ => trivial

theorem onTransfer_does {target : NodeId} {caller : Caller} (h : n.outline.Leading) :
    Does src (onTransfer target caller) n fun _ _ => True := by
  unfold onTransfer
  refine does_get_bind ?_
  split
  · exact (answer_does utters_transfer).weaken fun _ _ _ => trivial
  · refine does_ite (fun _ => ?_) fun htarget => ?_
    · exact (answer_does utters_transfer).weaken fun _ _ _ => trivial
    · refine (count_quiet _ n).does_bind fun _ m hm _ => ?_
      refine Quiet.does_bind (modifyLeader_quiet fun _ _ => rfl) fun _ k hk _ => ?_
      have hpeer : n.outline.IsPeer target := by
        rw [not_or, Bool.not_eq_false] at htarget
        refine ⟨?_, htarget.1⟩
        show target ∈ n.view.memberIds
        simpa [ClusterView.contains] using htarget.2
      have ho : k.outline = n.outline := hk.trans hm
      rw [← ho] at hpeer h
      refine (askTarget_does hpeer h.phase).bind fun asked j hj => ?_
      refine does_ite (fun _ => does_pure trivial) fun _ => ?_
      exact (replicateTo_does (hpeer.of_mute hj) (h.of_mute hj).phase).weaken fun _ _ _ => trivial

theorem onTimeoutNowResult_does {t : Nat} {r : Except Error TimeoutNowResponse}
    (h : n.outline.Leading) : Does src (onTimeoutNowResult t r) n fun _ _ => True := by
  unfold onTimeoutNowResult
  refine does_get_bind (does_ite (fun _ => ?_) fun _ => does_pure trivial)
  cases r with
  | error e => exact (abortTransfer_does _).weaken fun _ _ _ => trivial
  | ok r =>
    refine does_ite (fun _ => stepDown_does h) fun _ => does_ite (fun _ => ?_) fun _ => ?_
    · split
      · split
        · refine Quiet.does_bind (modifyLeader_quiet fun _ _ => rfl) fun _ m _ _ => ?_
          exact (answer_does utters_transfer).weaken fun _ _ _ => trivial
        · exact does_pure trivial
      · exact does_pure trivial
    · exact (abortTransfer_does _).weaken fun _ _ _ => trivial

/-! ## Answers of followers -/

theorem onMatched_does {peer : NodeId} {request : AppendMeta} {r : AppendResponse}
    (hsrc : src = some (.appendResult peer request (.ok r)))
    (hrequest : request.term = n.outline.hard.term) (hsuccess : r.success = true)
    (hpeer : n.outline.IsPeer peer) (h : n.outline.Leading) :
    Does src (onMatched peer r.matchIndex) n fun _ _ => True := by
  unfold onMatched
  refine does_ofExcept_bind fun after _ => ?_
  obtain ⟨matched, hstance⟩ := h.stance
  have hstance' : n.role.stance = .leader matched := hstance
  cases hrole : n.role with
  | follower | candidate =>
    rw [hrole] at hstance'
    cases hstance'
  | leader l =>
    rw [hrole] at hstance'
    obtain rfl : l.matched = matched := Stance.leader.inj hstance'
    have htally := (Move.tally peer request r l.matched hsrc hrequest hsuccess hstance).moves
    refine (modifyLeader_does hrole htally).bind fun _ m hm => ?_
    have hm' : m.outline.Leading := by
      rw [hm]
      exact ⟨h.closed, h.queue, _, rfl⟩
    have hpeer' : m.outline.IsPeer peer := by
      rw [hm]
      exact hpeer
    refine (commitMajority_does hm').bind fun _ k ⟨i, hk⟩ => ?_
    have hphase : k.outline.phase = .leader := by
      rw [hk, Outline.phase_advance hm'.queue, hm'.phase]
    have hpeer'' : k.outline.IsPeer peer := by
      rw [hk]
      unfold Outline.advance
      split <;> exact hpeer'
    refine (askTarget_does hpeer'' hphase).bind fun asked j hj => ?_
    refine does_ite (fun _ => does_pure trivial) fun _ => does_get_bind ?_
    split
    · refine does_ite (fun _ => ?_) fun _ => does_pure trivial
      have hphase' := congrArg Outline.phase hj
      exact (replicateTo_does (hpeer''.of_mute hj) (hphase'.trans hphase)).weaken
        fun _ _ _ => trivial
    · exact does_pure trivial

theorem onConflict_does {peer : NodeId} {prevIndex : Nat} {hint : ConflictHint}
    (hpeer : n.outline.IsPeer peer) (h : n.outline.Leading) :
    Does src (onConflict peer prevIndex hint) n fun _ _ => True := by
  unfold onConflict
  refine (count_quiet _ n).does_bind fun _ m hm _ => does_get_bind ?_
  refine does_ofExcept_bind fun next _ => ?_
  refine Quiet.does_bind (modifyLeader_quiet fun _ _ => rfl) fun _ k hk _ => ?_
  rw [← hm, ← hk] at hpeer h
  exact (replicateTo_does hpeer h.phase).weaken fun _ _ _ => trivial

theorem onAppendResult_does {peer : NodeId} {request : AppendMeta}
    {r : Except Error AppendResponse} (hsrc : src = some (.appendResult peer request r))
    (hpeer : n.outline.IsPeer peer) (h : n.outline.Leading) :
    Does src (onAppendResult peer request r) n fun _ _ => True := by
  unfold onAppendResult
  refine does_get_bind (does_ite (fun hrequest => ?_) fun _ => does_pure trivial)
  refine Quiet.does_bind (modifyLeader_quiet fun _ _ => rfl) fun _ m hm _ => ?_
  have hrequest' : request.term = m.outline.hard.term := by
    rw [hm]
    exact hrequest
  rw [← hm] at hpeer h
  cases r with
  | error e => exact does_pure trivial
  | ok r =>
    dsimp only
    unfold Replication.verdict
    split
    · rename_i index hv
      split at hv
      · cases hv
      · split at hv
        · rename_i hsuccess
          obtain rfl := Replication.Verdict.matched.inj hv
          exact onMatched_does hsrc hrequest' hsuccess hpeer h
        · split at hv <;> cases hv
    · exact does_pure trivial
    · exact stepDown_does h
    · exact onConflict_does hpeer h

/-! ## Commands of clients -/

theorem slice_unapplied (n : Node) :
    n.log.slice (n.applier.lastApplied + 1) n.log.lastIndex
      = n.log.entries.drop n.applier.lastApplied := by
  unfold Log.slice Log.lastIndex
  rw [List.take_length, show max (n.applier.lastApplied + 1) 1 - 1 = n.applier.lastApplied by omega]

theorem isRequestOf_eq_false {client : String} {sequence : Nat}
    (h : pendingPlace? n client sequence = .ok none) :
    ∀ e ∈ n.log.entries.drop n.applier.lastApplied, e.isRequestOf client sequence = false := by
  unfold pendingPlace? at h
  split at h
  · unfold Log.range at h
    split at h
    · cases h
    · rw [slice_unapplied] at h
      have h := Except.ok.inj h
      rw [Option.map_eq_none_iff, List.find?_eq_none] at h
      exact fun e he => by simpa using h e he
  · rename_i hlast
    intro e he
    rw [List.drop_of_length_le (Nat.not_lt.1 hlast)] at he
    cases he

/-- The place of a request that is not applied is that of an entry which carries it. -/
theorem exists_of_pendingPlace? {client : String} {sequence : Nat} {id : LogId}
    (h : pendingPlace? n client sequence = .ok (some id)) :
    ∃ e ∈ n.log.entries.drop n.applier.lastApplied,
      e.isRequestOf client sequence = true ∧ id = e.id := by
  unfold pendingPlace? at h
  split at h
  · unfold Log.range at h
    split at h
    · cases h
    · rw [slice_unapplied] at h
      obtain ⟨e, hfound, rfl⟩ := Option.map_eq_some_iff.1 (Except.ok.inj h)
      have hrequest : e.isRequestOf client sequence = true := by
        simpa using List.find?_some hfound
      exact ⟨e, List.mem_of_find?_eq_some hfound, hrequest, rfl⟩
  · cases h

theorem isRequestOf_ofCommand (index term : Nat) (r : ClientRequest) :
    (Entry.ofCommand index term r.toCommand).isRequestOf r.client r.sequence = true := by
  simp [Entry.isRequestOf, Entry.ofCommand, ClientRequest.toCommand]

theorem eq_or_eq_of_written {e : Entry} {l added : List Entry} (h : added <+: [e]) :
    l ++ added = l ∨ l ++ added = l ++ [e] := by
  rcases List.prefix_cons_iff.1 h with rfl | ⟨rest, rfl, hrest⟩
  · exact Or.inl (List.append_nil l)
  · rw [List.prefix_nil.1 hrest]
    exact Or.inr rfl

theorem moves_of_written {e : Entry} {l : Log} {added : List Entry}
    (hmoves : Moves src o { n.outline with log := n.log.entries ++ [e] })
    (hnone : Moves src o n.outline) (hl : l.entries = n.log.entries ++ added)
    (hadded : added <+: [e]) : Moves src o ({ n with log := l } : Node).outline := by
  rw [outline_log, hl]
  rcases eq_or_eq_of_written (l := n.log.entries) hadded with h | h
  · rw [h]
    exact hnone
  · rw [h]
    exact hmoves

theorem place_does {r : ClientRequest} {request : String} {caller : Caller}
    (hsrc : src = some (.propose r request caller)) (h : n.outline.Leading)
    (hcheck : n.outline.applier.sessions.check r.client r.sequence = .new) :
    Does src (place r) n fun id m => ∃ l e, m.outline = { n.outline with log := l } ∧ e ∈ l
      ∧ e.isRequestOf r.client r.sequence = true ∧ id = e.id := by
  obtain ⟨matched, hstance⟩ := h.stance
  unfold place
  refine does_get_bind (does_ofResult_bind fun found hfound => ?_)
  cases found with
  | some id =>
    obtain ⟨e, he, hrequest, hid⟩ := exists_of_pendingPlace? hfound
    exact does_pure ⟨n.outline.log, e, rfl, List.mem_of_mem_drop he, hrequest, hid⟩
  | none =>
    refine does_ofExcept_bind fun index hindex => ?_
    obtain ⟨-, rfl⟩ := sum_eq_ok_iff.1 hindex
    have happend : Moves src n.outline _ := (Move.append r request caller matched hsrc h.queue
      hstance hcheck (isRequestOf_eq_false hfound)).moves
    refine (tryLog_does (Log.append_ensures n.log _) ?_ ?_).bind ?_
    · rintro _ l ⟨hl, -⟩
      exact moves_of_written happend (Moves.refl _) hl List.prefix_rfl
    · rintro f l ⟨-, added, hl, hpre, -⟩
      exact moves_of_written happend (Moves.refl _) hl hpre
    · rintro (e | ⟨⟩) m ⟨l, w, rfl, hl⟩
      · exact does_fail
      · refine does_pure ⟨l.entries, _, rfl, ?_, isRequestOf_ofCommand _ _ r, rfl⟩
        rw [hl.1]
        exact List.mem_append_right _ (List.mem_singleton_self _)

theorem onPropose_does {r : ClientRequest} {request : String} {caller : Caller}
    (hsrc : src = some (.propose r request caller)) (h : n.outline.Leading) :
    Does src (onPropose r request caller) n fun _ _ => True := by
  unfold onPropose
  refine does_get_bind ?_
  split
  · exact (answer_does utters_notLeader).weaken fun _ _ _ => trivial
  · split
    · rename_i c hcheck
      exact (answer_does (utters_committed hsrc hcheck)).weaken fun _ _ _ => trivial
    · exact (answer_does utters_stale).weaken fun _ _ _ => trivial
    · rename_i hcheck
      refine (place_does hsrc h hcheck).bind fun id m ⟨l, e, hm, he, hrequest, hid⟩ => ?_
      rw [hid]
      have hlog : m.outline.log = l := congrArg Outline.log hm
      have hregister := (Move.register (o := m.outline) r request caller e hsrc
        (by rwa [hlog]) hrequest).moves
      refine does_modify_bind hregister ?_
      generalize hk : ({ m with applier := { m.applier with waiters := _ } } : Node) = k
      have ho : k.outline = { m.outline with applier := k.outline.applier } := by
        rw [← hk]
        rfl
      rw [hm] at ho
      have hk' : k.outline.Leading := by
        rw [ho]
        exact ⟨h.closed, h.queue, h.stance⟩
      refine replicate_commit_does hk' fun p hp => ?_
      rw [ho]
      exact mem_peers.1 hp

/-! ## Taking the lead -/

/-- What follows the no-op: the leader replicates it. -/
theorem announce_does {index : Nat} {peers : List NodeId} (h : n.outline.Leading)
    (hpeers : ∀ p ∈ peers, n.outline.IsPeer p) :
    Does src (do
      modifyLeader fun l => { l with noop := some index }
      modify fun n => { n with view := n.view.mark n.id }
      count fun c => { c with leadersElected := c.leadersElected + 1 }
      resetTimer
      replicateToAll peers
      commitMajority) n fun _ _ => True := by
  refine Quiet.does_bind (modifyLeader_quiet fun _ _ => rfl) fun _ m1 hm1 _ => ?_
  refine Quiet.does_bind (Q := fun _ _ => True) (quiet_modify rfl trivial) fun _ m2 hm2 _ => ?_
  refine (count_quiet _ m2).does_bind fun _ m3 hm3 _ => ?_
  refine (resetTimer_quiet m3).does_bind fun _ m4 hm4 _ => ?_
  have ho : m4.outline = n.outline := by rw [hm4, hm3, hm2, hm1]
  rw [← ho] at h hpeers
  exact replicate_commit_does h hpeers

/-- The no-op of a new leader: what comes after it starts from a log that has it. A node that cannot
write it stops with a log that may have it. -/
theorem writeNoop_ensures {y : Action Node Unit}
    (hmoves : Moves src o { n.outline with
      log := n.outline.log ++ [.noop (n.outline.log.length + 1) n.outline.hard.term] })
    (hbreaks : Breaks src o n.outline)
    (hy : ∀ m : Node, m.outline = { n.outline with
      log := n.outline.log ++ [.noop (n.outline.log.length + 1) n.outline.hard.term] } →
      Does src y m fun _ _ => True) :
    Action.Ensures (do
      match ← tryLog (Log.append [.noop (n.log.lastIndex + 1) n.term]) with
      | .error e => Action.fail (Error.persistence "no-op entry" e)
      | .ok () => y) n (fun _ m => Moves src o m.outline) fun f m => Fails src o f m.outline := by
  refine Action.Ensures.bind ((tryLog_leaves (Log.append_ensures n.log _)).mono
    (fun _ _ h => h) ?_) ?_
  · rintro f m ⟨-, -, -, ⟨e, he⟩, -⟩
    cases he
  rintro (e | ⟨⟩) m ⟨log, w, rfl, hlog⟩
  · obtain ⟨-, -, added, hlog, hadded, -⟩ := hlog
    refine Action.ensures_fail
      (Fails.of_breaks ?_ (Or.inr ⟨_, rfl, Error.isFatal_persistence _ _⟩))
    rw [outline_log, hlog]
    rcases eq_or_eq_of_written (l := n.log.entries) hadded with hwritten | hwritten
    · rw [hwritten]
      exact hbreaks
    · rw [hwritten]
      exact hmoves.breaks
  · have ho : ({ n with log, writeFailed := w } : Node).outline = { n.outline with
        log := n.outline.log ++ [.noop (n.outline.log.length + 1) n.outline.hard.term] } := by
      rw [outline_log, hlog.2.1]
      rfl
    exact (Does.after (by rw [ho]; exact hmoves) (hy _ ho)).weaken fun _ _ h => h.1

/-- The first steps of a leader, from a candidate that was elected. -/
theorem onElected_ensures {l : LeaderState} (hrole : n.role = .leader l) (hl : l.matched = [])
    (hopen : n.outline.closed = false) (hqueue : n.outline.queue = [])
    (hmoves : Moves src o
      { n.outline with
        stance := .leader (n.view.peers.foldl (fun m p => m.put p 0) [])
        log := n.outline.log ++ [.noop (n.outline.log.length + 1) n.outline.hard.term] })
    (hbreaks : ∀ s, Breaks src o { n.outline with stance := s }) :
    onElected.Ensures n (fun _ m => Moves src o m.outline)
      fun f m => Fails src o f m.outline := by
  unfold onElected
  refine Action.ensures_get_bind (Action.Ensures.bind
    (Action.ensures_ofExcept (Q := fun i m => i = n.log.lastIndex + 1 ∧ n = m) ?_ ?_) ?_)
  · exact fun i hi => ⟨(sum_eq_ok_iff.1 hi).2.symm, rfl⟩
  · intro f hf
    exact Fails.of_breaks (hbreaks n.outline.stance) (Or.inl (eq_overflow_of_sum_eq_error hf))
  rintro i _ ⟨rfl, rfl⟩
  refine (modifyLeader_leaves hrole).bind_of_sure ?_
  rintro _ m rfl
  have hmatched : (initialProgress n.view.peers (n.log.lastIndex + 1) l).matched
      = n.view.peers.foldl (fun m p => PeerMap.put p 0 m) [] := by
    rw [← hl]
    rfl
  generalize initialProgress n.view.peers (n.log.lastIndex + 1) l = l' at hmatched
  rw [← hmatched] at hmoves
  refine writeNoop_ensures (n := { n with role := .leader l' }) hmoves (hbreaks _) fun m hm => ?_
  refine announce_does ?_ fun p hp => ?_
  · rw [hm]
    exact ⟨hopen, hqueue, _, rfl⟩
  · rw [hm]
    exact mem_peers.1 hp

/-! ## Events and ticks -/

theorem handle_does {e : Event} (hsrc : src = some e) (hexpects : n.outline.Expects e)
    (h : n.outline.Leading) : Does src (handle e) n fun _ _ => True := by
  unfold handle
  refine does_get_bind ?_
  cases e with
  | voteRequest r caller =>
    exact does_ite (fun _ => stepDownAndReplay_does hsrc h.closed h.queue) fun _ =>
      refuseVote_does caller
  | appendRequest r caller =>
    exact does_ite (fun _ => stepDownAndReplay_does hsrc h.closed h.queue) fun _ =>
      refuseAppend_does caller
  | timeoutNowRequest r caller =>
    exact does_ite (fun _ => stepDownAndReplay_does hsrc h.closed h.queue) fun _ =>
      (answerTimeoutNow_does caller false).weaken fun _ _ _ => trivial
  | propose r request caller => exact onPropose_does hsrc h
  | transfer target caller => exact onTransfer_does h
  | voteResult peer term r =>
    cases r with
    | ok r => exact does_ite (fun _ => stepDown_does h) fun _ => does_pure trivial
    | error e => exact does_pure trivial
  | appendResult peer request r => exact onAppendResult_does hsrc hexpects h
  | timeoutNowResult peer term r => exact onTimeoutNowResult_does h

theorem tick_does (h : n.outline.Leading) : Does src tick n fun _ _ => True := by
  have hheartbeat : ∀ m : Node, m.outline.Leading → Does src (do
      let k ← get
      if k.role.isExpired k.now then
        resetTimer
        replicateToAll k.view.peers) m fun _ _ => True := by
    intro m hm
    refine does_get_bind (does_ite (fun _ => ?_) fun _ => does_pure trivial)
    refine (resetTimer_quiet m).does_bind fun _ k hk _ => ?_
    rw [← hk] at hm
    refine (replicateToAll_does m.view.peers (fun p hp => ?_) hm.phase).weaken fun _ _ _ => trivial
    rw [hk]
    exact mem_peers.1 hp
  unfold tick
  refine does_get_bind ?_
  split
  · refine does_ite (fun _ => ?_) fun _ => hheartbeat n h
    exact (abortTransfer_does _).bind fun _ m hm => hheartbeat m (h.of_mute hm)
  · exact hheartbeat n h

/-! ## Stepping down -/

/-- A leader that steps down lets its clients wait no longer, and only answers them. -/
theorem onStepDown_ensures (leader : Option NodeId) {l : LeaderState} (hrole : n.role = .leader l) :
    (onStepDown leader).Ensures n
      (fun _ m => m.role.kind = .leader ∧ ∃ es w, (∀ e ∈ es, ∀ src o, Utters src o e)
        ∧ (∀ i x, w.Has i x → n.applier.waiters.Has i x)
        ∧ m.outline = { n.outline with
            effects := n.outline.effects ++ es
            applier := { n.outline.applier with waiters := w } })
      fun _ _ => False := by
  refine (onStepDown_leaves leader hrole).weaken ?_
  rintro _ _ rfl
  refine ⟨rfl, redirects n.applier.waiters leader ++ parting leader l, n.applier.waiters.takeAll.2,
    ?_, fun _ _ => Waiters.has_takeAll, ?_⟩
  · intro e he src o
    rcases List.mem_append.1 he with he | he
    · obtain ⟨w, -, rfl⟩ := List.mem_map.1 he
      exact utters_notLeader
    · obtain ⟨c, x, rfl⟩ := answer_of_mem_parting he
      exact utters_transfer
  · simp only [outline, hrole, map_effect_append]
    rfl

end Leader

end Node

end Raft
