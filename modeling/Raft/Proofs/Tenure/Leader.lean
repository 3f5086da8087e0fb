import Raft.Proofs.Node.Leader
import Raft.Proofs.Tenure.Roles

/-!
# Deeds of leaders

* `Leader.replicateTo_performs`: a leader sends to a peer whose answer it does not await.
* `Leader.onAppendResult_performs`: it learns from answers, after it stopped awaiting them.
* `Leader.place_performs`, `Leader.onPropose_performs`: it takes commands, and lets their clients
  wait.
* `Leader.onElected_tenures`: what it does first.
* `Leader.onStepDown_tenure`: what it owes when it steps down.
-/

namespace Raft.Node.Leader

variable {src : Option Event} {o : Tenure} {n : Node}

/-! ## Errors -/

theorem transition_ne_of_range {log : Log} {lo hi : Nat} {e : Error}
    (h : log.range lo hi = .error e) : ∀ x, e ≠ .transition x := by
  unfold Log.range at h
  split at h
  · obtain rfl := Except.error.inj h
    exact nofun
  · cases h

theorem transition_ne_of_sum {a b : Nat} {f : Failure Error} (h : sum a b = .error f) :
    ∀ x, f ≠ .error (.transition x) := by
  rw [eq_overflow_of_sum_eq_error h]
  exact nofun

theorem transition_ne_of_appendRequest {log : Log} {self : NodeId} {term next commit limit : Nat}
    {f : Failure Error} (h : LogStore.appendRequest log self term next commit limit = .error f) :
    ∀ x, f ≠ .error (.transition x) := by
  unfold LogStore.appendRequest at h
  rcases of_bind_eq_error h with h | ⟨bound, -, h⟩
  · exact transition_ne_of_sum h
  · dsimp only at h
    split at h
    · rcases of_bind_eq_error h with h | ⟨upper, -, h⟩
      · exact transition_ne_of_sum h
      · rcases of_bind_eq_error h with h | ⟨entries, -, h⟩
        · rintro x rfl
          cases hrange : LogStore.range log (max 1 (min next bound))
              (min (LogStore.lastIndex log) (upper - 1)) with
          | ok es =>
            rw [hrange] at h
            cases h
          | error e =>
            rw [hrange] at h
            exact transition_ne_of_range hrange x (Failure.error.inj (Except.error.inj h))
        · cases h
    · cases h

theorem transition_ne_of_nextAfterConflict {log : Log} {hint : ConflictHint} {prevIndex : Nat}
    {f : Failure Error} (h : LogStore.nextAfterConflict log hint prevIndex = .error f) :
    ∀ x, f ≠ .error (.transition x) := by
  unfold LogStore.nextAfterConflict at h
  dsimp only at h
  split at h
  · split at h
    · rcases of_bind_eq_error h with h | ⟨next, -, h⟩
      · exact transition_ne_of_sum h
      · cases h
    · cases h
  · cases h

theorem transition_ne_of_pendingPlace? {client : String} {sequence : Nat} {e : Error}
    (h : pendingPlace? n client sequence = .error e) : ∀ x, e ≠ .transition x := by
  unfold pendingPlace? at h
  split at h
  · cases hrange : n.log.range (n.applier.lastApplied + 1) n.log.lastIndex with
    | ok es =>
      rw [hrange] at h
      cases h
    | error e' =>
      rw [hrange] at h
      obtain rfl := Except.error.inj h
      exact transition_ne_of_range hrange
  · cases h

/-! ## Replication -/

theorem replicateTo_performs (peer : NodeId) :
    Performs src o (replicateTo peer) n fun _ m =>
      m.tenure.queue = n.tenure.queue ∧ m.tenure.closed = n.tenure.closed := by
  intro hn
  refine (replicateTo_leaves peer n).mono ?_ ?_
  · rintro _ _ (rfl | ⟨l, next, r, hrole, hfree, -, hr, rfl⟩)
    · exact ⟨hn, rfl, rfl⟩
    refine ⟨(hn.step (Deed.send peer r l.progress next n.commit _ (seat_of_leader hrole) hfree
      hr)).of_eq ?_, rfl, rfl⟩
    simp [tenure, Role.seat, LeaderState.progress, departure]
  · rintro f _ ⟨rfl, rfl | ⟨next, hf⟩⟩
    · exact hn.lapses fun _ h => by cases h
    · exact hn.lapses (transition_ne_of_appendRequest hf)

theorem replicateToAll_performs (peers : List NodeId) :
    Performs src o (replicateToAll peers) n fun _ m =>
      m.tenure.queue = n.tenure.queue ∧ m.tenure.closed = n.tenure.closed := by
  induction peers generalizing n with
  | nil => exact Action.keeps_pure ⟨rfl, rfl⟩
  | cons peer rest ih =>
    refine (replicateTo_performs peer).bind fun _ m hm => ?_
    refine (ih (n := m)).weaken fun _ k hk => ?_
    rw [hk.1, hk.2]
    exact hm

theorem commitMajority_performs (h : n.tenure.Free) :
    Performs src o commitMajority n fun _ _ => True := by
  intro hn
  exact ensures_commitMajority ⟨hn, trivial⟩ fun _ i _ _ =>
    (advanceCommit_performs i h).weaken (fun _ _ _ => trivial) hn

/-- A leader sends its peers what they lack, and commits what a majority holds. -/
theorem replicate_commit_performs {peers : List NodeId} (h : n.tenure.Free) :
    Performs src o (do replicateToAll peers; commitMajority) n fun _ _ => True := by
  refine (replicateToAll_performs peers).bind fun _ m hm => commitMajority_performs ?_
  exact ⟨hm.2.trans h.opened, hm.1.trans h.queue⟩

/-! ## Transfers -/

theorem askTarget_performs (peer : NodeId) :
    Performs src o (askTarget peer) n fun _ _ => True := by
  intro hn
  refine (askTarget_leaves peer n).mono_of_sure ?_
  rintro (_ | _) m hm
  · obtain rfl : m = n := hm
    exact ⟨hn, trivial⟩
  · obtain ⟨l, t, hrole, -, -, -, -, rfl⟩ := hm
    have hsaid := hn.step (Deed.say (.send peer (.timeoutNow ⟨n.term, n.id⟩)) trivial)
    refine ⟨hsaid.of_eq ?_, trivial⟩
    simp [tenure, hrole, Role.seat, LeaderState.progress, departure]

theorem abortTransfer_performs (error : NodeId → Error) :
    Performs src o (abortTransfer error) n fun _ m =>
      m.tenure.queue = n.tenure.queue ∧ m.tenure.seat = n.tenure.seat := by
  intro hn
  refine (abortTransfer_leaves error n).mono_of_sure ?_
  rintro _ m (⟨-, rfl⟩ | ⟨l, t, hrole, -, rfl⟩)
  · exact ⟨hn, rfl, rfl⟩
  have hseat : (Role.leader { l with transfer := none }).seat = n.role.seat := by
    rw [hrole]
    rfl
  cases hcaller : t.caller with
  | some caller =>
    have hsaid := hn.step (Deed.say (.answer caller (.transfer (.error (error t.target)))) trivial)
    refine ⟨hsaid.of_eq ?_, rfl, hseat⟩
    simp [tenure, hseat, departure]
  | none =>
    refine ⟨hn.of_eq ?_, rfl, hseat⟩
    simp [tenure, hseat]

theorem stepDown_performs {t : Nat} (h : n.tenure.Free) (hseat : n.tenure.seat ≠ .follower)
    (hlt : n.tenure.hard.term < t) : Performs src o (stepDown t) n fun _ _ => True :=
  (yield_performs h (Nat.le_of_lt hlt) hseat fun _ _ => hlt).weaken fun _ _ _ => trivial

theorem onTransfer_performs {target : NodeId} {caller : Caller} :
    Performs src o (onTransfer target caller) n fun _ _ => True := by
  have hrefuse : ∀ y, Performs src o (answer caller (.transfer y)) n fun _ _ => True :=
    fun y => (answerTransfer_performs caller y).weaken fun _ _ _ => trivial
  unfold onTransfer
  refine Action.keeps_get_bind ?_
  split
  · exact hrefuse _
  · refine Action.keeps_ite (fun _ => hrefuse _) fun _ => ?_
    refine (count_sits _ n).performs_bind fun _ m _ _ => ?_
    refine Sits.performs_bind (modifyLeader_sits fun _ => rfl) fun _ k _ _ => ?_
    refine (askTarget_performs target).bind fun asked j _ => ?_
    refine Action.keeps_ite (fun _ => Action.keeps_pure trivial) fun _ => ?_
    exact (replicateTo_performs target).weaken fun _ _ _ => trivial

theorem onTimeoutNowResult_performs {t : Nat} {r : Except Error TimeoutNowResponse}
    (h : n.tenure.Free) (hseat : n.tenure.seat ≠ .follower) :
    Performs src o (onTimeoutNowResult t r) n fun _ _ => True := by
  unfold onTimeoutNowResult
  refine Action.keeps_get_bind (Action.keeps_ite (fun _ => ?_) fun _ => Action.keeps_pure trivial)
  cases r with
  | error e => exact (abortTransfer_performs _).weaken fun _ _ _ => trivial
  | ok r =>
    refine Action.keeps_ite (fun hlt => stepDown_performs h hseat hlt) fun _ =>
      Action.keeps_ite (fun _ => ?_) fun _ => ?_
    · split
      · split
        · refine Sits.performs_bind (modifyLeader_sits fun _ => rfl) fun _ m _ _ => ?_
          exact (answerTransfer_performs _ _).weaken fun _ _ _ => trivial
        · exact Action.keeps_pure trivial
      · exact Action.keeps_pure trivial
    · exact (abortTransfer_performs _).weaken fun _ _ _ => trivial

/-! ## Answers of followers -/

theorem onMatched_performs {peer : NodeId} {request : AppendMeta} {y : AppendResponse}
    {x : Progress} (hsrc : src = some (.appendResult peer request (.ok y))) (hn : n.tenure = o)
    (hterm : request.term = n.tenure.hard.term) (hyterm : y.term ≤ n.tenure.hard.term)
    (hsuccess : y.success = true) (hseat : n.tenure.seat = .leader x) (h : n.tenure.Free) :
    Performs src o (onMatched peer y.matchIndex) n fun _ _ => True := by
  obtain ⟨l, hrole, rfl⟩ := exists_leader_of_seat hseat
  unfold onMatched
  refine performs_sum_bind ?_
  refine (performs_deed (modifyLeader_tenure hrole)
    (Deed.tally peer request y l.progress hsrc hterm hyterm hsuccess hseat hn)).bind
    fun _ m hm => ?_
  have hm' : m.tenure.Free := by
    rw [hm]
    exact ⟨h.opened, h.queue⟩
  refine (commitMajority_performs hm').bind fun _ k _ => ?_
  refine (askTarget_performs peer).bind fun asked j _ => ?_
  refine Action.keeps_ite (fun _ => Action.keeps_pure trivial) fun _ => Action.keeps_get_bind ?_
  split
  · refine Action.keeps_ite (fun _ => ?_) fun _ => Action.keeps_pure trivial
    exact (replicateTo_performs peer).weaken fun _ _ _ => trivial
  · exact Action.keeps_pure trivial

theorem onConflict_performs {peer : NodeId} {request : AppendMeta} {y : AppendResponse}
    {hint : ConflictHint} {x : Progress}
    (hsrc : src = some (.appendResult peer request (.ok y))) (hn : n.tenure = o)
    (hterm : request.term = n.tenure.hard.term) (hyterm : y.term ≤ n.tenure.hard.term)
    (hsuccess : y.success = false) (hhint : y.conflict = some hint)
    (hseat : n.tenure.seat = .leader x) :
    Performs src o (onConflict peer request.prevIndex hint) n fun _ _ => True := by
  unfold onConflict
  refine (count_sits _ n).performs_bind fun _ m hm _ => Action.keeps_get_bind ?_
  rw [← hm] at hn hterm hyterm hseat
  obtain ⟨l, hrole, rfl⟩ := exists_leader_of_seat hseat
  refine Action.keeps_ofExcept_bind (fun next hnext => ?_) fun f hf hn => ?_
  · refine (performs_deed (modifyLeader_tenure hrole) (Deed.retreat peer request y hint next
      l.progress hsrc hterm hyterm hsuccess hhint hseat hnext hn)).bind fun _ k _ => ?_
    exact (replicateTo_performs peer).weaken fun _ _ _ => trivial
  · exact hn.lapses (transition_ne_of_nextAfterConflict hf)

/-- What a leader makes of the answer to an append request of its term. -/
theorem verdict_performs {peer : NodeId} {request : AppendMeta} {y : AppendResponse}
    {x : Progress} (hsrc : src = some (.appendResult peer request (.ok y))) (hn : n.tenure = o)
    (hterm : request.term = n.tenure.hard.term) (hseat : n.tenure.seat = .leader x)
    (h : n.tenure.Free) :
    Performs src o
      (match Replication.verdict n.tenure.hard.term y with
        | .matched index => onMatched peer index
        | .nothing => pure ⟨⟩
        | .higherTerm term => stepDown term
        | .conflict hint => onConflict peer request.prevIndex hint) n fun _ _ => True := by
  unfold Replication.verdict
  by_cases hlt : n.tenure.hard.term < y.term
  · rw [if_pos hlt]
    exact stepDown_performs h (by rw [hseat]; exact nofun) hlt
  · have hle := Nat.not_lt.1 hlt
    rw [if_neg hlt]
    cases hsuccess : y.success with
    | true => exact onMatched_performs hsrc hn hterm hle hsuccess hseat h
    | false =>
      cases hhint : y.conflict with
      | none => exact Action.keeps_pure trivial
      | some hint => exact onConflict_performs hsrc hn hterm hle hsuccess hhint hseat

/-- The outcome of an append request. A leader no longer awaits the answer before it reads it. -/
theorem onAppendResult_performs {peer : NodeId} {request : AppendMeta}
    {r : Except Error AppendResponse} {x : Progress}
    (hsrc : src = some (.appendResult peer request r)) (hseat : n.tenure.seat = .leader x)
    (h : n.tenure.Free) :
    (onAppendResult peer request r).Ensures n
      (fun _ m => Reached src (n.tenure.receive src) m.tenure)
      fun f m => Lapses src (n.tenure.receive src) f m.tenure := by
  obtain ⟨l, hrole, rfl⟩ := exists_leader_of_seat hseat
  unfold onAppendResult
  refine Action.ensures_get_bind ?_
  split
  · rename_i hterm
    -- the peer is no longer awaited before the answer is looked at
    refine (modifyLeader_tenure hrole).bind_of_sure fun _ m hm => ?_
    have ho : n.tenure.receive src = m.tenure := by
      rw [hm, hsrc]
      unfold Tenure.receive
      rw [hseat]
      exact if_pos hterm
    rw [ho]
    cases r with
    | error e => exact Action.ensures_pure (Reached.refl _)
    | ok y =>
      have hsame : n.term = m.tenure.hard.term := by
        rw [hm]
        rfl
      dsimp only
      rw [hsame]
      refine reaches_of_performs (verdict_performs
        (x := { l.progress with inFlight := l.progress.inFlight.filter (· ≠ peer) })
        hsrc rfl (hterm.trans hsame) ?_ ?_) rfl
      · rw [hm]
        rfl
      · rw [hm]
        exact ⟨h.opened, h.queue⟩
  · rename_i hterm
    -- an answer from another term closes nothing
    have ho : n.tenure.receive src = n.tenure := by
      rw [hsrc]
      unfold Tenure.receive
      rw [hseat]
      exact if_neg hterm
    rw [ho]
    exact Action.ensures_pure (Reached.refl _)

/-! ## Writing -/

/-- An entry is written, or the node stops with a log that may have it. -/
theorem write_ensures {β : Type} {e : Entry} {what : String} {y : Action Node β}
    {Q : β → Node → Prop}
    (hlapses : ∀ f l, f.Stops →
      l.entries = n.log.entries ∨ l.entries = n.log.entries ++ [e] →
      Lapses src o f { n.tenure with log := l })
    (hy : ∀ m l, l.entries = n.log.entries ++ [e] → m.tenure = { n.tenure with log := l } →
      y.Ensures m Q fun f m => Lapses src o f m.tenure) :
    Action.Ensures (do
      match ← tryLog (Log.append [e]) with
      | .error err => Action.fail (Error.persistence what err)
      | .ok () => y) n Q fun f m => Lapses src o f m.tenure := by
  refine Action.Ensures.bind ((tryLog_leaves (Log.append_ensures n.log [e])).mono
    (fun _ _ h => h) ?_) ?_
  · rintro f m ⟨-, -, -, ⟨err, he⟩, -⟩
    cases he
  · rintro (err | ⟨⟩) m ⟨l, w, rfl, hl⟩
    · obtain ⟨-, -, added, hl, hadded, -⟩ := hl
      refine Action.ensures_fail (hlapses _ l (Or.inr ⟨_, rfl, Error.isFatal_persistence _ _⟩) ?_)
      rw [hl]
      exact eq_or_eq_of_written hadded
    · exact hy _ l hl.2.1 rfl

/-! ## Commands of clients -/

/-- The place of a command: that of an entry that is not applied, or that of a new last entry. -/
theorem place_performs {q : ClientRequest} {request : String} {caller : Caller} {x : Progress}
    (hsrc : src = some (.propose q request caller)) (hn : n.tenure = o)
    (hseat : n.tenure.seat = .leader x) (h : n.tenure.Free) :
    Performs src o (place q) n fun id m => ∃ l e, m.tenure = { o with log := l }
      ∧ (e ∈ l.entries.drop o.applied ∨ l.entries = o.log.entries ++ [e])
      ∧ e.isRequestOf q.client q.sequence = true ∧ id = e.id := by
  unfold place
  refine Action.keeps_get_bind (Action.keeps_ofResult_bind (fun found hfound => ?_)
    fun e he hn => hn.lapses fun x hx => transition_ne_of_pendingPlace? he x (Failure.error.inj hx))
  cases found with
  | some id =>
    obtain ⟨e, he, hrequest, hid⟩ := exists_of_pendingPlace? hfound
    refine Action.keeps_pure ⟨n.log, e, by rw [← hn]; rfl, Or.inl ?_, hrequest, hid⟩
    rw [← hn]
    exact he
  | none =>
    refine performs_sum_bind fun hreached => write_ensures ?_ ?_
    · rintro f l hf (hl | hl)
      · exact hreached.lapses_of_stop ⟨rfl, Or.inl rfl, rfl, rfl, rfl, rfl, hl⟩ hf
      · have happended := hreached.step (Deed.append q request caller x l hsrc h.queue hseat hl)
        exact happended.lapses_of_stop (spares_refl _) hf
    · intro m l hl hm
      have hdeed := hreached.step (Deed.append q request caller x l hsrc h.queue hseat hl)
      refine Action.ensures_pure ⟨hdeed.of_eq hm, l, _, by rw [hm, hn], Or.inr ?_,
        isRequestOf_ofCommand (n.log.lastIndex + 1) n.term q, rfl⟩
      rw [hl, ← hn]
      rfl

theorem onPropose_performs {q : ClientRequest} {request : String} {caller : Caller} {x : Progress}
    (hsrc : src = some (.propose q request caller)) (hn : n.tenure = o)
    (hseat : n.tenure.seat = .leader x) (h : n.tenure.Free) :
    Performs src o (onPropose q request caller) n fun _ _ => True := by
  unfold onPropose
  refine Action.keeps_get_bind ?_
  split
  · exact answerClient_performs hsrc hn
  · split
    · exact answerClient_performs hsrc hn
    · exact answerClient_performs hsrc hn
    · refine (place_performs hsrc hn hseat h).bind ?_
      rintro _ m ⟨l, e, hm, hplace, hrequest, rfl⟩
      rw [hn] at hseat h
      have hregister : Deed src o m.tenure { m.tenure with
          waiters := m.tenure.waiters.register e.index ⟨request, e.term, caller⟩ } := by
        rw [hm]
        exact Deed.register (a := { o with log := l }) q request caller e x hsrc h.queue hseat
          hplace hrequest rfl rfl
      refine Action.keeps_modify_bind (fun hm => Reached.step hm hregister)
        (replicate_commit_performs ?_)
      show Tenure.Free { m.tenure with waiters := _ }
      rw [hm]
      exact ⟨h.opened, h.queue⟩

/-! ## Taking the lead -/

/-- A fresh leader that notes where its peers stand and its no-op has the first progress. -/
theorem initialProgress_eq_first {l : LeaderState} (hfresh : l.progress = {})
    (peers : List NodeId) (last : Nat) :
    { (initialProgress peers (last + 1) l).progress with noop := some (last + 1) }
      = Progress.first peers last := by
  obtain ⟨hnext, hmatched, -, hinFlight⟩ := Progress.mk.inj hfresh
  unfold Progress.first initialProgress LeaderState.progress
  rw [hnext, hmatched, hinFlight]

/-- The first steps of a leader, from a candidate that was elected. -/
theorem onElected_tenures {votes : List NodeId} {l : LeaderState} (hrole : n.role = .leader l)
    (hfresh : l.progress = {}) (hn : n.tenure = { o with seat := .leader {} })
    (ho : o.seat = .candidate votes) (h : o.Free) :
    onElected.Ensures n (fun _ m => Reached src o m.tenure) fun f m => Lapses src o f m.tenure := by
  have hstop : ∀ f (b : Tenure), f.Stops → Spares o b → Lapses src o f b :=
    fun f b hf hb => (Reached.refl o).lapses_of_stop hb hf
  unfold onElected
  refine Action.ensures_get_bind (Action.Ensures.bind
    (Action.ensures_ofExcept (Q := fun i m => i = n.log.lastIndex + 1 ∧ n = m) ?_ ?_) ?_)
  · exact fun i hi => ⟨(sum_eq_ok_iff.1 hi).2.symm, rfl⟩
  · intro f hf
    refine hstop f _ (Or.inl (eq_overflow_of_sum_eq_error hf)) ?_
    rw [hn]
    exact ⟨rfl, Or.inl rfl, rfl, rfl, rfl, rfl, rfl⟩
  rintro i _ ⟨rfl, rfl⟩
  refine (modifyLeader_tenure hrole).bind_of_sure fun _ m hm => ?_
  generalize hx : (initialProgress n.view.peers (n.log.lastIndex + 1) l).progress = x at hm
  have hm : m.tenure = { o with seat := .leader x } := by rw [hm, hn]
  have hlog : m.log = o.log := congrArg Tenure.log hm
  have hnlog : n.log = o.log := congrArg Tenure.log hn
  have hterm : n.term = o.hard.term := congrArg (fun a : Tenure => a.hard.term) hn
  have hpeers : n.view.peers = o.peers := congrArg Tenure.peers hn
  -- to lead is one deed, done once the no-op is in the log
  have hlead : ∀ log : Log,
      log.entries = m.log.entries ++ [.noop (n.log.lastIndex + 1) n.term] → Reached src o
        { o with seat := .leader (.first o.peers o.log.lastIndex), log } := by
    intro log hl
    rw [hlog, hnlog, hterm] at hl
    exact (Reached.refl o).step (Deed.lead votes log ho h.queue ho hl)
  refine write_ensures ?_ ?_
  · -- the write failed, but the no-op may be in the log all the same
    rintro f log hf (hl | hl)
    · refine hstop f _ hf ?_
      rw [hm]
      exact ⟨rfl, Or.inl rfl, rfl, rfl, rfl, rfl, by rw [← hlog]; exact hl⟩
    · refine (hlead log hl).lapses_of_stop ?_ hf
      rw [hm]
      exact ⟨rfl, Or.inl rfl, rfl, rfl, rfl, rfl, rfl⟩
  · intro k log hl hk
    rw [hm] at hk
    obtain ⟨l', hrole', hl'⟩ := exists_leader_of_seat (n := k) (x := x) (by rw [hk])
    refine (modifyLeader_tenure hrole').bind_of_sure fun _ k1 hk1 => ?_
    have hfirst : k1.tenure = { o with
        seat := .leader (.first o.peers o.log.lastIndex), log } := by
      have hnoop : ({ l'.progress with noop := some (n.log.lastIndex + 1) } : Progress)
          = .first o.peers o.log.lastIndex := by
        rw [hl', ← hx, ← hnlog, ← hpeers]
        exact initialProgress_eq_first hfresh n.view.peers n.log.lastIndex
      rw [hk1, hk, ← hnoop]
      rfl
    refine Action.Ensures.weaken (Q := fun _ j => Reached src o j.tenure ∧ True) ?_ fun _ _ h => h.1
    refine Sits.ensures_bind (modify_sits rfl) fun _ k2 hk2 _ => ?_
    refine (count_sits _ k2).ensures_bind fun _ k3 hk3 _ => ?_
    refine (resetTimer_sits k3).ensures_bind fun _ k4 hk4 _ => ?_
    have hk4 : k4.tenure = _ := (hk4.trans (hk3.trans hk2)).trans hfirst
    refine (replicate_commit_performs ?_) ((hlead log hl).of_eq hk4)
    rw [hk4]
    exact ⟨h.opened, h.queue⟩

/-! ## The handlers -/

theorem retire_performs {e : Event} {t : Nat} {l : Option NodeId} {x : Progress}
    (hsrc : src = some e) (he : e.IsRequest) (hseat : n.tenure.seat = .leader x)
    (h : n.tenure.Free) (hlt : n.tenure.hard.term < t) :
    Performs src o (adoptTerm t >>= fun _ => stepDownAndReplay l e) n fun _ _ => True :=
  stepDownAndReplay_performs hsrc he h (Nat.le_of_lt hlt) (by rw [hseat]; exact nofun)
    fun _ _ => hlt

/-- A leader handles an event. The outcome of an append request is no longer awaited then. -/
theorem handle_ensures {e : Event} {x : Progress} (hseat : n.tenure.seat = .leader x)
    (h : n.tenure.Free) :
    (handle e).Ensures n (fun _ m => Reached (some e) (n.tenure.receive (some e)) m.tenure)
      fun f m => Lapses (some e) (n.tenure.receive (some e)) f m.tenure := by
  -- only the outcome of an append request closes anything
  have hother : (∀ peer request r, e ≠ .appendResult peer request r) →
      Performs (some e) n.tenure (handle e) n (fun _ _ => True) →
      (handle e).Ensures n (fun _ m => Reached (some e) (n.tenure.receive (some e)) m.tenure)
        fun f m => Lapses (some e) (n.tenure.receive (some e)) f m.tenure := by
    intro he hrun
    rw [Tenure.receive_of_ne he]
    exact reaches_of_performs hrun rfl
  have hfollower : n.tenure.seat ≠ .follower := by
    rw [hseat]
    exact nofun
  cases e with
  | voteRequest r caller =>
    refine hother nofun ?_
    unfold handle
    refine Action.keeps_get_bind
      (Action.keeps_ite (fun hlt => ?_) fun _ => refuseVote_performs caller)
    exact retire_performs rfl trivial hseat h hlt
  | appendRequest r caller =>
    refine hother nofun ?_
    unfold handle
    refine Action.keeps_get_bind
      (Action.keeps_ite (fun hlt => ?_) fun _ => refuseAppend_performs caller)
    exact retire_performs rfl trivial hseat h hlt
  | timeoutNowRequest r caller =>
    refine hother nofun ?_
    unfold handle
    refine Action.keeps_get_bind (Action.keeps_ite (fun hlt => ?_) fun _ => ?_)
    · exact retire_performs rfl trivial hseat h hlt
    · exact (answerTimeoutNow_performs caller false).weaken fun _ _ _ => trivial
  | propose q request caller => exact hother nofun (onPropose_performs rfl rfl hseat h)
  | transfer target caller => exact hother nofun onTransfer_performs
  | voteResult peer term r =>
    refine hother nofun ?_
    unfold handle
    refine Action.keeps_get_bind ?_
    cases r with
    | ok r =>
      exact Action.keeps_ite (fun hlt => stepDown_performs h hfollower hlt)
        fun _ => Action.keeps_pure trivial
    | error e => exact Action.keeps_pure trivial
  | appendResult peer request r => exact onAppendResult_performs rfl hseat h
  | timeoutNowResult peer term r => exact hother nofun (onTimeoutNowResult_performs h hfollower)

theorem tick_performs : Performs src o tick n fun _ _ => True := by
  have hbeat : ∀ m : Node, Performs src o (do
      let n ← get
      if n.role.isExpired n.now then
        resetTimer
        replicateToAll n.view.peers) m fun _ _ => True := by
    intro m
    refine Action.keeps_get_bind (Action.keeps_ite (fun _ => ?_) fun _ => Action.keeps_pure trivial)
    refine (resetTimer_sits m).performs_bind fun _ k _ _ => ?_
    exact (replicateToAll_performs _).weaken fun _ _ _ => trivial
  unfold tick
  refine Action.keeps_get_bind ?_
  split
  · refine Action.keeps_ite (fun _ => ?_) fun _ => hbeat n
    exact (abortTransfer_performs _).bind fun _ m _ => hbeat m
  · exact hbeat n

/-! ## Stepping down -/

/-- What a leader owes when it steps down is answered: every client that waits is sent on. -/
theorem onStepDown_tenure (leader : Option NodeId) {l : LeaderState} (hrole : n.role = .leader l) :
    (onStepDown leader).Ensures n
      (fun _ m => ∃ rest : List Effect, (∀ e ∈ rest, ∃ caller y, e = .answer caller (.transfer y))
        ∧ m.tenure = { n.tenure with
            waiters := n.tenure.waiters.takeAll.2
            said := n.tenure.said ++ redirects n.tenure.waiters leader ++ rest })
      fun _ _ => False := by
  refine (onStepDown_leaves leader hrole).weaken ?_
  rintro _ _ rfl
  refine ⟨parting leader l, fun _ => answer_of_mem_parting, ?_⟩
  simp only [tenure, hrole, map_effect_append, List.append_assoc]
  rfl

end Raft.Node.Leader
