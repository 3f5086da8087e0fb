import Raft.Proofs.Node.Runs

/-!
# What a follower does

A follower enters newer terms, gives its vote, merges what its leader sends, learns what is
committed, and asks itself to start an election.
-/

namespace Raft

/-! ## Deciding -/

theorem Election.mayGrant_iff {r : VoteRequest} {term : Nat} {last : LogId} {vote : Option Vote} :
    mayGrant r term last vote = true ↔ term ≤ r.term
      ∧ (∀ v, vote = some v → v.term = r.term → v.candidate = r.candidate)
      ∧ isRecent last.index last.term r.lastIndex r.lastTerm = true := by
  unfold mayGrant
  cases vote with
  | none => simp
  | some v =>
    have hfree : (v.term != r.term || v.candidate == r.candidate) = true
        ↔ (v.term = r.term → v.candidate = r.candidate) := by
      simp only [Bool.or_eq_true, bne_iff_ne, beq_iff_eq]
      tauto
    simp only [Bool.and_eq_true, decide_eq_true_eq, hfree, Option.some.injEq, forall_eq',
      and_assoc]

/-- A granted vote is that of the request's term, in which nobody else had it, and the candidate's
log is recent; otherwise only the term can change. -/
theorem Election.decide_spec (r : VoteRequest) (h : HardState) (last : LogId) :
    ((decide r h last).granted = true →
      (decide r h last).isEmpty = false
        ∧ (decide r h last).apply h = ⟨r.term, some ⟨r.candidate, r.term⟩⟩
        ∧ h.term ≤ r.term
        ∧ (h.term = r.term →
          ∀ v, h.vote = some v → v.term = r.term → v.candidate = r.candidate)
        ∧ isRecent last.index last.term r.lastIndex r.lastTerm = true)
    ∧ ((decide r h last).granted = false → (decide r h last).isEmpty = false →
      h.term < r.term ∧ (decide r h last).apply h = ⟨r.term, none⟩) := by
  unfold decide Decision.granted Decision.isEmpty Decision.apply
  by_cases hlt : h.term < r.term
  · simp only [hlt, if_true]
    split
    · rename_i hg
      obtain ⟨-, -, hrec⟩ := mayGrant_iff.1 hg
      exact ⟨fun _ => ⟨rfl, rfl, Nat.le_of_lt hlt, fun heq => by omega, hrec⟩, by simp⟩
    · exact ⟨by simp, fun _ _ => ⟨trivial, rfl⟩⟩
  · simp only [hlt, if_false]
    split
    · rename_i hg
      obtain ⟨hle, hfree, hrec⟩ := mayGrant_iff.1 hg
      have heq : h.term = r.term := by omega
      refine ⟨fun _ => ⟨rfl, ?_, hle, fun _ => hfree, hrec⟩, by simp⟩
      rw [← heq]
    · exact ⟨by simp, by simp⟩

/-- Whatever a decision changes, it is of the request's term, which is not an older one. -/
theorem Election.term_apply {r : VoteRequest} {h : HardState} {last : LogId}
    (hempty : (decide r h last).isEmpty = false) :
    h.term ≤ r.term ∧ ((decide r h last).apply h).term = r.term := by
  obtain ⟨hgranted, hrefused⟩ := decide_spec r h last
  cases hg : (decide r h last).granted with
  | true =>
    obtain ⟨-, happly, hle, -⟩ := hgranted hg
    exact ⟨hle, congrArg HardState.term happly⟩
  | false =>
    obtain ⟨hlt, happly⟩ := hrefused hg hempty
    exact ⟨Nat.le_of_lt hlt, congrArg HardState.term happly⟩

/-! ## Handling an append request -/

/-- A log does not hold the position that entries are offered after, and says where to look next. -/
def Rejects (l : Log) (r : AppendRequest) (hint : ConflictHint) : Prop :=
  termAt l.entries r.prevIndex ≠ some r.prevTerm
    ∧ LogStore.conflictHint l r.prevIndex = .ok hint

/-- What a follower finds when it has handled an append request: the request is merged and accepted,
or the position is not in the log. -/
def Replication.Handled (node : NodeId) (r : AppendRequest) (term commit : Nat) (l : Log)
    (out : Outcome) (l' : Log) : Prop :=
  (∃ matched, MergeDone commit r.prevIndex r.prevTerm r.entries l (some matched) l'
      ∧ out = ⟨.accepted node term matched, newCommit? commit matched r.commit⟩)
    ∨ ∃ hint, l' = l ∧ Rejects l r hint ∧ out = ⟨.conflicting node term hint, none⟩

/-- Only a sum that is too large keeps a follower from naming where the logs part. -/
theorem eq_overflow_of_conflictHint {l : Log} {i : Nat} {f : Failure Error}
    (h : LogStore.conflictHint l i = .error f) : f = .overflow := by
  unfold LogStore.conflictHint at h
  split at h
  · cases hs : (sum (LogStore.lastIndex l) 1 : Except (Failure Error) Nat) with
    | ok a =>
      rw [hs] at h
      cases h
    | error g =>
      rw [hs] at h
      obtain rfl := Except.error.inj h
      exact eq_overflow_of_sum_eq_error hs
  · split at h <;> cases h

theorem Replication.handle_ensures (node : NodeId) (r : AppendRequest) (term commit : Nat)
    (l : Log) :
    (handle node r term commit).Ensures l (Handled node r term commit l)
      (MergeFails commit r.prevIndex r.prevTerm r.entries l) := by
  unfold handle
  refine (merge_ensures l r.prevIndex r.prevTerm commit r.entries).bind ?_
  rintro (_ | matched) l' hdone
  · obtain ⟨rfl, hprev⟩ := hdone
    refine Action.ensures_get_bind (Action.Ensures.bind
      (Action.ensures_ofExcept (Q := fun hint l => LogStore.conflictHint l' r.prevIndex = .ok hint
        ∧ l = l') (fun _ h => ⟨h, rfl⟩) ?_) ?_)
    · intro f hf
      refine ⟨Or.inl rfl, fun e he => ?_⟩
      rw [eq_overflow_of_conflictHint hf] at he
      cases he
    · rintro hint l ⟨hhint, rfl⟩
      exact Action.ensures_pure (Or.inr ⟨hint, rfl, ⟨hprev, hhint⟩, rfl⟩)
  · exact Action.ensures_pure (Or.inl ⟨matched, hdone, rfl⟩)

namespace Node.Follower

variable {src : Option Event} {n : Node}

/-! ## Votes -/

/-- A follower that has not voted for another in the request's term can store the vote. -/
theorem moves_grant {o : Outline} {r : VoteRequest} {caller : Caller}
    (hsrc : src = some (.voteRequest r caller)) (hphase : o.phase = .idle)
    (hle : o.hard.term ≤ r.term)
    (hfree : o.hard.term = r.term →
      ∀ v, o.hard.vote = some v → v.term = r.term → v.candidate = r.candidate)
    (hrecent : Election.isRecent o.lastId.index o.lastId.term r.lastIndex r.lastTerm = true) :
    Moves src o (o.store ⟨r.term, some ⟨r.candidate, r.term⟩⟩) := by
  have hgrant : Move src (o.adopt r.term)
      ((o.adopt r.term).store ⟨r.term, some ⟨r.candidate, r.term⟩⟩) := by
    refine Move.grant r caller hsrc hphase (Outline.term_adopt hle).symm ?_ hrecent
    intro v hv hvt
    rcases Nat.lt_or_ge o.hard.term r.term with hlt | hge
    · rw [Outline.adopt_of_lt hlt] at hv
      cases hv
    · rw [Outline.adopt_of_le hge] at hv
      exact hfree (by omega) v hv hvt
  exact (moves_adopt r.term hphase).trans hgrant.moves

/-- Storing the decision on a vote request; a vote that is granted is stored before it is answered. -/
theorem setDecision_does {r : VoteRequest} {caller : Caller} {d : Election.Decision}
    (hsrc : src = some (.voteRequest r caller)) (hphase : n.outline.phase = .idle)
    (hd : Election.decide r n.hard n.log.lastId = d) :
    Does src (if !d.isEmpty then setHard (d.apply n.hard) else pure ⟨⟩) n fun _ m =>
      d.granted = true → m.outline.hard = ⟨r.term, some ⟨r.candidate, r.term⟩⟩ := by
  obtain ⟨hgranted, hrefused⟩ := Election.decide_spec r n.hard n.log.lastId
  rw [hd] at hgranted hrefused
  refine does_ite (fun hempty => ?_) fun hempty => ?_
  · have hempty : d.isEmpty = false := by simpa using hempty
    cases hg : d.granted with
    | true =>
      obtain ⟨-, happly, hle, hfree, hrecent⟩ := hgranted hg
      rw [happly]
      refine (setHard_does (moves_grant hsrc hphase hle hfree hrecent) hle).weaken ?_
      intro _ m hm _
      rw [hm]
      rfl
    | false =>
      obtain ⟨hlt, happly⟩ := hrefused hg hempty
      rw [happly]
      refine (setHard_does (Move.adopt r.term hphase hlt).moves (Nat.le_of_lt hlt)).weaken ?_
      intro _ m hm hc
      cases hc
  · refine does_pure fun hg => ?_
    have := (hgranted hg).1
    simp [this] at hempty

theorem onVoteRequest_does {r : VoteRequest} {caller : Caller}
    (hsrc : src = some (.voteRequest r caller)) (hphase : n.outline.phase = .idle) :
    Does src (onVoteRequest r caller) n fun _ _ => True := by
  unfold onVoteRequest
  refine does_get_bind ?_
  dsimp only
  generalize hd : Election.decide r n.hard n.log.lastId = d
  refine does_ite_bind ((setDecision_does hsrc hphase hd).bind fun _ m hm => ?_)
  refine does_ite_bind ?_
  refine Does.bind (Q := fun _ k => k.outline = m.outline) ?_ fun _ k hk => ?_
  · exact does_ite (fun _ => (resetTimer_quiet m).does.weaken fun _ _ h => h.1)
      fun _ => does_pure rfl
  · refine does_get_bind ((answer_does (utters_vote fun hg => ?_)).weaken fun _ _ _ => trivial)
    have hhard : k.outline.hard = ⟨r.term, some ⟨r.candidate, r.term⟩⟩ := by
      rw [hk]
      exact hm hg
    exact ⟨r, hsrc, congrArg HardState.term hhard, hhard⟩

/-! ## Entries -/

/-- The log after a merge that succeeded or failed is the node's next log. -/
theorem moves_merge {r : AppendRequest} {caller : Caller} {o : Outline} {l : List Entry}
    (hsrc : src = some (.appendRequest r caller)) (hphase : o.phase = .idle)
    (hterm : r.term = o.hard.term)
    (hl : l = o.log ∨ termAt o.log r.prevIndex = some r.prevTerm
      ∧ Merged o.commit o.log r.entries l) : Moves src o { o with log := l } := by
  rcases hl with rfl | ⟨hprev, hl⟩
  · exact Moves.refl o
  · exact (Move.merge r caller l hsrc hphase hterm hprev hl).moves

/-- What follows a merge: the follower learns what is committed of the request, and accepts it. -/
theorem accept_does {r : AppendRequest} {caller : Caller}
    (hsrc : src = some (.appendRequest r caller)) (hstance : n.outline.stance = .follower)
    (hopen : n.outline.closed = false) (hqueue : n.outline.queue = [])
    (hterm : r.term = n.outline.hard.term)
    (hheld : Consecutive r.prevIndex r.entries → r.HeldBy n.outline.log) :
    Does src (do
      match Replication.newCommit? n.commit r.last r.commit with
      | some index => advanceCommit index
      | none => pure ()
      answer caller (.append (.ok (.accepted n.id n.term r.last)))) n fun _ _ => True := by
  have hphase := Outline.phase_of_follower hstance
  have hanswer : ∀ k : Node, k.outline.stance = .follower →
      k.outline.hard = n.outline.hard → k.outline.log = n.outline.log →
      Does src (answer caller (.append (.ok (.accepted n.id n.term r.last)))) k
        fun _ _ => True := by
    intro k hks hkh hkl
    refine (answer_does (utters_append fun _ => ?_)).weaken fun _ _ _ => trivial
    refine ⟨r, hsrc, Outline.phase_of_follower hks, by rw [hkh, hterm], hterm.symm, rfl, ?_⟩
    rwa [hkl]
  unfold Replication.newCommit?
  split
  · rename_i index hindex
    split at hindex
    · rename_i hlt
      obtain rfl := Option.some.inj hindex
      refine (advanceCommit_does hopen hqueue fun _ => ?_).bind fun _ k hk => ?_
      · exact Move.learn r caller _ hsrc hphase hqueue hterm hheld hlt (Nat.le_refl _)
      · -- the commit index that is noted is one that the request covers
        have hadvance : k.outline = { n.outline with
            commit := min r.commit r.last
            queue := [.newCommit (min r.commit r.last)] } := hk.trans (if_pos hlt)
        refine hanswer k ?_ ?_ ?_ <;> rw [hadvance]
        exact hstance
    · cases hindex
  · exact hanswer n hstance rfl rfl

/-- The log ends as the merge leaves it, whether it succeeds or fails. -/
theorem tryHandle_does {r : AppendRequest} {caller : Caller}
    (hsrc : src = some (.appendRequest r caller)) (hphase : n.outline.phase = .idle)
    (hterm : r.term = n.outline.hard.term) :
    Does src (tryLog (Replication.handle n.id r n.term n.commit)) n fun out m =>
      ∃ l w, m = { n with log := l, writeFailed := w } ∧ match out with
        | .ok a => Replication.Handled n.id r n.term n.commit n.log a l
        | .error e => MergeFails n.commit r.prevIndex r.prevTerm r.entries n.log (.error e) l := by
  refine Action.Ensures.weaken (tryLog_does
    (Replication.handle_ensures n.id r n.term n.commit n.log) ?_ ?_) ?_
  · rintro out l (⟨matched, ⟨-, hprev, hl, -⟩, -⟩ | ⟨hint, rfl, -, -⟩)
    · exact moves_merge (l := l.entries) hsrc hphase hterm (Or.inr ⟨hprev, hl⟩)
    · exact Moves.refl _
  · rintro f l ⟨hl, -⟩
    exact moves_merge hsrc hphase hterm hl
  · rintro (e | out) m ⟨l, w, hm, hl⟩
    · exact ⟨l, w, hm, hl⟩
    · exact ⟨l, w, hm, hl⟩

theorem onAppendRequest_does {r : AppendRequest} {caller : Caller}
    (hsrc : src = some (.appendRequest r caller)) (hstance : n.outline.stance = .follower)
    (hopen : n.outline.closed = false) (hqueue : n.outline.queue = [])
    (hterm : n.outline.hard.term ≤ r.term) :
    Does src (onAppendRequest r caller) n fun _ _ => True := by
  unfold onAppendRequest
  refine (adoptTerm_does (Outline.phase_of_follower hstance)).bind fun _ m hm => ?_
  refine (Quiet.does_bind (Q := fun _ _ => True) (quiet_modify rfl trivial) fun _ m1 hm1 _ => ?_)
  refine (resetTimer_quiet m1).does_bind fun _ m2 hm2 _ => ?_
  refine does_get_bind ?_
  have ho : m2.outline = n.outline.adopt r.term := by rw [hm2, hm1, hm]
  have hterm2 : r.term = m2.outline.hard.term := by
    rw [ho]
    exact (Outline.term_adopt hterm).symm
  have hstance2 : m2.outline.stance = .follower := by
    rw [ho]
    exact hstance
  refine (tryHandle_does hsrc (Outline.phase_of_follower hstance2) hterm2).bind ?_
  rintro (e | out) m ⟨l, w, rfl, hl⟩
  · -- the log failed: only a committed entry that is contradicted is answered
    dsimp only
    split
    · rename_i heq
      cases heq
    · rename_i index commit heq
      obtain rfl := Except.error.inj heq
      obtain ⟨rfl, hprev, hcontra⟩ := hl.2 _ rfl
      exact (answer_does (utters_conflict hsrc hterm2 hprev hcontra)).weaken fun _ _ _ => trivial
    · exact does_fail
  · dsimp only
    rcases hl with ⟨matched, ⟨rfl, hprev, hl, hknows⟩, rfl⟩ | ⟨hint, rfl, -, rfl⟩
    · refine accept_does (n := { m2 with log := l, writeFailed := w }) hsrc hstance2 ?_ ?_ hterm2
        fun hc => ?_
      · exact (congrArg Outline.closed ho).trans hopen
      · exact (congrArg Outline.queue ho).trans hqueue
      · exact ⟨hl.termAt_eq hc hprev, hknows hc⟩
    · exact (answer_does (utters_append fun hc => by cases hc)).weaken fun _ _ _ => trivial

/-! ## All events -/

/-- A follower that handles an event with its queue empty makes moves only. -/
theorem handle_does {e : Event} (hsrc : src = some e) (hstance : n.outline.stance = .follower)
    (hopen : n.outline.closed = false) (hqueue : n.outline.queue = []) :
    Does src (handle e) n fun _ _ => True := by
  have hphase := Outline.phase_of_follower hstance
  have hadopt : ∀ t, Does src (adoptTerm t) n fun _ _ => True := fun t =>
    (adoptTerm_does hphase).weaken fun _ _ _ => trivial
  have hoffer : ∀ {α : Type} (termOf : α → Nat) (r : Except Error α),
      Does src (adoptTermOf termOf r) n fun _ _ => True := by
    intro α termOf r
    cases r with
    | ok a => exact hadopt (termOf a)
    | error e => exact does_pure trivial
  unfold handle
  refine does_get_bind ?_
  cases e with
  | voteRequest r caller => exact onVoteRequest_does hsrc hphase
  | appendRequest r caller =>
    refine does_ite (fun _ => ?_) fun hterm => ?_
    · exact refuseAppend_does caller
    · exact onAppendRequest_does hsrc hstance hopen hqueue (Nat.not_lt.1 hterm)
  | timeoutNowRequest r caller =>
    refine does_ite (fun _ => ?_) fun hterm => ?_
    · exact (answerTimeoutNow_does caller false).weaken fun _ _ _ => trivial
    · refine (adoptTerm_does hphase).bind fun _ m hm => ?_
      refine (answerTimeoutNow_does caller true).bind fun _ k hk => ?_
      have hko : k.outline.closed = false ∧ k.outline.queue = [] ∧ k.outline.stance = .follower := by
        have hk' : k.outline.mute = (n.outline.adopt r.term).mute := by rw [hk, hm]
        exact ⟨(congrArg Outline.closed hk').trans hopen, (congrArg Outline.queue hk').trans hqueue,
          (congrArg Outline.stance hk').trans hstance⟩
      refine (emit_does hko.1 (by rw [hko.2.1]) ?_).weaken fun _ _ _ => trivial
      exact (Move.summon hko.2.1 hko.2.2).moves
  | propose r request caller =>
    refine (count_quiet _ n).does_bind fun _ m _ _ => ?_
    exact (answer_does utters_notLeader).weaken fun _ _ _ => trivial
  | transfer target caller => exact (answer_does utters_transfer).weaken fun _ _ _ => trivial
  | voteResult peer term r => exact hoffer _ r
  | appendResult peer request r => exact hoffer _ r
  | timeoutNowResult peer term r => exact hoffer _ r

theorem tick_does (hstance : n.outline.stance = .follower) (hopen : n.outline.closed = false)
    (hqueue : n.outline.queue = []) : Does src tick n fun _ _ => True := by
  unfold tick
  refine does_get_bind (does_ite (fun _ => ?_) fun _ => does_pure trivial)
  refine (resetTimer_quiet n).does_bind fun _ m hm _ => ?_
  rw [← hm] at hstance hopen hqueue
  refine (emit_does hopen (by rw [hqueue]) ?_).weaken fun _ _ _ => trivial
  exact (Move.summon hqueue hstance).moves

end Node.Follower

end Raft
