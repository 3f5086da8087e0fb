import Raft.Proofs.Log.Append

/-!
# Followers take over what they are sent

What a follower does with an append request depends on three things: whether its log has the
position, which entries of the request it lacks, and what it has committed. Handling the request
once more finds everything in place.

* `run_handle_of_absent`, `run_handle_of_match`, `run_handle_of_error`: from a merge to the answer.
* `exists_appendRequest`: what a leader sends is a part of its log.
* `MergeSpec`: what the merge of the request does to the log.
* `HandleSpec`: what the follower answers, and what it learns is committed.
* `follower_append` is the result, for every lawful store in which nothing is made to fail.
-/

namespace Raft

open LawfulStore (Holds faults)

/-- The commit index of a follower that has handled a request. -/
def Replication.commitAfter (commit : Nat) (r : Except (Failure Error) Outcome) : Nat :=
  match r with
  | .ok out => out.commit.getD commit
  | .error _ => commit

/-- What a follower answers when the merge of a request ends so. -/
def Replication.answerTo (node : NodeId) (q : AppendRequest) (term commit : Nat)
    (hint : ConflictHint) : Except (Failure Error) (Option Nat) → Except (Failure Error) Outcome
  | .ok none => .ok ⟨.conflicting node term hint, none⟩
  | .ok (some m) => .ok ⟨.accepted node term m, newCommit? commit m q.commit⟩
  | .error f => .error f

section Spec

variable {σ : Type} [LogStore σ] [LawfulStore σ]

/-- How the merge of a request into a store with the entries `l` ends, where `commit` entries are
committed and nothing is made to fail. -/
structure MergeSpec (s : σ) (l : List Entry) (q : AppendRequest) (commit : Nat)
    (r : EStateM.Result (Failure Error) σ (Option Nat)) : Prop where
  /-- There is no match exactly if the log does not have the request's position. -/
  absent_iff : Action.outcome r = .ok none ↔ termAt l q.prevIndex ≠ some q.prevTerm
  /-- Otherwise, a conflict is reported exactly if the first index of the request that holds an entry
  of another term is committed. -/
  refused_iff : ∀ i c, Action.outcome r = .error (.error (.replication (.committedConflict i c)))
    ↔ termAt l q.prevIndex = some q.prevTerm ∧ IsLeast (q.clashes l) i ∧ i ≤ commit ∧ c = commit
  /-- In both cases the log stays as it was. -/
  unchanged : (∀ m, Action.outcome r ≠ .ok (some m)) → Action.state r = s
  /-- In all others, the result is the last index that the request covers. -/
  covered_iff : ∀ m, Action.outcome r = .ok (some m)
    ↔ termAt l q.prevIndex = some q.prevTerm ∧ (∀ i, IsLeast (q.clashes l) i → commit < i)
      ∧ m = q.last
  /-- A log that has every entry of the request stays as it was. -/
  present : Action.outcome r = .ok (some q.last) → (∀ e ∈ q.entries, Knows l e) →
    Action.state r = s
  /-- Another one keeps what is before the first index where an entry is missing or has another
  term, and goes on with the rest of the request. -/
  written : Action.outcome r = .ok (some q.last) → ∀ i, IsLeast (q.gaps l) i →
    Holds (Action.state r) (l.take (i - 1) ++ q.entries.drop (i - (q.prevIndex + 1)))
  /-- What is committed stays. -/
  committed : ∃ l', Holds (Action.state r) l' ∧ l'.take commit = l.take commit

/-- How a follower handles a request, when its merge ends as `r`. -/
structure HandleSpec (s : σ) (q : AppendRequest) (node : NodeId) (term commit : Nat)
    (r : EStateM.Result (Failure Error) σ (Option Nat)) : Prop where
  /-- The request is accepted or rejected as it is merged, and a rejection carries the hint for the
  request's position; an error of the merge stays one. -/
  answered : ∃ hint, LogStore.conflictHint s q.prevIndex = .ok hint
    ∧ Action.outcome ((Replication.handle node q term commit).run s)
      = Replication.answerTo node q term commit hint (Action.outcome r)
  state_eq : Action.state ((Replication.handle node q term commit).run s) = Action.state r
  /-- The commit index is raised, if it is, but not beyond the leader's and the request's end. -/
  raised : ∀ out i, Action.outcome ((Replication.handle node q term commit).run s) = .ok out →
    out.commit = some i → commit < i ∧ i ≤ min q.commit (q.prevIndex + q.entries.length)
  /-- The same request once more gets the same answer, and changes nothing. -/
  again :
    let first := (Replication.handle node q term commit).run s
    let second := (Replication.handle node q term
      (Replication.commitAfter commit (Action.outcome first))).run (Action.state first)
    Action.state second = Action.state first
      ∧ (Action.outcome second).map Replication.Outcome.response
        = (Action.outcome first).map Replication.Outcome.response

end Spec

variable {σ : Type} [LogStore σ] {s t : σ} {l : List Entry} {q : AppendRequest} {node : NodeId}
  {term commit i : Nat}

/-! ## From a merge to the answer -/

theorem run_handle_of_absent {hint : ConflictHint}
    (hmerge : (LogStore.merge q.prevIndex q.prevTerm q.entries commit).run s = .ok none s)
    (hhint : LogStore.conflictHint s q.prevIndex = .ok hint) :
    (Replication.handle node q term commit).run s
      = .ok ⟨.conflicting node term hint, none⟩ s := by
  unfold Replication.handle
  rw [EStateM.run_bind, hmerge]
  show ((Action.ofExcept (LogStore.conflictHint s q.prevIndex) : Action σ ConflictHint)
    >>= fun hint => pure (⟨.conflicting node term hint, none⟩ : Replication.Outcome)).run s = _
  rw [hhint]
  rfl

theorem run_handle_of_match {m : Nat}
    (hmerge : (LogStore.merge q.prevIndex q.prevTerm q.entries commit).run s = .ok (some m) t) :
    (Replication.handle node q term commit).run s
      = .ok ⟨.accepted node term m, Replication.newCommit? commit m q.commit⟩ t := by
  unfold Replication.handle
  rw [EStateM.run_bind, hmerge]
  rfl

theorem run_handle_of_error {f : Failure Error}
    (hmerge : (LogStore.merge q.prevIndex q.prevTerm q.entries commit).run s = .error f t) :
    (Replication.handle node q term commit).run s = .error f t := by
  unfold Replication.handle
  rw [EStateM.run_bind, hmerge]

/-- A follower accepts a request whose position its log has, and gives a hint for any other. -/
theorem run_handle_cases {out : Replication.Outcome}
    (h : (Replication.handle node q term commit).run s = .ok out t) :
    (∃ m, LogStore.prevTerm? s q.prevIndex = some q.prevTerm
        ∧ (LogStore.merge q.prevIndex q.prevTerm q.entries commit).run s = .ok (some m) t
        ∧ out = ⟨.accepted node term m, Replication.newCommit? commit m q.commit⟩)
      ∨ ∃ hint, LogStore.prevTerm? s q.prevIndex ≠ some q.prevTerm
        ∧ LogStore.conflictHint s q.prevIndex = .ok hint ∧ t = s
        ∧ out = ⟨.conflicting node term hint, none⟩ := by
  by_cases hprev : LogStore.prevTerm? s q.prevIndex = some q.prevTerm
  · left
    cases hmerge : (LogStore.merge q.prevIndex q.prevTerm q.entries commit).run s with
    | error f u =>
      rw [run_handle_of_error hmerge] at h
      cases h
    | ok r u =>
      obtain ⟨m, rfl⟩ := (merge_ensures_isSome hprev).ok hmerge
      rw [run_handle_of_match hmerge] at h
      cases h
      exact ⟨m, hprev, rfl, rfl⟩
  · right
    cases hhint : LogStore.conflictHint s q.prevIndex with
    | error f =>
      -- without a hint there is no answer
      unfold Replication.handle at h
      rw [EStateM.run_bind, run_merge_of_absent hprev] at h
      change ((Action.ofExcept (LogStore.conflictHint s q.prevIndex) : Action σ ConflictHint)
        >>= fun hint => pure (⟨.conflicting node term hint, none⟩ : Replication.Outcome)).run s
          = _ at h
      rw [hhint] at h
      cases h
    | ok hint =>
      rw [run_handle_of_absent (run_merge_of_absent hprev) hhint] at h
      cases h
      exact ⟨hint, hprev, rfl, rfl, rfl⟩

theorem bounds_of_newCommit? {own matched leader : Nat}
    (h : Replication.newCommit? own matched leader = some i) :
    own < i ∧ i ≤ min leader matched := by
  unfold Replication.newCommit? at h
  split at h
  · rename_i hlt
    obtain rfl := Option.some.inj h
    exact ⟨hlt, Nat.le_refl _⟩
  · cases h

theorem Replication.verdict_conflicting {hint : ConflictHint} :
    Replication.verdict term (.conflicting node term hint) = .conflict hint := by
  simp [Replication.verdict, AppendResponse.conflicting]

theorem Replication.verdict_accepted {m : Nat} :
    Replication.verdict term (.accepted node term m) = .matched m := by
  simp [Replication.verdict, AppendResponse.accepted]

/-- There is a hint to give if there is an index after the last one. -/
theorem exists_conflictHint_of_lt (h : LogStore.lastIndex s + 1 < wordSize) (i : Nat) :
    ∃ hint, LogStore.conflictHint s i = .ok hint := by
  have hsum : sum (ε := Error) (LogStore.lastIndex s) 1 = .ok (LogStore.lastIndex s + 1) :=
    sum_eq_ok_iff.2 ⟨h, rfl⟩
  unfold LogStore.conflictHint
  rw [hsum]
  split
  · exact ⟨_, rfl⟩
  · split <;> exact ⟨_, rfl⟩

/-- A leader goes on from some index if there is one after the last entry of every term, and that
index is not behind the rejected position. -/
theorem exists_nextAfterConflict_of_lt
    (h : ∀ t last, LogStore.lastIndexOf? s t = some last → last + 1 < wordSize)
    (hint : ConflictHint) (hi : 0 < i) :
    ∃ next, LogStore.nextAfterConflict s hint i = .ok next ∧ next ≤ i := by
  have hbound : ∀ next, max 1 (min next (max 1 i)) ≤ i := by omega
  unfold LogStore.nextAfterConflict
  cases hint.term with
  | none => exact ⟨_, rfl, hbound _⟩
  | some t =>
    dsimp only
    cases hlast : LogStore.lastIndexOf? s t with
    | none => exact ⟨_, rfl, hbound _⟩
    | some last =>
      have hsum : sum (ε := Error) last 1 = .ok (last + 1) :=
        sum_eq_ok_iff.2 ⟨h t last hlast, rfl⟩
      dsimp only
      rw [hsum]
      exact ⟨_, rfl, hbound _⟩

variable [LawfulStore σ]

theorem exists_conflictHint (hs : Holds s l) (i : Nat) :
    ∃ hint, LogStore.conflictHint s i = .ok hint := by
  refine exists_conflictHint_of_lt ?_ i
  have hroom := LawfulStore.room hs
  rw [LawfulStore.lastIndex_eq hs]
  unfold maxWord at hroom
  omega

/-! ## What a leader sends -/

section Request

variable {leader : NodeId} {next limit : Nat}

/-- A request is checked before the index that is sent next, or at the leader's last index. -/
theorem position_of_appendRequest (hs : Holds s l)
    (hq : LogStore.appendRequest s leader term next commit limit = .ok q) :
    q.prevIndex = min (next - 1) l.length ∧ termAt l q.prevIndex = some q.prevTerm := by
  have hroom := LawfulStore.room hs
  have hword := maxWord_lt_wordSize
  unfold LogStore.appendRequest at hq
  obtain ⟨bound, hbound, hq⟩ := exists_of_bind_eq_ok hq
  obtain ⟨-, rfl⟩ := sum_eq_ok_iff.1 hbound
  rw [LawfulStore.lastIndex_eq hs] at hq
  dsimp only at hq
  generalize hfirst : max 1 (min next (l.length + 1)) = first at hq
  obtain ⟨t, ht⟩ := exists_termAt (l := l) (i := first - 1) (by omega)
  -- the position is the same whether entries are sent or not
  obtain ⟨hindex, hterm⟩ : first - 1 = q.prevIndex
      ∧ (LogStore.prevTerm? s (first - 1)).getD 0 = q.prevTerm := by
    split at hq
    · obtain ⟨upper, -, hq⟩ := exists_of_bind_eq_ok hq
      obtain ⟨entries, -, hq⟩ := exists_of_bind_eq_ok hq
      obtain rfl := Except.ok.inj hq
      exact ⟨rfl, rfl⟩
    · obtain rfl := Except.ok.inj hq
      exact ⟨rfl, rfl⟩
  rw [← hindex, ← hterm]
  refine ⟨by omega, ?_⟩
  rw [LawfulStore.prevTerm?_eq hs (by omega), ht]
  rfl

/-- A leader whose log can be read always has a request to send. It brings at least the entry after
its position, if there is one. -/
theorem exists_appendRequest (hs : Holds s l) (hread : (faults s).read = false)
    (hlimit : l.length + max 1 limit < wordSize) (leader : NodeId) (term next commit : Nat) :
    ∃ q, LogStore.appendRequest s leader term next commit limit = .ok q ∧ q.IsPartOf l
      ∧ min l.length (q.prevIndex + 1) ≤ q.last := by
  have hroom := LawfulStore.room hs
  have hword := maxWord_lt_wordSize
  have hbound : sum (ε := Error) l.length 1 = .ok (l.length + 1) :=
    sum_eq_ok_iff.2 ⟨by omega, rfl⟩
  suffices h : ∃ q, LogStore.appendRequest s leader term next commit limit = .ok q
      ∧ q.entries <+: l.drop q.prevIndex ∧ min l.length (q.prevIndex + 1) ≤ q.last by
    obtain ⟨q, hq, hentries, hfar⟩ := h
    exact ⟨q, hq, ⟨(position_of_appendRequest hs hq).2, hentries⟩, hfar⟩
  unfold LogStore.appendRequest
  dsimp only
  rw [LawfulStore.lastIndex_eq hs, hbound]
  dsimp only [bind, Except.bind]
  generalize hfirst : max 1 (min next (l.length + 1)) = first
  by_cases hmore : first ≤ l.length
  · have hsum : sum (ε := Error) first (max 1 limit) = .ok (first + max 1 limit) :=
      sum_eq_ok_iff.2 ⟨by omega, rfl⟩
    rw [if_pos hmore, hsum]
    dsimp only
    rw [LawfulStore.range_eq hs hread (by omega) (by omega)]
    refine ⟨_, rfl, ?_, ?_⟩
    · dsimp only
      rw [List.drop_take, show max first 1 - 1 = first - 1 by omega]
      exact List.take_prefix _ _
    · -- at least the entry at `first` is sent
      unfold AppendRequest.last
      dsimp only
      rw [List.length_drop, List.length_take]
      omega
  · rw [if_neg hmore]
    refine ⟨_, rfl, List.nil_prefix, ?_⟩
    unfold AppendRequest.last
    dsimp only
    omega

theorem wellFormed_of_isPartOf (hs : Holds s l) (hfits : ∀ e ∈ l, e.Fits) (hpart : q.IsPartOf l) :
    q.WellFormed := by
  have hroom := LawfulStore.room hs
  have hword := maxWord_lt_wordSize
  have hplace := LawfulStore.positioned hs
  have hprev := le_length_of_termAt hpart.prev
  have hmem : ∀ e ∈ q.entries, e ∈ l := fun e he =>
    List.mem_of_mem_drop (hpart.entries.subset he)
  exact
    { consecutive := consecutive_of_isPartOf hpart hplace
      prevIndex := by omega
      fits := fun e he => hfits e (hmem e he)
      room := fun e he => by
        obtain ⟨i, hi⟩ := exists_entryAt_of_mem (hmem e he)
        rw [hplace i e hi]
        exact Nat.lt_of_le_of_lt (le_length_of_entryAt hi).2 hroom }

end Request

/-! ## The merge -/

/-- With the first gap behind the committed part, what is written leaves that part. -/
theorem take_writtenAt (hq : q.WellFormed) (hprev : termAt l q.prevIndex = some q.prevTerm)
    (hgap : IsLeast (q.gaps l) i) (hclash : ∀ k ∈ q.clashes l, commit < k)
    (hcommit : commit ≤ l.length) : (q.writtenAt l i).take commit = l.take commit :=
  (merged_writtenAt hq.consecutive (le_length_of_termAt hprev) hgap hclash).1.take_eq hcommit

theorem mergeSpec_of_absent (hs : Holds s l) (hprev : termAt l q.prevIndex ≠ some q.prevTerm) :
    MergeSpec s l q commit (.ok none s) where
  absent_iff := iff_of_true rfl hprev
  refused_iff _ _ := iff_of_false (by simp [Action.outcome]) fun h => hprev h.1
  unchanged _ := rfl
  covered_iff _ := iff_of_false (by simp [Action.outcome]) fun h => hprev h.1
  present _ _ := rfl
  written h := by simp [Action.outcome] at h
  committed := ⟨l, hs, rfl⟩

theorem mergeSpec_of_present (hs : Holds s l) (hprev : termAt l q.prevIndex = some q.prevTerm)
    (hgaps : q.gaps l = ∅) : MergeSpec s l q commit (.ok (some q.last) s) := by
  have hnone : ∀ i, ¬ i ∈ q.gaps l := by simp [hgaps]
  have hclash : ∀ i, ¬ IsLeast (q.clashes l) i := fun i h => hnone i (clashes_subset_gaps h.1)
  exact
    { absent_iff := iff_of_false (by simp [Action.outcome]) fun h => h hprev
      refused_iff := fun i _ => iff_of_false (by simp [Action.outcome]) fun h => hclash i h.2.1
      unchanged := fun _ => rfl
      covered_iff := fun m => by simp [Action.outcome, hprev, hclash, eq_comm]
      present := fun _ _ => rfl
      written := fun _ i hgap => absurd hgap.1 (hnone i)
      committed := ⟨l, hs, rfl⟩ }

theorem mergeSpec_of_refused (hs : Holds s l) (hprev : termAt l q.prevIndex = some q.prevTerm)
    (hclash : IsLeast (q.clashes l) i) (hle : i ≤ commit) :
    MergeSpec s l q commit
      (.error (.error (.replication (.committedConflict i commit))) s) where
  absent_iff := iff_of_false (by simp [Action.outcome]) fun h => h hprev
  refused_iff j c := by
    constructor
    · rintro ⟨⟩
      exact ⟨hprev, hclash, hle, rfl⟩
    · rintro ⟨-, h, -, rfl⟩
      rw [hclash.unique h]
      rfl
  unchanged _ := rfl
  covered_iff m := iff_of_false (by simp [Action.outcome]) fun h =>
    Nat.not_lt.2 hle (h.2.1 i hclash)
  present h := by simp [Action.outcome] at h
  written h := by simp [Action.outcome] at h
  committed := ⟨l, hs, rfl⟩

theorem mergeSpec_of_written (hq : q.WellFormed) (hcommit : commit ≤ l.length)
    (hprev : termAt l q.prevIndex = some q.prevTerm) (hgap : IsLeast (q.gaps l) i)
    (hclash : ∀ k ∈ q.clashes l, commit < k) (ht : Holds t (q.writtenAt l i)) :
    MergeSpec s l q commit (.ok (some q.last) t) where
  absent_iff := iff_of_false (by simp [Action.outcome]) fun h => h hprev
  refused_iff k _ := iff_of_false (by simp [Action.outcome]) fun h =>
    Nat.not_lt.2 h.2.2.1 (hclash k h.2.1.1)
  unchanged h := absurd rfl (h q.last)
  covered_iff m := by simpa [Action.outcome, hprev, eq_comm] using fun _ k hk => hclash k hk.1
  present _ hall := by
    -- something is missing, so not every entry can be there
    rw [gaps_eq_empty_iff.2 hall] at hgap
    exact hgap.1.elim
  written _ j hj := by
    rw [← hgap.unique hj]
    exact ht
  committed := ⟨_, ht, take_writtenAt hq hprev hgap hclash hcommit⟩

theorem merge_spec (hs : Holds s l) (hfaults : faults s = {}) (hq : q.WellFormed)
    (hcommit : commit ≤ l.length) :
    MergeSpec s l q commit
      ((LogStore.merge q.prevIndex q.prevTerm q.entries commit).run s) := by
  have hends := run_merge hs hq commit
  generalize (LogStore.merge q.prevIndex q.prevTerm q.entries commit).run s = r at hends ⊢
  cases hends with
  | absent hprev => exact mergeSpec_of_absent hs hprev
  | present hprev hgaps => exact mergeSpec_of_present hs hprev hgaps
  | refused hprev hclash hle => exact mergeSpec_of_refused hs hprev hclash hle
  | uncut _ _ _ hfault | cut _ _ _ hfault | unextended _ _ _ hfault =>
    -- nothing is made to fail
    rw [hfaults] at hfault
    cases hfault
  | written hprev hgap hclash hs' => exact mergeSpec_of_written hq hcommit hprev hgap hclash hs'

/-! ## The answer -/

theorem handle_again (hs : Holds s l) (hq : q.WellFormed)
    (hprev : termAt l q.prevIndex = some q.prevTerm) (hgaps : q.gaps l = ∅) (commit : Nat) :
    (Replication.handle node q term commit).run s
      = .ok ⟨.accepted node term q.last, Replication.newCommit? commit q.last q.commit⟩ s :=
  run_handle_of_match (run_merge_of_present hs hq hprev hgaps)

/-- A request that is accepted, and found in place when it comes again. -/
theorem handleSpec_of_match (hs : Holds s l) (hq : q.WellFormed) {l' : List Entry}
    (hmerge : (LogStore.merge q.prevIndex q.prevTerm q.entries commit).run s
      = .ok (some q.last) t)
    (ht : Holds t l') (hprev : termAt l' q.prevIndex = some q.prevTerm)
    (hgaps : q.gaps l' = ∅) : HandleSpec s q node term commit (.ok (some q.last) t) := by
  have hrun : (Replication.handle node q term commit).run s = _ := run_handle_of_match hmerge
  obtain ⟨hint, hhint⟩ := exists_conflictHint hs q.prevIndex
  exact
    { answered := ⟨hint, hhint, by rw [hrun]; rfl⟩
      state_eq := by rw [hrun]; rfl
      raised := fun out i hout hi => by
        rw [hrun] at hout
        obtain rfl := Except.ok.inj hout
        exact bounds_of_newCommit? hi
      again := by
        rw [hrun]
        dsimp only [Action.state]
        rw [handle_again ht hq hprev hgaps]
        exact ⟨rfl, rfl⟩ }

omit [LawfulStore σ] in
theorem handleSpec_of_idle {r : EStateM.Result (Failure Error) σ (Option Nat)}
    {x : EStateM.Result (Failure Error) σ Replication.Outcome}
    (hrun : (Replication.handle node q term commit).run s = x)
    (hanswer : ∃ hint, LogStore.conflictHint s q.prevIndex = .ok hint
      ∧ Action.outcome x = Replication.answerTo node q term commit hint (Action.outcome r))
    (hx : Action.state x = s) (hr : Action.state r = s)
    (hidle : ∀ out, Action.outcome x = .ok out → out.commit = none) :
    HandleSpec s q node term commit r where
  answered := by rwa [hrun]
  state_eq := by rw [hrun, hx, hr]
  raised out i hout hi := by
    rw [hrun] at hout
    rw [hidle out hout] at hi
    cases hi
  again := by
    -- the commit index is not raised, so that the second run starts like the first
    have hsame : Replication.commitAfter commit (Action.outcome x) = commit := by
      unfold Replication.commitAfter
      split
      · rename_i out hout
        rw [hidle out hout]
        rfl
      · rfl
    dsimp only
    rw [hrun, hx, hsame, hrun]
    exact ⟨hx, rfl⟩

theorem handle_spec (hs : Holds s l) (hfaults : faults s = {}) (hq : q.WellFormed)
    (node : NodeId) (term commit : Nat) :
    HandleSpec s q node term commit
      ((LogStore.merge q.prevIndex q.prevTerm q.entries commit).run s) := by
  obtain ⟨hint, hhint⟩ := exists_conflictHint hs q.prevIndex
  have hends := run_merge hs hq commit
  generalize hmerge : (LogStore.merge q.prevIndex q.prevTerm q.entries commit).run s = r
    at hends ⊢
  cases hends with
  | absent hprev =>
    refine handleSpec_of_idle (run_handle_of_absent hmerge hhint) ⟨hint, hhint, rfl⟩ rfl rfl ?_
    rintro _ ⟨⟩
    rfl
  | refused =>
    refine handleSpec_of_idle (run_handle_of_error hmerge) ⟨hint, hhint, rfl⟩ rfl rfl ?_
    rintro _ ⟨⟩
  | uncut _ _ _ hfault | cut _ _ _ hfault | unextended _ _ _ hfault =>
    rw [hfaults] at hfault
    cases hfault
  | present hprev hgaps => exact handleSpec_of_match hs hq hmerge hs hprev hgaps
  | written hprev hgap hclash hs' =>
    obtain ⟨hthere, hnone⟩ := present_writtenAt hq hprev hgap hclash
    exact handleSpec_of_match hs hq hmerge hs' hthere hnone

/-- **Append requests.** For every store that holds a list of entries, every request and every
commit index that the log reaches, the merge of the request ends as `MergeSpec` says, and the
follower handles the request as `HandleSpec` says. -/
theorem follower_append (hs : Holds s l) (hfaults : faults s = {}) (hq : q.WellFormed)
    (hcommit : commit ≤ l.length) (node : NodeId) (term : Nat) :
    MergeSpec s l q commit ((LogStore.merge q.prevIndex q.prevTerm q.entries commit).run s)
      ∧ HandleSpec s q node term commit
        ((LogStore.merge q.prevIndex q.prevTerm q.entries commit).run s) :=
  ⟨merge_spec hs hfaults hq hcommit, handle_spec hs hfaults hq node term commit⟩

/-- Entries of a leader that was replaced. -/
def lapsed : List Entry :=
  [.noop 1 1, .noop 2 1, .noop 3 2, .ofCommand 4 2 ⟨"a", 1, [7]⟩, .noop 5 2]

def lapsedStore : KeyedLog := { tree := ({} : Tree).insertAll (stored lapsed), last := 5 }

/-- A request of the next leader. One of its entries is known, the next one contradicts the log. -/
def correction : AppendRequest where
  term := 3
  leader := 1
  prevIndex := 2
  prevTerm := 1
  entries := [.noop 3 2, .noop 4 3]
  commit := 9

theorem holds_lapsed : Holds lapsedStore lapsed :=
  mirrors_empty.append (by decide) (by decide +kernel) (by decide)

theorem wellFormed_correction : correction.WellFormed where
  consecutive := by decide
  prevIndex := by decide
  fits := by decide
  room := by decide

theorem follower_append_of_correction :
    Holds lapsedStore lapsed ∧ LawfulStore.faults lapsedStore = {} ∧ correction.WellFormed
      ∧ 3 ≤ lapsed.length
      ∧ MergeSpec lapsedStore lapsed correction 3
        ((LogStore.merge 2 1 correction.entries 3).run lapsedStore)
      ∧ HandleSpec lapsedStore correction 2 3 3
        ((LogStore.merge 2 1 correction.entries 3).run lapsedStore) :=
  ⟨holds_lapsed, rfl, wellFormed_correction, by decide,
    follower_append holds_lapsed rfl wellFormed_correction (by decide) 2 3⟩

end Raft
