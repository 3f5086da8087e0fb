import Raft.Proofs.Replication
import Raft.Proofs.Node.Acts
import Raft.Proofs.Node.PeerMap

/-!
# A leader and one of its followers

A leader brings a follower in line by requests and answers alone. What moves is the follower, and
the index that the leader sends next: an acceptance moves it up behind what the follower holds now,
a rejection moves it down to where the hint leads.

* `Supplier` is the leader's side, `Pursuit` is what moves.
* `Pursuit.round s`: a request, its answer, and what the leader makes of it. `round_of_match` and
  `rejects_iff` are its two outcomes.
* `Pursuit.Rejections s c n c'`: so many rounds are rejected, one after the other.
  `exists_rejections` finds the end of them.
* `Node.supplier n peer`: a node as the leader of a peer. It sends the request of a round
  (`Node.Leader.replicateTo_requests`), and the answer moves it as the round does
  (`Node.Leader.onAppendResult_rounds`).
-/

namespace Raft

/-- A leader that brings a peer in line: what its requests are made of. -/
structure Supplier (σ : Type) where
  log : σ
  leader : NodeId
  peer : NodeId
  term : Nat
  commit : Nat
  limit : Nat

/-- A follower on its way: its log and its commit index, and the index the leader sends next. -/
structure Pursuit (τ : Type) where
  log : τ
  commit : Nat
  next : Nat

namespace Supplier

variable {σ : Type} [LogStore σ]

def request (s : Supplier σ) (next : Nat) : Except (Failure Error) AppendRequest :=
  LogStore.appendRequest s.log s.leader s.term next s.commit s.limit

/-- What the leader makes of an answer: where it goes on, and the match index, if one is
reported. -/
def digest (s : Supplier σ) (next prevIndex : Nat) (r : AppendResponse) :
    Except (Failure Error) (Nat × Option Nat) :=
  match Replication.verdict s.term r with
  | .matched index => (sum index 1).map fun beyond => (max next beyond, some index)
  | .conflict hint => (LogStore.nextAfterConflict s.log hint prevIndex).map fun next => (next, none)
  | .nothing | .higherTerm _ => .ok (next, none)

theorem digest_accepted {s : Supplier σ} {next prevIndex m : Nat} {node : NodeId} :
    s.digest next prevIndex (.accepted node s.term m)
      = (sum m 1).map fun beyond => (max next beyond, some m) := by
  unfold digest
  rw [Replication.verdict_accepted]

theorem digest_conflicting {s : Supplier σ} {next prevIndex : Nat} {node : NodeId}
    {hint : ConflictHint} : s.digest next prevIndex (.conflicting node s.term hint)
      = (LogStore.nextAfterConflict s.log hint prevIndex).map fun next => (next, none) := by
  unfold digest
  rw [Replication.verdict_conflicting]

end Supplier

namespace Pursuit

variable {σ τ : Type} [LogStore σ] [LogStore τ] {s : Supplier σ} {c c' : Pursuit τ}
  {q : AppendRequest}

/-- The position of the next request in a log of some length. -/
def position (c : Pursuit τ) (length : Nat) : Nat := min (c.next - 1) length

/-- A request, its answer, and what the leader makes of it. -/
def round (s : Supplier σ) (c : Pursuit τ) : Except (Failure Error) (Pursuit τ × Option Nat) := do
  let request ← s.request c.next
  match (Replication.handle s.peer request s.term c.commit).run c.log with
  | .ok out log =>
    (s.digest c.next request.prevIndex out.response).map fun (next, reported) =>
      (⟨log, out.commit.getD c.commit, next⟩, reported)
  | .error f _ => throw f

/-- A round after which the leader knows of no match: the request was rejected. -/
def Rejects (s : Supplier σ) (c c' : Pursuit τ) : Prop := c.round s = .ok (c', none)

/-- A round that reports all of its request as matched. -/
def Accepts (s : Supplier σ) (c : Pursuit τ) : Prop :=
  ∃ q c', s.request c.next = .ok q ∧ c.round s = .ok (c', some q.last)

/-- So many rounds are rejected, one after the other. -/
inductive Rejections (s : Supplier σ) : Pursuit τ → Nat → Pursuit τ → Prop
  | none {c : Pursuit τ} : Rejections s c 0 c
  | more {c c' c'' : Pursuit τ} {n : Nat} (h : c.Rejects s c') (hrest : Rejections s c' n c'') :
      Rejections s c (n + 1) c''

def rounds (s : Supplier σ) : Nat → Pursuit τ → Except (Failure Error) (Pursuit τ)
  | 0, c => .ok c
  | n + 1, c => do
    let (c, _) ← c.round s
    c.rounds s n

theorem rounds_add (s : Supplier σ) (m n : Nat) (c : Pursuit τ) :
    c.rounds s (m + n) = c.rounds s m >>= fun c' => c'.rounds s n := by
  induction m generalizing c with
  | zero => rw [Nat.zero_add]; rfl
  | succ m ih =>
    rw [Nat.succ_add, rounds, rounds]
    cases c.round s with
    | ok r => exact ih r.1
    | error f => rfl

/-! ## One round -/

theorem round_eq {out : Replication.Outcome} {log : τ} (hrequest : s.request c.next = .ok q)
    (hrun : (Replication.handle s.peer q s.term c.commit).run c.log = .ok out log) :
    c.round s = (s.digest c.next q.prevIndex out.response).map fun x =>
      (⟨log, out.commit.getD c.commit, x.1⟩, x.2) := by
  unfold round
  rw [hrequest]
  dsimp only [bind, Except.bind]
  rw [hrun]

theorem round_of_match {log : τ} {m : Nat} (hrequest : s.request c.next = .ok q)
    (hmerge : (LogStore.merge q.prevIndex q.prevTerm q.entries c.commit).run c.log
      = .ok (some m) log) (hsum : m + 1 < wordSize) :
    c.round s = .ok (⟨log, (Replication.newCommit? c.commit m q.commit).getD c.commit,
      max c.next (m + 1)⟩, some m) := by
  have hbeyond : sum (ε := Error) m 1 = .ok (m + 1) := sum_eq_ok_iff.2 ⟨hsum, rfl⟩
  rw [round_eq hrequest (run_handle_of_match hmerge), Supplier.digest_accepted, hbeyond]
  rfl

/-- A round is rejected exactly if the follower does not have the leader's term at the position of
the request. Nothing but the index that is sent next changes. -/
theorem rejects_iff : c.Rejects s c' ↔ ∃ q hint next, s.request c.next = .ok q
    ∧ LogStore.prevTerm? c.log q.prevIndex ≠ some q.prevTerm
    ∧ LogStore.conflictHint c.log q.prevIndex = .ok hint
    ∧ LogStore.nextAfterConflict s.log hint q.prevIndex = .ok next ∧ c' = { c with next } := by
  constructor
  · intro h
    obtain ⟨q, hrequest, h⟩ := exists_of_bind_eq_ok h
    cases hrun : (Replication.handle s.peer q s.term c.commit).run c.log with
    | error f log =>
      rw [hrun] at h
      cases h
    | ok out log =>
      rw [hrun] at h
      rcases run_handle_cases hrun with ⟨m, -, -, rfl⟩ | ⟨hint, hprev, hhint, rfl, rfl⟩
      · -- what is accepted is reported
        dsimp only at h
        rw [Supplier.digest_accepted] at h
        cases hsum : sum (ε := Error) m 1 with
        | error f =>
          rw [hsum] at h
          cases h
        | ok beyond =>
          rw [hsum] at h
          cases h
      · dsimp only at h
        rw [Supplier.digest_conflicting] at h
        cases hnext : LogStore.nextAfterConflict s.log hint q.prevIndex with
        | error f =>
          rw [hnext] at h
          cases h
        | ok next =>
          rw [hnext] at h
          cases h
          exact ⟨q, hint, next, hrequest, hprev, hhint, hnext, rfl⟩
  · rintro ⟨q, hint, next, hrequest, hprev, hhint, hnext, rfl⟩
    unfold Rejects
    rw [round_eq hrequest (run_handle_of_absent (run_merge_of_absent hprev) hhint),
      Supplier.digest_conflicting, hnext]
    rfl

/-! ## Several rounds -/

theorem Rejections.rounds_eq {n : Nat} (h : c.Rejections s n c') : c.rounds s n = .ok c' := by
  induction h with
  | none => rfl
  | more hreject hrest ih =>
    rw [rounds, hreject]
    exact ih

/-- Rejections that move a position down come to an end where there is nothing to reject. -/
theorem exists_rejections {I M : Pursuit τ → Prop} (position : Pursuit τ → Nat)
    (hstep : ∀ c, I c → ¬ M c → ∃ c', c.Rejects s c' ∧ I c' ∧ position c' < position c)
    (h : I c) : ∃ n c', n ≤ position c ∧ c.Rejections s n c' ∧ I c' ∧ M c' := by
  induction hdepth : position c using Nat.strongRecOn generalizing c with
  | ind depth ih =>
    by_cases hmeets : M c
    · exact ⟨0, c, Nat.zero_le _, .none, h, hmeets⟩
    · obtain ⟨c₁, hreject, hc₁, hlt⟩ := hstep c h hmeets
      obtain ⟨n, c', hn, hrest, hc'⟩ := ih _ (hdepth ▸ hlt) hc₁ rfl
      exact ⟨n + 1, c', by omega, .more hreject hrest, hc'⟩

end Pursuit

/-! ## The handlers of a leader -/

namespace Node

/-- A node as the leader of a peer. -/
def supplier (n : Node) (peer : NodeId) : Supplier Log where
  log := n.log
  leader := n.id
  peer := peer
  term := n.term
  commit := n.commit
  limit := n.settings.consensus.replication.limit

/-- The node leads, sends a peer the entries from an index on, and counts it for a match index. -/
def Paces (n : Node) (peer : NodeId) (next matched : Nat) : Prop :=
  ∃ l, n.role = .leader l ∧ l.next.lookup peer = some next
    ∧ (l.matched.lookup peer).getD 0 = matched

namespace Leader

variable {n : Node} {peer : NodeId} {next matched : Nat}

/-- What a leader sends a peer is the request of a round. -/
theorem replicateTo_requests (h : n.Paces peer next matched) :
    (replicateTo peer).Ensures n
      (fun _ m => m.Paces peer next matched
        ∧ (m = n ∨ ∃ r, (n.supplier peer).request next = .ok r
          ∧ m.effects = n.effects ++ [n.departure (.send peer (.append r))]))
      fun _ m => m.Paces peer next matched := by
  refine (replicateTo_leaves peer n).mono ?_ ?_
  · rintro _ m (rfl | ⟨l, next', r, hrole, -, hnext', hr, rfl⟩)
    · exact ⟨h, Or.inl rfl⟩
    · obtain ⟨l', hrole', hnext, hmatched⟩ := h
      obtain rfl := Role.leader.inj (hrole.symm.trans hrole')
      obtain rfl : next' = next := by
        rcases hnext' with hsome | ⟨hnone, -⟩
        · exact Option.some.inj (hsome.symm.trans hnext)
        · cases hnone.symm.trans hnext
      exact ⟨⟨_, rfl, hnext, hmatched⟩, Or.inr ⟨r, hr, rfl⟩⟩
  · rintro f m ⟨rfl, -⟩
    exact h

theorem commitMajority_paces (h : n.Paces peer next matched) :
    commitMajority.Ensures n (fun _ m => m.Paces peer next matched)
      fun _ m => m.Paces peer next matched := by
  refine ensures_commitMajority h fun l i _ _ => (advanceCommit_leaves i n).mono ?_ ?_
  · rintro _ m (⟨-, rfl⟩ | ⟨-, -, rfl⟩) <;> exact h
  · rintro f m ⟨-, -, -, rfl⟩
    exact h

theorem askTarget_paces (h : n.Paces peer next matched) (target : NodeId) :
    (askTarget target).Ensures n (fun _ m => m.Paces peer next matched) fun _ _ => False := by
  refine (askTarget_leaves target n).mono ?_ fun _ _ hf => hf
  rintro (_ | _) m hm
  · obtain rfl : m = n := hm
    exact h
  · obtain ⟨l, t, hrole, -, -, -, -, rfl⟩ := hm
    obtain ⟨l', hrole', hbooks⟩ := h
    obtain rfl := Role.leader.inj (hrole.symm.trans hrole')
    exact ⟨_, rfl, hbooks⟩

theorem stepDown_paces (h : n.Paces peer next matched) (t : Nat) :
    (stepDown t).Ensures n (fun _ m => m.Paces peer next matched)
      fun _ m => m.Paces peer next matched := by
  have hadopt : (adoptTerm t).Ensures n (fun _ m => m.Paces peer next matched)
      fun _ m => m.Paces peer next matched := by
    refine (adoptTerm_leaves t n).mono ?_ ?_
    · rintro _ m (⟨-, rfl⟩ | ⟨-, savesLeft, rfl⟩) <;> exact h
    · rintro f m ⟨-, -, rfl⟩
      exact h
  refine hadopt.bind fun _ m hm => (emit_leaves (.becomeFollower none) m).mono ?_ ?_
  · rintro _ k ⟨-, rfl⟩
    exact hm
  · rintro f k ⟨-, -, rfl⟩
    exact hm

/-- A match is noted before anything else is done. -/
theorem onMatched_paces (h : n.Paces peer next matched) (i : Nat) :
    (onMatched peer i).Ensures n
      (fun _ m => ∃ beyond, sum (ε := Error) i 1 = .ok beyond
        ∧ m.Paces peer (max next beyond) (max matched i))
      fun f m => sum i 1 = .error f ∨ ∃ beyond, sum (ε := Error) i 1 = .ok beyond
        ∧ m.Paces peer (max next beyond) (max matched i) := by
  obtain ⟨l, hrole, hnext, hmatched⟩ := h
  unfold onMatched
  refine Action.Ensures.bind (Action.ensures_ofExcept
    (Q := fun beyond m => sum (ε := Error) i 1 = .ok beyond ∧ m = n)
    (fun beyond hbeyond => ⟨hbeyond, rfl⟩) fun f hf => Or.inl hf) ?_
  rintro beyond _ ⟨hbeyond, rfl⟩
  refine (modifyLeader_leaves hrole).bind_of_sure ?_
  rintro _ m rfl
  refine Action.Ensures.mono (Q := fun _ m => m.Paces peer (max next beyond) (max matched i))
    (E := fun _ m => m.Paces peer (max next beyond) (max matched i)) ?_
    (fun _ _ hm => ⟨beyond, hbeyond, hm⟩) fun f m hm => Or.inr ⟨beyond, hbeyond, hm⟩
  -- nothing that follows changes what is noted
  refine Action.Ensures.bind (commitMajority_paces ⟨_, rfl, ?_, ?_⟩) fun _ k hk => ?_
  · rw [PeerMap.lookup_put, if_pos rfl, hnext]
    rfl
  · rw [PeerMap.lookup_put, if_pos rfl, hmatched]
    rfl
  refine (askTarget_paces hk peer).bind_of_sure fun asked j hj => ?_
  split
  · exact Action.ensures_pure hj
  · refine Action.ensures_get_bind ?_
    split
    · split
      · exact (replicateTo_requests hj).weaken fun _ _ hm => hm.1
      · exact Action.ensures_pure hj
    · exact Action.ensures_pure hj

theorem onConflict_paces (h : n.Paces peer next matched) (prevIndex : Nat) (hint : ConflictHint) :
    (onConflict peer prevIndex hint).Ensures n
      (fun _ m => ∃ next', LogStore.nextAfterConflict n.log hint prevIndex = .ok next'
        ∧ m.Paces peer next' matched)
      fun f m => LogStore.nextAfterConflict n.log hint prevIndex = .error f
        ∨ ∃ next', LogStore.nextAfterConflict n.log hint prevIndex = .ok next'
          ∧ m.Paces peer next' matched := by
  obtain ⟨l, hrole, -, hmatched⟩ := h
  unfold onConflict
  refine Action.ensures_modify_bind (Action.ensures_get_bind ?_)
  refine Action.Ensures.bind (Action.ensures_ofExcept
    (Q := fun next' m => LogStore.nextAfterConflict n.log hint prevIndex = .ok next'
      ∧ m.role = n.role) (fun next' hnext' => ⟨hnext', rfl⟩) fun f hf => Or.inl hf) ?_
  rintro next' m ⟨hnext', hm⟩
  refine (modifyLeader_leaves (hm.trans hrole)).bind_of_sure ?_
  rintro _ k rfl
  refine (replicateTo_requests ⟨{ l with next := l.next.put peer next' }, rfl, ?_, hmatched⟩).mono
    (fun _ _ hk => ⟨next', hnext', hk.1⟩) fun f _ hk => Or.inr ⟨next', hnext', hk⟩
  rw [PeerMap.lookup_put, if_pos rfl]

/-- What a leader notes of an answer is what a round makes of it. It has noted that before anything
fails but the computation of it. -/
theorem onAppendResult_digests {request : AppendMeta} {r : AppendResponse}
    (h : n.Paces peer next matched) (hterm : request.term = n.term) :
    (onAppendResult peer request (.ok r)).Ensures n
      (fun _ m => ∃ next' reported,
        (n.supplier peer).digest next request.prevIndex r = .ok (next', reported)
          ∧ m.Paces peer next' (reported.elim matched (max matched)))
      fun f m => (n.supplier peer).digest next request.prevIndex r = .error f
        ∨ ∃ next' reported,
          (n.supplier peer).digest next request.prevIndex r = .ok (next', reported)
            ∧ m.Paces peer next' (reported.elim matched (max matched)) := by
  unfold onAppendResult Supplier.digest
  refine Action.ensures_get_bind ?_
  rw [if_pos hterm]
  obtain ⟨l, hrole, hbooks⟩ := h
  -- from here on the answer is awaited no longer; the two indexes are as they were
  refine (modifyLeader_leaves hrole).bind_of_sure ?_
  rintro _ m rfl
  have hstays : Node.Paces { n with role := .leader { l with
      inFlight := l.inFlight.filter (· ≠ peer) } } peer next matched :=
    ⟨{ l with inFlight := l.inFlight.filter (· ≠ peer) }, rfl, hbooks⟩
  have hsame : (n.supplier peer).term = n.term := rfl
  dsimp only
  rw [hsame]
  cases Replication.verdict n.term r with
  | matched index =>
    refine (onMatched_paces hstays index).mono ?_ ?_
    · rintro _ k ⟨beyond, hbeyond, hk⟩
      exact ⟨_, _, congrArg (Except.map _) hbeyond, hk⟩
    · rintro f k (hf | ⟨beyond, hbeyond, hk⟩)
      · exact Or.inl (congrArg (Except.map _) hf)
      · exact Or.inr ⟨_, _, congrArg (Except.map _) hbeyond, hk⟩
  | nothing => exact Action.ensures_pure ⟨_, _, rfl, hstays⟩
  | higherTerm t =>
    exact (stepDown_paces hstays t).mono (fun _ _ hk => ⟨_, _, rfl, hk⟩)
      fun _ _ hk => Or.inr ⟨_, _, rfl, hk⟩
  | conflict hint =>
    refine (onConflict_paces hstays request.prevIndex hint).mono ?_ ?_
    · rintro _ k ⟨next', hnext', hk⟩
      exact ⟨_, _, congrArg (Except.map _) hnext', hk⟩
    · rintro f k (hf | ⟨next', hnext', hk⟩)
      · exact Or.inl (congrArg (Except.map _) hf)
      · exact Or.inr ⟨_, _, congrArg (Except.map _) hnext', hk⟩

/-- **A round of a node.** Whatever a follower makes of the request that the node sends, the answer
moves the two indexes of the follower as the round does. -/
theorem onAppendResult_rounds {τ : Type} [LogStore τ] {c : Pursuit τ} {q : AppendRequest}
    {out : Replication.Outcome} {log : τ} (h : n.Paces peer c.next matched)
    (hrequest : (n.supplier peer).request c.next = .ok q)
    (hrun : (Replication.handle peer q n.term c.commit).run c.log = .ok out log) :
    (onAppendResult peer q.meta (.ok out.response)).Ensures n
      (fun _ m => ∃ c' reported, c.round (n.supplier peer) = .ok (c', reported)
        ∧ m.Paces peer c'.next (reported.elim matched (max matched)))
      fun f m => c.round (n.supplier peer) = .error f
        ∨ ∃ c' reported, c.round (n.supplier peer) = .ok (c', reported)
          ∧ m.Paces peer c'.next (reported.elim matched (max matched)) := by
  have hround := Pursuit.round_eq hrequest hrun
  have hterm : q.meta.term = n.term := (appendRequest_isPartOf hrequest).1
  have hmoves : ∀ {m : Node} {next' : Nat} {reported : Option Nat},
      (n.supplier peer).digest c.next q.prevIndex out.response = .ok (next', reported) →
      m.Paces peer next' (reported.elim matched (max matched)) →
      ∃ c' reported, c.round (n.supplier peer) = .ok (c', reported)
        ∧ m.Paces peer c'.next (reported.elim matched (max matched)) := by
    intro m next' reported hdigest hm
    rw [hdigest] at hround
    exact ⟨_, _, hround, hm⟩
  refine (onAppendResult_digests h hterm).mono ?_ ?_
  · rintro _ m ⟨next', reported, hdigest, hm⟩
    exact hmoves hdigest hm
  · rintro f m (hf | ⟨next', reported, hdigest, hm⟩)
    · have hf : (n.supplier peer).digest c.next q.prevIndex out.response = .error f := hf
      left
      rw [hround, hf]
      rfl
    · exact Or.inr (hmoves hdigest hm)

end Leader

end Node

end Raft
