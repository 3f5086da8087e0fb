import Raft.Proofs.Protocol.Basic

/-!
# What is true of the record

The invariant of the protocol, in two parts: what the record says about itself, and what it says
about each node.

* `Kept r t m l u`: a log still holds the first `m` entries of the leader of term `t`, unless a
  later leader, of a term below `u`, lacked them.
* `Committed r t k`: the first `k` entries of the leader of term `t` are committed.
* `Settled r u l i`: the first `i` entries of a log are committed, in a term up to `u`.
* `Record.Sound` and `Core.Sound` are the invariant.
-/

namespace Raft.Protocol

namespace Record

variable (r : Record)

/-- A leader between two terms lacks the first entries of the earlier one. -/
def Missed (t m u : Nat) : Prop :=
  ∃ t', t < t' ∧ t' < u ∧ r.leader t' ≠ none ∧ ¬ (r.ledger t).take m <+: r.ledger t'

/-- A log holds the first entries of a leader, unless a later leader lacked them. -/
def Kept (t m : Nat) (l : List Entry) (u : Nat) : Prop := (r.ledger t).take m <+: l ∨ r.Missed t m u

/-- A candidate's log is as good as that of the voter for every earlier term in which the voter was
found to hold entries of the leader's own term. -/
def Supports (v u : Nat) (l : List Entry) (w : Nat) : Prop :=
  ∀ t m, t < u → m ≤ r.held v t → termAt (r.ledger t) m = some t → r.Kept t m l w

/-- A leader counted a quorum for an entry of its own term. -/
def Committed (members : List NodeId) (t k : Nat) : Prop :=
  0 < k ∧ termAt (r.ledger t) k = some t ∧ ∃ Q, Quorum members Q ∧ ∀ v ∈ Q, k ≤ r.held v t

/-- The first entries of a log are the committed ones of some leader. -/
def Settled (members : List NodeId) (u : Nat) (l : List Entry) (i : Nat) : Prop :=
  i = 0 ∨ ∃ t k, t ≤ u ∧ r.Committed members t k ∧ i ≤ k ∧ (r.ledger t).take i <+: l

/-- Every entry of a log stands at its index, and the leader of its term had the log up to it. -/
def Covers (l : List Entry) : Prop :=
  ∀ i e, entryAt l i = some e → e.index = i ∧ l.take i <+: r.ledger e.term

/-- What the record says about a term. -/
structure TermSound (t : Nat) : Prop where
  /-- A term without a leader has no log. -/
  vacant : r.leader t = none → r.ledger t = []
  /-- A leader wrote an entry of its term. -/
  opened : r.leader t ≠ none → ∃ e ∈ r.ledger t, e.term = t
  covers : r.Covers (r.ledger t)
  bounded : ∀ e ∈ r.ledger t, e.term ≤ t
  rising : (r.ledger t).Pairwise fun a b => a.term ≤ b.term
  /-- No request of a client is in the log of a leader twice. -/
  distinct : (r.ledger t).Pairwise fun a b => ¬ a.SameRequest b

/-- What the record says about itself. -/
structure Sound (members : List NodeId) : Prop where
  /-- A voter has one vote in a term. -/
  once : ∀ v t x y, r.ballot v t x → r.ballot v t y → x = y
  /-- A leader was elected by a quorum, whose members had what its log has. -/
  mandate : ∀ t x, r.leader t = some x → ∃ Q, Quorum members Q ∧
    ∀ v ∈ Q, r.ballot v t x ∧ r.Supports v t (r.ledger t) t
  term : ∀ t, r.TermSound t
  /-- What is offered is a part of the log of a leader, with a commit index that is right. -/
  offers : ∀ q, r.offered q → r.leader q.term ≠ none ∧ q.IsPartOf (r.ledger q.term)
    ∧ r.Settled members q.term (r.ledger q.term) q.commit
  held_le : ∀ p t, r.held p t ≤ (r.ledger t).length

end Record

/-- What the record says about a node. -/
structure Core.Sound (members : List NodeId) (r : Record) (p : NodeId) (c : Core) : Prop where
  /-- The log is a part of some leader's. -/
  copied : ∃ t, t ≤ c.hard.term ∧ c.log <+: r.ledger t
  /-- The node's vote of its term is the one it gave. -/
  cast : ∀ t x, r.ballot p t x → t ≤ c.hard.term ∧ (t = c.hard.term → c.hard.vote = some ⟨x, t⟩)
  vote : ∀ v, c.hard.vote = some v → v.term = c.hard.term ∧ r.ballot p v.term v.candidate
  /-- Votes are given to those who stood. -/
  backed : ∀ t v, r.ballot v t p → t ≤ c.hard.term
  /-- A candidate has the entries that its voters were found to hold. -/
  backing : ∀ votes v, c.phase = .candidate votes → r.ballot v c.hard.term p →
    r.Supports v c.hard.term c.log (c.hard.term + 1)
  /-- A candidate asks with its own log. -/
  asked : ∀ q, r.asked q → q.candidate = p → q.term ≤ c.hard.term ∧
    ∀ votes, c.phase = .candidate votes → q.term = c.hard.term →
      q.lastIndex = c.log.length ∧ q.lastTerm = lastTerm c.log
  /-- A candidate counts votes that were given, each once. -/
  votes : ∀ votes, c.phase = .candidate votes →
    votes.Nodup ∧ votes ⊆ members ∧ ∀ v ∈ votes, r.ballot v c.hard.term p
  /-- A node does not stand in a term that it led. -/
  led : ∀ t, r.leader t = some p → t ≤ c.hard.term ∧
    (t = c.hard.term → ∀ votes, c.phase ≠ .candidate votes)
  /-- A leader's log is the log of its term. -/
  leading : c.phase = .leader → r.leader c.hard.term = some p ∧ r.ledger c.hard.term = c.log
    ∧ r.held p c.hard.term = c.log.length
  /-- What the node was found to hold it has, unless a later leader lacked it. -/
  kept : ∀ t m, m ≤ r.held p t → r.Kept t m c.log (c.hard.term + 1)
  held : ∀ t, 0 < r.held p t → t ≤ c.hard.term
  /-- The node's commit index is right. -/
  settled : r.Settled members c.hard.term c.log c.commit

/-- The invariant of the protocol. -/
structure Sound (members : List NodeId) (cores : NodeId → Core) (r : Record) : Prop where
  record : r.Sound members
  core : ∀ p, (cores p).Sound members r p

variable {members : List NodeId} {r : Record} {l : List Entry} {t u i m : Nat}

theorem sound_init : Sound members (fun _ => {}) {} where
  record :=
    { once := nofun
      mandate := nofun
      term := fun _ =>
        { vacant := fun _ => rfl
          opened := fun h => absurd rfl h
          covers := fun i e h => by simp [entryAt] at h
          bounded := nofun
          rising := List.Pairwise.nil
          distinct := List.Pairwise.nil }
      offers := nofun
      held_le := fun _ _ => Nat.le_refl _ }
  core p :=
    { copied := ⟨0, Nat.le_refl _, List.nil_prefix⟩
      cast := nofun
      vote := nofun
      backed := nofun
      backing := nofun
      asked := nofun
      votes := nofun
      led := nofun
      leading := nofun
      kept := fun _ m _ => Or.inl (by simp)
      held := fun _ h => absurd h (Nat.lt_irrefl _)
      settled := Or.inl rfl }

/-! ## Logs covered by the record -/

namespace Record

theorem Covers.of_isPrefix {l' : List Entry} (h : r.Covers l') (hl : l <+: l') : r.Covers l := by
  intro i e he
  obtain ⟨hi, hpre⟩ := h i e (entryAt_of_isPrefix hl he)
  refine ⟨hi, ?_⟩
  rwa [← take_eq_of_isPrefix hl (le_length_of_entryAt he).2]

/-- **Log matching.** Two covered logs that agree in the term at a position are equal up to it. -/
theorem Covers.take_eq {l' : List Entry} (h : r.Covers l) (h' : r.Covers l')
    (ht : termAt l i = some t) (ht' : termAt l' i = some t) : l.take i = l'.take i := by
  rcases Nat.eq_zero_or_pos i with rfl | hi
  · simp
  · obtain ⟨e, he, rfl⟩ := exists_entryAt_of_termAt ht hi
    obtain ⟨e', he', het⟩ := exists_entryAt_of_termAt ht' hi
    have hpre := (h i e he).2
    have hpre' := (h' i e' he').2
    rw [het] at hpre'
    refine take_eq_of_isPrefix_of_isPrefix hpre hpre' ?_
    rw [List.length_take, List.length_take, Nat.min_eq_left (le_length_of_entryAt he).2,
      Nat.min_eq_left (le_length_of_entryAt he').2]

theorem Covers.matching {l' : List Entry} (h : r.Covers l) (h' : r.Covers l') : Matching l l' :=
  fun _ _ ht ht' => h.take_eq h' ht ht'

theorem Covers.positioned (h : r.Covers l) : Positioned l := fun i e he => (h i e he).1

/-- A covered log is a part of the log of the leader of its last entry. -/
theorem Covers.prefix_ledger (h : r.Covers l) : l <+: r.ledger (lastTerm l) := by
  rcases Nat.eq_zero_or_pos l.length with hl | hl
  · rw [List.length_eq_zero_iff.1 hl]
    exact List.nil_prefix
  · obtain ⟨e, he⟩ := exists_entryAt hl (Nat.le_refl _)
    rw [lastTerm_eq_of_entryAt he]
    have := (h _ e he).2
    rwa [List.take_length] at this

end Record

end Raft.Protocol
