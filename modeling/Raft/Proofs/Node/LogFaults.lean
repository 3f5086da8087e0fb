import Raft.Proofs.Node.Acts
import Raft.Proofs.Replication

/-!
# When the log cannot be written

A request is taken over in two steps: the log is cut where it contradicts the request, and what is
missing is written. Either can fail, and nothing is undone. What is lost then stood against an entry
of the request and was not committed. A follower to which this happens stops and says nothing.

* `Spared q commit l l'`: what a request that failed leaves of a list.
* `Node.Poised n m`: what an append request depends on, and what it makes visible, is the same.
* `failed_append_loses_nothing` is the result, for every lawful store and for every follower.
-/

namespace Raft

open LawfulStore (Holds)

/-- Of the list `l`, a request that failed left `l'`. -/
structure Spared (q : AppendRequest) (commit : Nat) (l l' : List Entry) : Prop where
  /-- Nothing is gone, or what is not before the first entry that contradicts the request. -/
  prefix_or_same : l' = l ∨ ∃ i, IsLeast (q.clashes l) i ∧ l' = l.take (i - 1)
  /-- What is committed is there. -/
  committed : ∀ i ≤ commit, entryAt l' i = entryAt l i
  /-- What comes before every entry that contradicts the request is there. -/
  below : ∀ i, (∀ k ∈ q.clashes l, i < k) → entryAt l' i = entryAt l i

/-- The failure is one that was made to happen. -/
def Injected (f : Failure Error) : Prop :=
  f = .error (LogFaults.error "append") ∨ f = .error (LogFaults.error "truncate")

/-! ## The log -/

section Log

variable {q : AppendRequest} {l : List Entry} {commit i : Nat}

theorem spared_rfl : Spared q commit l l where
  prefix_or_same := Or.inl rfl
  committed _ _ := rfl
  below _ _ := rfl

theorem spared_take (hclash : IsLeast (q.clashes l) i) (hlt : commit < i) :
    Spared q commit l (l.take (i - 1)) where
  prefix_or_same := Or.inr ⟨i, hclash, rfl⟩
  committed _ hj := entryAt_take (by omega)
  below j hj := by
    have := hj i hclash.1
    exact entryAt_take (by omega)

variable {σ : Type} [LogStore σ] [LawfulStore σ] {s s' : σ} {node : NodeId} {term : Nat}
  {f : Failure Error}

/-- A request fails because committed entries contradict it, and the log is as it was, or because
the log could not be written. -/
theorem spared_of_handle (hs : Holds s l) (hq : q.WellFormed)
    (hrun : (Replication.handle node q term commit).run s = .error f s') :
    (∃ l', Holds s' l' ∧ Spared q commit l l')
      ∧ (Injected f ∨ ∃ i, f = .error (.replication (.committedConflict i commit)) ∧ s' = s) := by
  obtain ⟨hint, hhint⟩ := exists_conflictHint hs q.prevIndex
  have hends := run_merge hs hq commit
  generalize hmerge : (LogStore.merge q.prevIndex q.prevTerm q.entries commit).run s = r at hends
  cases hends with
  | absent =>
    rw [run_handle_of_absent hmerge hhint] at hrun
    cases hrun
  | present | written =>
    rw [run_handle_of_match hmerge] at hrun
    cases hrun
  | refused =>
    rw [run_handle_of_error hmerge] at hrun
    cases hrun
    exact ⟨⟨l, hs, spared_rfl⟩, Or.inr ⟨_, rfl, rfl⟩⟩
  | uncut =>
    rw [run_handle_of_error hmerge] at hrun
    cases hrun
    exact ⟨⟨l, hs, spared_rfl⟩, Or.inl (Or.inr rfl)⟩
  | unextended =>
    rw [run_handle_of_error hmerge] at hrun
    cases hrun
    exact ⟨⟨l, hs, spared_rfl⟩, Or.inl (Or.inl rfl)⟩
  | cut _ hclash hlt _ hs' =>
    rw [run_handle_of_error hmerge] at hrun
    cases hrun
    exact ⟨⟨_, hs', spared_take hclash hlt⟩, Or.inl (Or.inl rfl)⟩

end Log

/-! ## The follower -/

namespace Node

/-- What an append request depends on, and what it makes visible, is the same in both. -/
structure Poised (n m : Node) : Prop where
  id : m.id = n.id
  log : m.log = n.log
  commit : m.commit = n.commit
  effects : m.effects = n.effects
  queue : m.queue = n.queue
  signals : m.signals = n.signals

variable {n m k : Node}

theorem poised_rfl : Poised n n := ⟨rfl, rfl, rfl, rfl, rfl, rfl⟩

theorem Poised.trans (h : Poised n m) (h' : Poised m k) : Poised n k where
  id := h'.id.trans h.id
  log := h'.log.trans h.log
  commit := h'.commit.trans h.commit
  effects := h'.effects.trans h.effects
  queue := h'.queue.trans h.queue
  signals := h'.signals.trans h.signals

theorem adoptTerm_poised (t : Nat) (n : Node) :
    (adoptTerm t).Ensures n (fun _ m => Poised n m ∧ m.term = max n.term t)
      fun f m => (∃ text, f = .error (.fatal text)) ∧ Poised n m := by
  refine (adoptTerm_leaves t n).mono ?_ ?_
  · rintro _ _ (⟨hle, rfl⟩ | ⟨hlt, savesLeft, rfl⟩)
    · exact ⟨poised_rfl, (Nat.max_eq_left hle).symm⟩
    · exact ⟨⟨rfl, rfl, rfl, rfl, rfl, rfl⟩, (Nat.max_eq_right (Nat.le_of_lt hlt)).symm⟩
  · rintro f _ ⟨⟨e, rfl⟩, -, rfl⟩
    exact ⟨⟨_, rfl⟩, ⟨rfl, rfl, rfl, rfl, rfl, rfl⟩⟩

theorem resetTimer_poised (n : Node) :
    resetTimer.Ensures n (fun _ m => Poised n m ∧ m.term = n.term) fun _ _ => False := by
  refine (resetTimer_leaves n).weaken ?_
  rintro _ _ ⟨timer, seed, rfl⟩
  exact ⟨⟨rfl, rfl, rfl, rfl, rfl, rfl⟩, rfl⟩

/-- An error of the log is a result, and the node notes whether it was a write that failed. -/
theorem tryLog_of_error {α : Type} {x : Action Log α} {e : Error} {l : Log}
    (hx : x.run n.log = .error (.error e) l) :
    (tryLog x).Ensures n
      (fun r m => r = .error e
        ∧ m = { n with log := l, writeFailed := n.writeFailed || e.isStorage })
      fun _ _ => False := by
  have herror : x.Ensures n.log (fun _ _ => False) fun f l' => f = .error e ∧ l' = l := by
    unfold Action.Ensures
    rw [hx]
    exact ⟨rfl, rfl⟩
  refine (tryLog_leaves herror).mono ?_ ?_
  · rintro (e' | a) _ ⟨_, _, rfl, hr⟩
    · obtain ⟨rfl, he, rfl⟩ := hr
      obtain rfl := Failure.error.inj he
      exact ⟨rfl, rfl⟩
    · exact hr.2.elim
  · rintro _ _ ⟨_, -, rfl, h, -⟩
    cases h

namespace Follower

variable {q : AppendRequest} {l : Log} {f : Failure Error}

/-- A follower that cannot write its log stops: nobody is answered, and the commit index stays. The
log is as the failed request left it, or as it was if the term could not be stored either. -/
theorem handle_ensures_of_injected (caller : Caller) (hterm : n.term ≤ q.term) (hf : Injected f)
    (hrun : (Replication.handle n.id q q.term n.commit).run n.log = .error f l) :
    (handle (.appendRequest q caller)).Ensures n (fun _ _ => False)
      fun f' m => (∃ text, f' = .error (.fatal text)) ∧ m.effects = n.effects
        ∧ m.commit = n.commit ∧ m.queue = n.queue ∧ m.signals = n.signals
        ∧ (m.log = n.log ∨ m.log = l) := by
  unfold handle
  refine Action.ensures_get_bind ?_
  dsimp only
  rw [if_neg (Nat.not_lt.2 hterm)]
  unfold onAppendRequest
  refine Action.Ensures.bind ((adoptTerm_poised q.term n).mono (fun _ _ h => h) ?_) ?_
  · rintro f' m ⟨hfatal, hm⟩
    exact ⟨hfatal, hm.effects, hm.commit, hm.queue, hm.signals, Or.inl hm.log⟩
  rintro _ m ⟨hm, hmt⟩
  refine Action.ensures_modify_bind ?_
  refine (resetTimer_poised _).bind_of_sure ?_
  rintro _ k ⟨hk, hkt⟩
  have hmk : Poised m k := ⟨hk.id, hk.log, hk.commit, hk.effects, hk.queue, hk.signals⟩
  have hnk := hm.trans hmk
  have hkterm : k.term = q.term := by
    rw [hkt]
    exact hmt.trans (Nat.max_eq_right hterm)
  refine Action.ensures_get_bind ?_
  rw [← hnk.id, ← hnk.log, ← hnk.commit, ← hkterm] at hrun
  rcases hf with rfl | rfl
  all_goals
    refine (tryLog_of_error hrun).bind_of_sure ?_
    rintro _ _ ⟨rfl, rfl⟩
    exact ⟨⟨_, rfl⟩, hnk.effects, hnk.commit, hnk.queue, hnk.signals, Or.inr rfl⟩

end Follower

end Node

/-- **A failed append loses nothing that matters.** Whichever writes of a store are made to fail, a
request that fails leaves everything but what came from the first entry on that contradicts it, and
that was not committed. A follower whose log failed gives no answer, keeps its commit index and
stops with a fatal error. -/
theorem failed_append_loses_nothing (q : AppendRequest) (hq : q.WellFormed) :
    (∀ {σ : Type} [LogStore σ] [LawfulStore σ] (s s' : σ) (l : List Entry) (node : NodeId)
        (term commit : Nat) (f : Failure Error), Holds s l →
      (Replication.handle node q term commit).run s = .error f s' →
      (∃ l', Holds s' l' ∧ Spared q commit l l')
        ∧ (Injected f ∨ ∃ i, f = .error (.replication (.committedConflict i commit)) ∧ s' = s))
    ∧ ∀ (n : Node) (caller : Caller) (l : Log) (f : Failure Error),
        Holds n.log n.log.entries → n.term ≤ q.term → Injected f →
        (Replication.handle n.id q q.term n.commit).run n.log = .error f l →
        ∃ text n', (Node.Follower.handle (.appendRequest q caller)).run n
            = .error (.error (.fatal text)) n'
          ∧ n'.effects = n.effects ∧ n'.commit = n.commit ∧ n'.queue = n.queue
          ∧ n'.signals = n.signals ∧ Spared q n.commit n.log.entries n'.log.entries := by
  refine ⟨fun s s' l node term commit f hs hrun => spared_of_handle hs hq hrun, ?_⟩
  intro n caller l f hn hterm hf hrun
  obtain ⟨_, n', hfatal, ⟨text, rfl⟩, heffects, hcommit, hqueue, hsignals, hlog⟩ :=
    (Node.Follower.handle_ensures_of_injected caller hterm hf hrun).exists_error
  refine ⟨text, n', hfatal, heffects, hcommit, hqueue, hsignals, ?_⟩
  rcases hlog with hsame | hleft
  · rw [hsame]
    exact spared_rfl
  · obtain ⟨⟨l', hl', hspared⟩, -⟩ := spared_of_handle hn hq hrun
    rw [hleft, show l.entries = l' from hl'.1]
    exact hspared

/-- A durable log that can be cut, but not written. -/
def jammedStore : KeyedLog := { lapsedStore with faults := { append := true } }

/-- A log in memory of the same kind. -/
def jammedLog : Log := { entries := lapsed, faults := { append := true } }

/-- A follower with this log. -/
def jammedFollower : Node where
  settings := {}
  view := ⟨2, [.ofId 1, .ofId 2, .ofId 3], none⟩
  role := .follower ⟨100, 100, 200⟩
  hard := ⟨2, none⟩
  stored := some ⟨2, none⟩
  commit := 3
  log := jammedLog
  applier := { batch := 10 }

theorem failed_append_loses_nothing_of_jammed :
    correction.WellFormed
      ∧ (∃ f s', (Replication.handle 2 correction 3 3).run jammedStore = .error f s'
        ∧ ∃ l', Holds s' l' ∧ Spared correction 3 lapsed l')
      ∧ ∃ text n', (Node.Follower.handle (.appendRequest correction 7)).run jammedFollower
          = .error (.error (.fatal text)) n'
        ∧ n'.effects = [] ∧ n'.commit = 3 ∧ Spared correction 3 lapsed n'.log.entries := by
  obtain ⟨hstore, hrole⟩ := failed_append_loses_nothing correction wellFormed_correction
  refine ⟨wellFormed_correction, ?_, ?_⟩
  · have hfails : (Action.outcome ((Replication.handle 2 correction 3 3).run jammedStore)).isOk
        = false := by decide +kernel
    cases hrun : (Replication.handle 2 correction 3 3).run jammedStore with
    | ok out s' =>
      rw [hrun] at hfails
      cases hfails
    | error f s' =>
      exact ⟨f, s', rfl, (hstore jammedStore s' lapsed 2 3 3 f holds_lapsed hrun).1⟩
  · obtain ⟨text, n', hrun, heffects, hcommit, -, -, hspared⟩ := hrole jammedFollower 7
      { jammedLog with entries := lapsed.take 3 } _ ⟨rfl, by decide, by decide⟩ (by decide)
      (Or.inl rfl) rfl
    exact ⟨text, n', hrun, heffects, hcommit, hspared⟩

end Raft
