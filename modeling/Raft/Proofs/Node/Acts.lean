import Raft.Node.Loop
import Raft.Proofs.Action

/-!
# What the small actions leave

The handlers of the roles are built of a few small actions. Each is opened here, once: whatever is
to be said of a node, the rest of the proofs read off the node that the action leaves. Seeds and
timers are left open.

* `setHard_leaves`, `adoptTerm_leaves`: term and vote.
* `emit_leaves`, `advanceCommit_leaves`: the queue and the commit index.
* `tryLog_leaves`: work on the log.
* `Opens n target role` is when a role is open to a node; `become_leaves`: it is taken then, and
  refused else.
-/

namespace Raft

/-- The role with its timer restarted. -/
def Role.restart (timer : ElectionTimer) (now : Nat) : Role → Role
  | .follower _ => .follower timer
  | .candidate _ votes => .candidate timer votes
  | .leader l => .leader { l with timer := l.timer.reset now }

@[simp] theorem Role.kind_restart (timer : ElectionTimer) (now : Nat) (r : Role) :
    (r.restart timer now).kind = r.kind := by
  cases r <;> rfl

namespace Node

variable {n : Node}

/-! ## Timers -/

theorem draw_leaves (n : Node) :
    draw.Ensures n (fun _ m => ∃ seed, m = { n with seed }) fun _ _ => False :=
  Action.ensures_get_bind (Action.ensures_set_bind (Action.ensures_pure ⟨_, rfl⟩))

theorem newElectionTimer_leaves (n : Node) :
    newElectionTimer.Ensures n (fun _ m => ∃ seed, m = { n with seed }) fun _ _ => False := by
  refine (draw_leaves n).bind ?_
  rintro _ _ ⟨seed, rfl⟩
  exact Action.ensures_get_bind (Action.ensures_pure ⟨seed, rfl⟩)

theorem resetTimer_leaves (n : Node) :
    resetTimer.Ensures n
      (fun _ m => ∃ timer seed, m = { n with role := n.role.restart timer n.now, seed })
      fun _ _ => False := by
  refine (newElectionTimer_leaves n).bind ?_
  rintro timer _ ⟨seed, rfl⟩
  refine Action.ensures_modify ⟨timer, seed, ?_⟩
  cases n.role <;> rfl

/-! ## Term and vote -/

/-- Storing the hard state succeeds, or stops the node. -/
theorem setHard_leaves (h : HardState) (n : Node) :
    (setHard h).Ensures n
      (fun _ m => ∃ savesLeft, m = { n with hard := h, stored := some h, savesLeft })
      fun f m => (∃ e, f = .error (Error.persistence "hard state" e))
        ∧ m = { n with hard := h, writeFailed := true } := by
  unfold setHard persist
  refine Action.ensures_modify_bind (Action.ensures_get_bind ?_)
  split
  · exact Action.ensures_set_bind (Action.ensures_fail ⟨⟨_, rfl⟩, rfl⟩)
  · exact Action.ensures_set ⟨_, rfl⟩

/-- A newer term is stored; an older one or the current one changes nothing. -/
theorem adoptTerm_leaves (t : Nat) (n : Node) :
    (adoptTerm t).Ensures n
      (fun _ m => t ≤ n.hard.term ∧ m = n ∨ n.hard.term < t ∧ ∃ savesLeft,
        m = { n with hard := ⟨t, none⟩, stored := some ⟨t, none⟩, savesLeft })
      fun f m => (∃ e, f = .error (Error.persistence "hard state" e)) ∧ n.hard.term < t
        ∧ m = { n with hard := ⟨t, none⟩, writeFailed := true } := by
  unfold adoptTerm
  refine Action.ensures_get_bind ?_
  split
  · rename_i hlt
    refine (setHard_leaves ⟨t, none⟩ n).mono ?_ ?_
    · exact fun _ m hm => Or.inr ⟨hlt, hm⟩
    · exact fun f m hm => ⟨hm.1, hlt, hm.2⟩
  · rename_i hge
    exact Action.ensures_pure (Or.inl ⟨Nat.not_lt.1 hge, rfl⟩)

theorem stops_of_persistence {f : Failure Error}
    (h : ∃ e, f = .error (Error.persistence "hard state" e)) : f.Stops := by
  obtain ⟨e, rfl⟩ := h
  exact Or.inr ⟨_, rfl, Error.isFatal_persistence _ e⟩

/-! ## The queue and the commit index -/

/-- A role event is queued, unless the queue is closed. -/
theorem emit_leaves (e : RoleEvent) (n : Node) :
    (emit e).Ensures n
      (fun _ m => n.queueClosed = false ∧ m = { n with queue := n.queue ++ [e] })
      fun f m => n.queueClosed = true ∧ f = .error queueError ∧ m = n := by
  unfold emit
  refine Action.ensures_get_bind ?_
  split
  · rename_i hclosed
    exact Action.ensures_fail ⟨hclosed, rfl, rfl⟩
  · rename_i hopen
    exact Action.ensures_set ⟨Bool.eq_false_iff.2 hopen, rfl⟩

theorem emit_leaves_of_open {e : RoleEvent} (hopen : n.queueClosed = false) :
    (emit e).Ensures n (fun _ m => m = { n with queue := n.queue ++ [e] }) fun _ _ => False := by
  refine (emit_leaves e n).mono (fun _ m hm => hm.2) fun f m hm => ?_
  rw [hopen] at hm
  cases hm.1

/-- The node asks itself to step down as soon as the term is entered. -/
theorem adoptTerm_stepDownAndReplay (t : Nat) (l : Option NodeId) (e : Event) :
    (adoptTerm t >>= fun _ => stepDownAndReplay l e)
      = (adoptTerm t >>= fun _ => emit (.becomeFollower l)) >>= fun _ => emit (.replay e) := by
  rw [bind_assoc]
  rfl

/-- A greater commit index is noted, and then the loop is told. -/
theorem advanceCommit_leaves (i : Nat) (n : Node) :
    (advanceCommit i).Ensures n
      (fun _ m => i ≤ n.commit ∧ m = n ∨ n.commit < i ∧ n.queueClosed = false
        ∧ m = { n with commit := i, queue := n.queue ++ [.newCommit i] })
      fun f m => n.commit < i ∧ n.queueClosed = true ∧ f = .error queueError
        ∧ m = { n with commit := i } := by
  unfold advanceCommit
  refine Action.ensures_get_bind ?_
  split
  · rename_i hlt
    refine Action.ensures_set_bind ((emit_leaves _ { n with commit := i }).mono ?_ ?_)
    · exact fun _ m hm => Or.inr ⟨hlt, hm⟩
    · exact fun f m hm => ⟨hlt, hm⟩
  · rename_i hge
    exact Action.ensures_pure (Or.inl ⟨Nat.not_lt.1 hge, rfl⟩)

theorem advanceCommit_leaves_of_open {i : Nat} (hopen : n.queueClosed = false) :
    (advanceCommit i).Ensures n
      (fun _ m => i ≤ n.commit ∧ m = n ∨ n.commit < i
        ∧ m = { n with commit := i, queue := n.queue ++ [.newCommit i] }) fun _ _ => False := by
  refine (advanceCommit_leaves i n).mono ?_ ?_
  · exact fun _ m hm => hm.imp_right fun h => ⟨h.1, h.2.2⟩
  · rintro f m ⟨-, hclosed, -⟩
    rw [hopen] at hclosed
    cases hclosed

/-! ## The log -/

/-- Work on the log, whose errors are results. The node notes a write that failed. -/
theorem tryLog_leaves {α : Type} {y : Action Log α} {P : α → Log → Prop}
    {E : Failure Error → Log → Prop} (h : y.Ensures n.log P E) :
    (tryLog y).Ensures n
      (fun r m => ∃ l w, m = { n with log := l, writeFailed := w } ∧ match r with
        | .ok a => w = n.writeFailed ∧ P a l
        | .error e => w = (n.writeFailed || e.isStorage) ∧ E (.error e) l)
      (fun f m => ∃ l, m = { n with log := l } ∧ f = .overflow ∧ E .overflow l) := by
  unfold tryLog
  refine Action.ensures_get_bind ?_
  dsimp only
  refine Action.ensures_set_bind ?_
  unfold Action.Ensures at h
  cases hy : y.run n.log with
  | ok a l =>
    rw [hy] at h
    exact ⟨l, n.writeFailed, rfl, rfl, h⟩
  | error f l =>
    rw [hy] at h
    cases f with
    | error e => exact ⟨l, _, rfl, rfl, h⟩
    | overflow => exact ⟨l, rfl, rfl, h⟩

/-! ## The role -/

theorem role_of_leader? {l : LeaderState} (h : n.leader? = some l) :
    n.role = .leader l := by
  unfold leader? at h
  split at h
  · rename_i hrole
    rw [hrole, Option.some.inj h]
  · cases h

theorem modifyLeader_leaves {f : LeaderState → LeaderState} {l : LeaderState}
    (hrole : n.role = .leader l) :
    (modifyLeader f).Ensures n (fun _ m => m = { n with role := .leader (f l) })
      fun _ _ => False := by
  refine Action.ensures_modify ?_
  rw [hrole]

/-- Taking a role that is not open to the node is an error that it survives. -/
def Refused (n : Node) (f : Failure Error) (m : Node) : Prop :=
  (∃ e, f = .error (.transition e)) ∧ m = n

/-- The roles that are open to a node. -/
inductive Opens (n : Node) : RoleKind → Role → Prop
  /-- Whoever does not follow can. -/
  | follower (timer : ElectionTimer) (h : ∀ old, n.role ≠ .follower old) :
    Opens n .follower (.follower timer)
  /-- A follower can stand for election. -/
  | candidate (timer old : ElectionTimer) (h : n.role = .follower old) :
    Opens n .candidate (.candidate timer [])
  /-- A candidate that a majority voted for can lead. -/
  | leader (timer : HeartbeatTimer) (old : ElectionTimer) (votes : List NodeId)
      (h : n.role = .candidate old votes)
      (hquorum : majority n.settings.cluster.members.length ≤ votes.length) :
    Opens n .leader (.leader { timer })

theorem changeRole_leaves (target : RoleKind) (n : Node) :
    (changeRole target).Ensures n (fun r m => n.Opens target r ∧ ∃ seed, m = { n with seed })
      fun f m => n.Refused f m ∧ ∀ r, ¬ n.Opens target r := by
  have htimer : ∀ {target : RoleKind} {f : ElectionTimer → Role},
      (∀ timer, n.Opens target (f timer)) →
      (newElectionTimer >>= fun timer => pure (f timer)).Ensures n
        (fun r m => n.Opens target r ∧ ∃ seed, m = { n with seed })
        fun f m => n.Refused f m ∧ ∀ r, ¬ n.Opens target r := fun hf =>
    (newElectionTimer_leaves n).bind_of_sure fun timer m hm => Action.ensures_pure ⟨hf timer, hm⟩
  unfold changeRole
  refine Action.ensures_get_bind ?_
  split
  · rename_i old hrole
    -- a follower does not take the role of one again
    refine Action.ensures_fail ⟨⟨⟨_, rfl⟩, rfl⟩, fun r hr => ?_⟩
    cases hr with
    | follower _ h => exact h old hrole
  · rename_i hother
    exact htimer fun timer => .follower timer hother
  · rename_i old hrole
    exact htimer fun timer => .candidate timer old hrole
  · rename_i hother
    refine Action.ensures_fail ⟨⟨⟨_, rfl⟩, rfl⟩, fun r hr => ?_⟩
    cases hr with
    | candidate _ old h => exact hother old h
  · rename_i old votes hrole
    split
    · rename_i hquorum
      exact Action.ensures_pure
        ⟨.leader _ old votes hrole (of_decide_eq_true hquorum), n.seed, rfl⟩
    · rename_i hquorum
      -- the role of a leader is open only with a majority, which was just denied
      refine Action.ensures_fail ⟨⟨⟨_, rfl⟩, rfl⟩, fun r hr => ?_⟩
      cases hr with
      | leader _ _ _ h hmajority =>
        obtain ⟨rfl, rfl⟩ := Role.candidate.inj (hrole.symm.trans h)
        exact hquorum (decide_eq_true hmajority)
  · rename_i hother
    refine Action.ensures_fail ⟨⟨⟨_, rfl⟩, rfl⟩, fun r hr => ?_⟩
    cases hr with
    | leader _ old votes h => exact hother old votes h

/-- **A change of role.** A role is taken if it is open to the node, and refused else. -/
theorem become_leaves (target : RoleKind) (n : Node) :
    (become target).Ensures n
      (fun _ m => ∃ role seed, n.Opens target role ∧ m = { n with role, seed })
      fun f m => n.Refused f m ∧ ∀ r, ¬ n.Opens target r := by
  unfold become
  refine (changeRole_leaves target n).bind ?_
  rintro r _ ⟨hr, seed, rfl⟩
  exact Action.ensures_modify ⟨r, seed, hr, rfl⟩

theorem become_leaves_of_opens {target : RoleKind} {r : Role} (h : n.Opens target r) :
    (become target).Ensures n
      (fun _ m => ∃ role seed, n.Opens target role ∧ m = { n with role, seed })
      fun _ _ => False :=
  (become_leaves target n).mono (fun _ _ hm => hm) fun _ _ hf => hf.2 r h

theorem become_follower_leaves (h : n.role.kind ≠ .follower) :
    (become .follower).Ensures n
      (fun _ m => ∃ timer seed, m = { n with role := .follower timer, seed })
      fun _ _ => False := by
  have hopens : n.Opens .follower (.follower default) := by
    refine .follower _ fun old hold => h ?_
    rw [hold]
    rfl
  refine (become_leaves_of_opens hopens).weaken ?_
  rintro _ _ ⟨r, seed, hr, rfl⟩
  cases hr with
  | follower timer => exact ⟨timer, seed, rfl⟩

/-! ## Elections -/

/-- `m` is the node `n` that stands for election in its next term, with its own vote stored, before
it asks anybody for another. -/
def Campaigns (n m : Node) : Prop :=
  ∃ timer savesLeft seed counters, m = { n with
    view := n.view.reset
    role := .candidate timer [n.id]
    hard := ⟨n.term + 1, some ⟨n.id, n.term + 1⟩⟩
    stored := some ⟨n.term + 1, some ⟨n.id, n.term + 1⟩⟩
    savesLeft, seed, counters }

/-- An election is started, unless there is no next term or it cannot be stored. -/
theorem ensures_startElection {Q : PUnit → Node → Prop} {E : Failure Error → Node → Prop}
    (hlast : E .overflow n)
    (hstop : ∀ e, E (.error (Error.persistence "hard state" e))
      { n with hard := ⟨n.term + 1, some ⟨n.id, n.term + 1⟩⟩, writeFailed := true })
    (hrest : ∀ m, n.Campaigns m →
      (if m.isQuorum 1 then emit .becomeLeader else askForVotes m.view.peers).Ensures m Q E) :
    startElection.Ensures n Q E := by
  unfold startElection
  refine Action.ensures_get_bind (Action.Ensures.bind
    (Action.ensures_ofExcept (Q := fun t m => t = n.term + 1 ∧ n = m) ?_ ?_) ?_)
  · exact fun t ht => ⟨(sum_eq_ok_iff.1 ht).2.symm, rfl⟩
  · intro f hf
    rwa [eq_overflow_of_sum_eq_error hf]
  rintro _ _ ⟨rfl, rfl⟩
  refine Action.Ensures.bind ((setHard_leaves _ n).mono (fun _ _ h => h) ?_) ?_
  · rintro f _ ⟨⟨e, rfl⟩, rfl⟩
    exact hstop e
  rintro _ _ ⟨savesLeft, rfl⟩
  refine (newElectionTimer_leaves _).bind_of_sure ?_
  rintro timer _ ⟨seed, rfl⟩
  refine Action.ensures_modify_bind (Action.ensures_modify_bind (Action.ensures_get_bind ?_))
  exact hrest _ ⟨timer, savesLeft, seed, _, rfl⟩

/-! ## Leaders -/

namespace Leader

/-- `m` is the leader `n` after it has sent a peer the entries from its next index on. -/
def Offers (n : Node) (peer : NodeId) (m : Node) : Prop :=
  ∃ l next r, n.role = .leader l ∧ peer ∉ l.inFlight
    ∧ (l.next.lookup peer = some next
      ∨ l.next.lookup peer = none ∧ next = n.log.lastIndex + 1)
    ∧ LogStore.appendRequest n.log n.id n.term next n.commit
        n.settings.consensus.replication.limit = .ok r
    ∧ m = { n with
        role := .leader { l with inFlight := peer :: l.inFlight }
        effects := n.effects ++ [n.departure (.send peer (.append r))] }

/-- A peer is sent entries, unless an answer of it is awaited. What cannot be read is not sent. -/
theorem replicateTo_leaves (peer : NodeId) (n : Node) :
    (replicateTo peer).Ensures n (fun _ m => m = n ∨ Offers n peer m)
      fun f m => m = n ∧ (f = .overflow ∨ ∃ next, LogStore.appendRequest n.log n.id n.term next
        n.commit n.settings.consensus.replication.limit = .error f) := by
  unfold replicateTo
  refine Action.ensures_get_bind ?_
  split
  · rename_i l hrole
    split
    · exact Action.ensures_pure (Or.inl rfl)
    rename_i hfree
    -- what is sent from an index on, however that was found
    have hsend : ∀ next, l.next.lookup peer = some next
          ∨ l.next.lookup peer = none ∧ next = n.log.lastIndex + 1 →
        (do
          let request ← Action.ofExcept (LogStore.appendRequest n.log n.id n.term next n.commit
            n.settings.consensus.replication.limit)
          modifyLeader fun l => { l with inFlight := peer :: l.inFlight }
          send peer (.append request) : Action Node Unit).Ensures n
          (fun _ m => m = n ∨ Offers n peer m)
          fun f m => m = n ∧ (f = .overflow ∨ ∃ next, LogStore.appendRequest n.log n.id n.term
            next n.commit n.settings.consensus.replication.limit = .error f) := by
      intro next hnext
      refine Action.Ensures.bind (Action.ensures_ofExcept
        (Q := fun r m => LogStore.appendRequest n.log n.id n.term next n.commit
          n.settings.consensus.replication.limit = .ok r ∧ m = n) (fun r hr => ⟨hr, rfl⟩)
        fun f hf => ⟨rfl, Or.inr ⟨next, hf⟩⟩) ?_
      rintro r m ⟨hr, hm⟩
      subst hm
      refine (modifyLeader_leaves hrole).bind_of_sure ?_
      rintro _ _ rfl
      exact Action.ensures_modify
        (Or.inr ⟨l, next, r, hrole, by simpa using hfree, hnext, hr, rfl⟩)
    dsimp only
    split
    · rename_i next hnext
      exact hsend next (Or.inl hnext)
    · rename_i hnone
      refine Action.Ensures.bind (Action.ensures_ofExcept
        (Q := fun next m => next = n.log.lastIndex + 1 ∧ m = n)
        (fun next hnext => ⟨(sum_eq_ok_iff.1 hnext).2.symm, rfl⟩)
        fun f hf => ⟨rfl, Or.inl (eq_overflow_of_sum_eq_error hf)⟩) ?_
      rintro next m ⟨hnext, hm⟩
      subst hm
      exact hsend next (Or.inr ⟨hnone, hnext⟩)
  · exact Action.ensures_pure (Or.inl rfl)

/-- What a majority holds is committed. -/
theorem ensures_commitMajority {Q : PUnit → Node → Prop} {E : Failure Error → Node → Prop}
    (hsame : Q ⟨⟩ n)
    (hcommit : ∀ l i, n.role = .leader l →
      LogStore.majorityIndex? n.log n.term n.commit (l.matched.map (·.2)) = some i →
      (advanceCommit i).Ensures n Q E) : commitMajority.Ensures n Q E := by
  unfold commitMajority
  refine Action.ensures_get_bind ?_
  split
  · rename_i l hrole
    split
    · rename_i i hi
      exact hcommit l i hrole hi
    · exact hsame
  · exact hsame

/-- `m` is the leader `n` after it has asked the target of its transfer to take over. -/
def Asks (n : Node) (peer : NodeId) (m : Node) : Prop :=
  ∃ l t, n.role = .leader l ∧ l.transfer = some t ∧ t.target = peer ∧ t.asked = false
    ∧ n.log.lastIndex ≤ (l.matched.lookup peer).getD 0
    ∧ m = { n with
        role := .leader { l with transfer := some { t with asked := true } }
        effects := n.effects ++ [n.departure (.send peer (.timeoutNow ⟨n.term, n.id⟩))] }

/-- The target of a transfer is asked, once, when it holds the whole log. -/
theorem askTarget_leaves (peer : NodeId) (n : Node) :
    (askTarget peer).Ensures n (fun asked m => if asked then Asks n peer m else m = n)
      fun _ _ => False := by
  unfold askTarget
  refine Action.ensures_get_bind ?_
  split
  · rename_i l hrole
    split
    · rename_i t ht
      split
      · rename_i hripe
        obtain ⟨htarget, hasked, hle⟩ := hripe
        refine (modifyLeader_leaves hrole).bind_of_sure ?_
        rintro _ _ rfl
        exact Action.ensures_modify_bind
          (Action.ensures_pure ⟨l, t, hrole, ht, htarget, hasked, hle, rfl⟩)
      · exact Action.ensures_pure rfl
    · exact Action.ensures_pure rfl
  · exact Action.ensures_pure rfl

/-- A transfer under way ends, and its caller is told if it waits. -/
theorem abortTransfer_leaves (error : NodeId → Error) (n : Node) :
    (abortTransfer error).Ensures n
      (fun _ m => n.leader?.bind LeaderState.transfer = none ∧ m = n
        ∨ ∃ l t, n.role = .leader l ∧ l.transfer = some t ∧ m = { n with
          role := .leader { l with transfer := none }
          effects := n.effects ++ t.caller.toList.map fun c =>
            n.departure (.answer c (.transfer (.error (error t.target)))) })
      fun _ _ => False := by
  unfold abortTransfer
  refine Action.ensures_get_bind ?_
  split
  · rename_i t ht
    obtain ⟨l, hl, hlt⟩ := Option.bind_eq_some_iff.1 ht
    have hrole := role_of_leader? hl
    refine (modifyLeader_leaves hrole).bind_of_sure ?_
    rintro _ _ rfl
    split
    · rename_i caller hcaller
      refine Action.ensures_modify (Or.inr ⟨l, t, hrole, hlt, ?_⟩)
      rw [hcaller]
      rfl
    · rename_i hcaller
      refine Action.ensures_pure (Or.inr ⟨l, t, hrole, hlt, ?_⟩)
      rw [hcaller]
      simp
  · rename_i hnone
    exact Action.ensures_pure (Or.inl ⟨hnone, rfl⟩)

/-- The answers that send waiting clients to the next leader. -/
def redirects (w : Waiters) (leader : Option NodeId) : List Effect :=
  w.takeAll.1.map fun x => .answer x.caller (.client (.notLeader leader))

/-- The answer to the caller of a transfer: whoever was asked to take over may be doing so. -/
def parting (leader : Option NodeId) (l : LeaderState) : List Effect :=
  (l.transfer.bind fun t => t.caller.map fun c =>
    .answer c (.transfer (if t.asked then .ok () else .error (.notLeader leader)))).toList

theorem answer_of_mem_parting {leader : Option NodeId} {l : LeaderState} {e : Effect}
    (h : e ∈ parting leader l) : ∃ c x, e = .answer c (.transfer x) := by
  obtain ⟨t, -, hcaller⟩ := Option.bind_eq_some_iff.1 (Option.mem_toList.1 h)
  obtain ⟨c, -, rfl⟩ := Option.map_eq_some_iff.1 hcaller
  exact ⟨c, _, rfl⟩

theorem map_effect_append (ds : List Departure) (es : List Effect) :
    (ds ++ es.map n.departure).map Departure.effect = ds.map Departure.effect ++ es := by
  rw [List.map_append, List.map_map]
  exact congrArg (ds.map Departure.effect ++ ·) (List.map_id es)

/-- A leader that steps down lets nobody wait any longer. -/
theorem onStepDown_leaves (leader : Option NodeId) {l : LeaderState} (hrole : n.role = .leader l) :
    (onStepDown leader).Ensures n
      (fun _ m => m = { n with
        role := .leader { l with transfer := none }
        applier := { n.applier with waiters := n.applier.waiters.takeAll.2 }
        effects := n.effects
          ++ (redirects n.applier.waiters leader ++ parting leader l).map n.departure })
      fun _ _ => False := by
  have hleads : ∀ a es, ({ n with applier := a, effects := es } : Node).role = .leader l :=
    fun _ _ => hrole
  unfold onStepDown redirects parting
  refine Action.ensures_get_bind ?_
  generalize n.applier.waiters.takeAll = w
  obtain ⟨waiting, waiters⟩ := w
  refine Action.ensures_set_bind ?_
  rw [show n.leader? = some l by unfold leader?; rw [hrole]]
  simp only [Option.bind_some]
  split
  · rename_i t ht
    refine (modifyLeader_leaves (hleads _ _)).bind_of_sure ?_
    rintro _ _ rfl
    split
    · rename_i caller hcaller
      refine Action.ensures_modify ?_
      simp [ht, hcaller, departure]
    · rename_i hcaller
      refine Action.ensures_pure ?_
      simp [ht, hcaller, departure]
  · rename_i hnone
    have hsame : Role.leader { l with transfer := none } = n.role := by rw [hrole, ← hnone]
    refine Action.ensures_pure ?_
    simp [hsame, hnone, departure]

end Leader

/-! ## Starting -/

/-- A node starts as a follower over what it finds, if the session table can be rebuilt. -/
theorem exists_of_start {settings : Settings} {window now : Nat} {r : Remains} {seed : Seed}
    (h : start settings window r now seed = .ok n) :
    ∃ sessions timer seed, Sessions.rebuild window r.log r.machine r.machine.last = .ok sessions
      ∧ n = {
        settings
        view := settings.view
        role := .follower timer
        hard := r.stored.getD {}
        stored := r.stored
        saveFails := r.saveFails
        savesLeft := r.savesLeft
        commit := r.machine.last
        log := r.log
        applier := {
          batch := settings.consensus.commit.batch
          lastApplied := r.machine.last
          machine := r.machine
          sessions }
        now
        seed } := by
  unfold start at h
  obtain ⟨sessions, hsessions, h⟩ := exists_of_bind_eq_ok h
  exact ⟨sessions, _, _, hsessions, (Except.ok.inj h).symm⟩

end Node

end Raft
