import Raft.Proofs.Profile.Loop

/-!
# Newer terms are heeded

A node that hears of a newer term enters it and asks itself to step down, unless it follows already.
There are three kinds of results that it does not look at.

* `Profile.passesOver p e`: the results that are passed over.
* `Profile.Heeds p t`: the node has reached the term `t`, and is no candidate or leader of an older
  one for long. Every turn keeps that.
* `Node.handle_heeds`: a newer term that is not passed over is heeded.
* `Node.handle_of_passesOver`: what is passed over changes nothing.
-/

namespace Raft

/-- The term of the other node that an event tells of: that of a request, or of an answer. -/
def Event.peerTerm? : Event → Option Nat
  | .voteRequest r _ => some r.term
  | .appendRequest r _ => some r.term
  | .timeoutNowRequest r _ => some r.term
  | .voteResult _ _ (.ok r) => some r.term
  | .appendResult _ _ (.ok r) => some r.term
  | .timeoutNowResult _ _ (.ok r) => some r.term
  | _ => none

open Node (stepsDown)

namespace Profile

variable {src : Option Event} {p q : Profile} {t : Nat}

/-- A result that is passed over without a look at what was answered: a vote of a candidate, or an
append or a transfer of a leader, that was asked for in another term. -/
def passesOver (p : Profile) (e : Event) : Bool :=
  match p.post, e with
  | .candidate _, .voteResult _ t _ => t != p.hard.term
  | .leader _, .appendResult _ request _ => request.term != p.hard.term
  | .leader _, .timeoutNowResult _ t _ => t != p.hard.term
  | _, _ => false

/-- The node has reached a term. It follows, or it is about to, or it has stood for election in a
later term. -/
def Heeds (p : Profile) (t : Nat) : Prop :=
  t ≤ p.hard.term ∧ (p.post = .follower ∨ p.retires = true
    ∨ t < p.hard.term ∧ p.hard.vote = some ⟨p.self, p.hard.term⟩)

theorem Heeds.turn (h : p.Heeds t) (hturn : Turn src p q) : q.Heeds t := by
  obtain ⟨hle, hcases⟩ := h
  refine ⟨Nat.le_trans hle hturn.term_le, ?_⟩
  cases hturn with
  | follow h hpost => exact Or.inl hpost
  | queue e hstays =>
    rw [retires_queue, hstays, Bool.or_false]
    exact hcases
  | yield t l => exact Or.inr (Or.inl (by simp [retires, stepsDown]))
  | take e rest hqueue hstays =>
    rw [retires_take hqueue hstays]
    exact hcases
  | settle l rest => exact Or.inl rfl
  | stand u hpost hterm =>
    exact Or.inr (Or.inr ⟨Nat.lt_succ_of_le (Nat.le_trans hle hterm), rfl⟩)
  | refuse => exact hcases
  | count _ _ _ _ _ _ _ hpost | lead _ hpost | begin _ _ _ _ _ hpost | ask _ hpost
  | accept _ _ _ _ _ _ _ hpost | abort _ _ hpost =>
    refine Or.inr (hcases.resolve_left fun hfollower => ?_)
    rw [hpost] at hfollower
    cases hfollower

theorem heeds_standing (h : t ≤ p.hard.term) : p.standing.Heeds t :=
  ⟨Nat.le_succ_of_le h, Or.inr (Or.inr ⟨Nat.lt_succ_of_le h, rfl⟩)⟩

end Profile

namespace Node

variable {n : Node} {t : Nat}

/-- The run of an action heeds a term, or it stops the node. -/
def Heeds (x : Action Node Unit) (n : Node) (t : Nat) : Prop :=
  x.Ensures n (fun _ m => m.profile.Heeds t) fun f _ => f.Stops

theorem heeds_ite {c : Prop} [Decidable c] {y z : Action Node Unit} (hc : c) (h : Heeds y n t) :
    Heeds (if c then y else z) n t := by
  rwa [if_pos hc]

theorem heeds_ite_not {c : Prop} [Decidable c] {y z : Action Node Unit} (hc : ¬ c)
    (h : Heeds z n t) : Heeds (if c then y else z) n t := by
  rwa [if_neg hc]

theorem Idle.heeds_bind {α : Type} {x : Action Node α} {f : α → Action Node Unit} (h : Idle x n)
    (hf : ∀ a m, m.profile = n.profile → Heeds (f a) m t) : Heeds (x >>= f) n t :=
  h.ensures_bind hf

theorem Idle.heeds {x : Action Node Unit} (h : Idle x n) (hn : n.profile.Heeds t) : Heeds x n t :=
  h.mono_of_sure fun _ _ hm => hm ▸ hn

/-- What the node queues does not matter, once the term is heeded. -/
theorem heeds_queue {p : Profile} {e : RoleEvent} (h : p.Heeds t) :
    ({ p with queue := p.queue ++ [e] } : Profile).Heeds t := by
  refine ⟨h.1, h.2.imp_right (Or.imp_left fun hretires => ?_)⟩
  rw [Profile.retires_queue, hretires]
  rfl

theorem emit_heeds {e : RoleEvent} (hopen : n.profile.closed = false) (hn : n.profile.Heeds t) :
    Heeds (emit e) n t := by
  refine (emit_profile hopen).mono_of_sure fun _ m hm => ?_
  rw [hm]
  exact heeds_queue hn

/-- A newer term is entered; the run goes on from there. -/
theorem adoptTerm_bind_heeds {f : Unit → Action Node Unit}
    (hf : ∀ m, m.profile = n.profile.adopt t → Heeds (f ⟨⟩) m t) :
    Heeds (adoptTerm t >>= f) n t :=
  Action.Ensures.bind ((adoptTerm_profile t n).mono (fun _ _ hm => hm) fun _ _ h => h.1)
    fun _ m hm => hf m hm

theorem heeds_of_yield {p : Profile} {l : Option NodeId} (hlt : n.profile.hard.term < t)
    (hp : p = { n.profile.adopt t with queue := n.profile.queue ++ [.becomeFollower l] }) :
    p.Heeds t := by
  rw [hp]
  refine ⟨Nat.le_of_eq (Profile.term_adopt (Nat.le_of_lt hlt)).symm, Or.inr (Or.inl ?_)⟩
  simp [Profile.retires, stepsDown]

theorem yield_heeds {l : Option NodeId} (hopen : n.profile.closed = false)
    (hlt : n.profile.hard.term < t) :
    Heeds (adoptTerm t >>= fun _ => emit (.becomeFollower l)) n t :=
  (yield_profile hopen).mono (fun _ _ hm => heeds_of_yield hlt hm) fun _ _ h => h.1

theorem stepDownAndReplay_heeds {l : Option NodeId} {e : Event} (hopen : n.profile.closed = false)
    (hlt : n.profile.hard.term < t) :
    Heeds (adoptTerm t >>= fun _ => stepDownAndReplay l e) n t := by
  rw [adoptTerm_stepDownAndReplay]
  refine Action.Ensures.bind ((yield_profile hopen).mono (fun _ _ hm => hm) fun _ _ h => h.1) ?_
  intro _ m hm
  exact emit_heeds (by rw [hm]; exact hopen) (heeds_of_yield hlt hm)

/-! ## Followers -/

namespace Follower

theorem heeds_adopt {p : Profile} (hpost : n.profile.post = .follower)
    (hlt : n.profile.hard.term < t) (hp : p = n.profile.adopt t) : p.Heeds t := by
  rw [hp]
  exact ⟨Nat.le_of_eq (Profile.term_adopt (Nat.le_of_lt hlt)).symm, Or.inl hpost⟩

theorem onVoteRequest_heeds {r : VoteRequest} {caller : Caller}
    (hpost : n.profile.post = .follower) (hlt : n.profile.hard.term < r.term) :
    Heeds (onVoteRequest r caller) n r.term := by
  have hlt : n.hard.term < r.term := hlt
  have hempty : (Election.decide r n.hard n.log.lastId).isEmpty = false := by
    simp [Election.decide, Election.Decision.isEmpty, hlt]
  obtain ⟨-, hterm⟩ := Election.term_apply hempty
  unfold onVoteRequest
  apply Action.ensures_get_bind
  dsimp only
  generalize Election.decide r n.hard n.log.lastId = d at hempty hterm
  rw [if_pos (by rw [hempty]; rfl)]
  refine Action.Ensures.bind ((setHard_profile _ n).mono (fun _ _ hm => hm) fun _ _ h => h.1) ?_
  intro _ m hm
  have hm : m.profile.Heeds r.term := by
    rw [hm]
    exact ⟨Nat.le_of_eq hterm.symm, Or.inl hpost⟩
  have hanswer : ∀ k : Node, k.profile.Heeds r.term → Heeds (do
      let k ← get
      answer caller (.vote (.ok ⟨k.term, d.granted, k.log.lastId.index, k.log.lastId.term⟩)))
      k r.term := fun k hk => Action.ensures_get_bind ((answerVote_idle caller _).heeds hk)
  split
  · apply (resetTimer_idle m).heeds_bind
    intro _ k hk
    exact hanswer k (hk ▸ hm)
  · exact hanswer m hm

theorem onAppendRequest_heeds {r : AppendRequest} {caller : Caller}
    (hopen : n.profile.closed = false) (hpost : n.profile.post = .follower)
    (hlt : n.profile.hard.term < r.term) : Heeds (onAppendRequest r caller) n r.term := by
  unfold onAppendRequest
  apply adoptTerm_bind_heeds
  intro m hm
  have hopen : m.profile.closed = false := by
    rw [hm]
    exact hopen
  -- the term is heeded from here on; what follows leaves the profile, or stops the node
  have hm := heeds_adopt hpost hlt hm
  apply Idle.heeds_bind (idle_modify (by rfl))
  intro _ m1 hm1
  apply (resetTimer_idle m1).heeds_bind
  intro _ m2 hm2
  apply Action.ensures_get_bind
  have hm2 : m2.profile = m.profile := hm2.trans hm1
  rw [← hm2] at hm hopen
  have hlog : (tryLog (Replication.handle m2.id r m2.term m2.commit)).Ensures m2
      (fun _ k => k.profile = m2.profile) fun f _ => f.Stops := by
    refine (tryLog_leaves (Replication.handle_ensures m2.id r m2.term m2.commit m2.log)).mono ?_ ?_
    · rintro _ k ⟨l, w, rfl, -⟩
      rfl
    · rintro f k ⟨l, -, rfl, -⟩
      exact Or.inl rfl
  apply hlog.bind
  intro a k hk
  rw [← hk] at hm hopen
  dsimp only
  split
  · split
    · rename_i i hi
      have hcommit : Heeds (advanceCommit i) k r.term := by
        refine (advanceCommit_profile i hopen).mono_of_sure ?_
        rintro _ j (hj | hj)
        · exact hj ▸ hm
        · rw [hj]
          exact heeds_queue hm
      exact Action.Ensures.bind hcommit fun _ j hj => (answerAppend_idle caller _).heeds hj
    · exact (answerAppend_idle caller _).heeds hm
  · exact (answerAppend_idle caller _).heeds hm
  · exact Or.inr ⟨_, rfl, Error.isFatal_persistence _ _⟩

theorem handle_heeds {e : Event} (hopen : n.profile.closed = false)
    (hpost : n.profile.post = .follower) (ht : e.peerTerm? = some t)
    (hlt : n.profile.hard.term < t) : Heeds (handle e) n t := by
  have hadopt : Heeds (adoptTerm t) n t :=
    (adoptTerm_profile t n).mono (fun _ _ hm => heeds_adopt hpost hlt hm) fun _ _ h => h.1
  unfold handle
  apply Action.ensures_get_bind
  cases e with
  | voteRequest r caller =>
    obtain rfl := Option.some.inj ht
    exact onVoteRequest_heeds hpost hlt
  | appendRequest r caller =>
    obtain rfl := Option.some.inj ht
    exact heeds_ite_not (Nat.lt_asymm hlt) (onAppendRequest_heeds hopen hpost hlt)
  | timeoutNowRequest r caller =>
    obtain rfl := Option.some.inj ht
    apply heeds_ite_not (Nat.lt_asymm hlt)
    apply adoptTerm_bind_heeds
    intro m hm
    apply (answerTimeoutNow_idle caller true).heeds_bind
    intro _ k hk
    rw [hm] at hk
    exact emit_heeds (by rw [hk]; exact hopen) (heeds_adopt hpost hlt hk)
  | propose | transfer => cases ht
  | voteResult peer term r | appendResult peer term r | timeoutNowResult peer term r =>
    cases r with
    | ok r =>
      obtain rfl := Option.some.inj ht
      exact hadopt
    | error => cases ht

end Follower

/-! ## Candidates -/

namespace Candidate

theorem followNewer_heeds (hopen : n.profile.closed = false) (hlt : n.profile.hard.term < t) :
    Heeds (followNewer t) n t := by
  unfold followNewer
  exact Action.ensures_get_bind (heeds_ite hlt (yield_heeds hopen hlt))

theorem restart_heeds {caller : Caller} (hopen : n.profile.closed = false)
    (hlt : n.profile.hard.term < t) :
    Heeds (adoptTerm t >>= fun _ => answerTimeoutNow caller true >>= fun _ => startElection) n
      t := by
  apply adoptTerm_bind_heeds
  intro m hm
  apply (answerTimeoutNow_idle caller true).heeds_bind
  intro _ k hk
  rw [hm] at hk
  have hreached : t ≤ k.profile.hard.term := by
    rw [hk]
    exact Nat.le_of_eq (Profile.term_adopt (Nat.le_of_lt hlt)).symm
  refine (startElection_profile (by rw [hk]; exact hopen)).mono ?_ fun _ _ h => h.1
  rintro _ j (hj | hj)
  · rw [hj]
    exact Profile.heeds_standing hreached
  · rw [hj]
    exact heeds_queue (Profile.heeds_standing hreached)

theorem handle_heeds {e : Event} {votes : List NodeId} (hopen : n.profile.closed = false)
    (hpost : n.profile.post = .candidate votes) (ht : e.peerTerm? = some t)
    (hlt : n.profile.hard.term < t) (hover : n.profile.passesOver e = false) :
    Heeds (handle e) n t := by
  unfold handle
  apply Action.ensures_get_bind
  cases e with
  | voteRequest r caller =>
    obtain rfl := Option.some.inj ht
    exact heeds_ite hlt (stepDownAndReplay_heeds hopen hlt)
  | appendRequest r caller =>
    obtain rfl := Option.some.inj ht
    exact heeds_ite_not (Nat.lt_asymm hlt) (stepDownAndReplay_heeds hopen hlt)
  | timeoutNowRequest r caller =>
    obtain rfl := Option.some.inj ht
    exact heeds_ite_not (Nat.lt_asymm hlt) (restart_heeds hopen hlt)
  | propose | transfer => cases ht
  | voteResult peer term r =>
    cases r with
    | ok r =>
      obtain rfl := Option.some.inj ht
      have hterm : term = n.term := by
        unfold Profile.passesOver at hover
        rw [hpost] at hover
        exact bne_eq_false_iff_eq.1 hover
      have hvote : Election.isVote n.term r.term r.granted = .error (.higherTerm r.term) := by
        unfold Election.isVote
        exact if_pos hlt
      refine heeds_ite hterm ?_
      unfold onVote
      apply Action.ensures_get_bind
      rw [hvote]
      exact followNewer_heeds hopen hlt
    | error => cases ht
  | appendResult peer request r | timeoutNowResult peer request r =>
    cases r with
    | ok r =>
      obtain rfl := Option.some.inj ht
      exact followNewer_heeds hopen hlt
    | error => cases ht

end Candidate

/-! ## Leaders -/

namespace Leader

theorem handle_heeds {e : Event} {transfer : Option Transfer} (hopen : n.profile.closed = false)
    (hpost : n.profile.post = .leader transfer) (ht : e.peerTerm? = some t)
    (hlt : n.profile.hard.term < t) (hover : n.profile.passesOver e = false) :
    Heeds (handle e) n t := by
  unfold Profile.passesOver at hover
  rw [hpost] at hover
  unfold handle
  apply Action.ensures_get_bind
  cases e with
  | voteRequest r caller | appendRequest r caller | timeoutNowRequest r caller =>
    obtain rfl := Option.some.inj ht
    exact heeds_ite hlt (stepDownAndReplay_heeds hopen hlt)
  | propose | transfer => cases ht
  | voteResult peer term r =>
    cases r with
    | ok r =>
      obtain rfl := Option.some.inj ht
      exact heeds_ite hlt (yield_heeds hopen hlt)
    | error => cases ht
  | appendResult peer request r =>
    cases r with
    | ok r =>
      obtain rfl := Option.some.inj ht
      have hverdict : Replication.verdict n.term r = .higherTerm r.term := by
        unfold Replication.verdict
        exact if_pos hlt
      unfold onAppendResult
      refine Action.ensures_get_bind (heeds_ite (bne_eq_false_iff_eq.1 hover) ?_)
      refine Idle.heeds_bind (modifyLeader_idle fun _ => rfl) fun _ m hm => ?_
      dsimp only
      rw [hverdict]
      rw [← hm] at hopen hlt
      exact yield_heeds hopen hlt
    | error => cases ht
  | timeoutNowResult peer term r =>
    cases r with
    | ok r =>
      obtain rfl := Option.some.inj ht
      unfold onTimeoutNowResult
      exact Action.ensures_get_bind (heeds_ite (bne_eq_false_iff_eq.1 hover)
        (heeds_ite hlt (yield_heeds hopen hlt)))
    | error => cases ht

end Leader

/-! ## All roles -/

/-- **Newer terms.** A newer term that is not passed over is heeded. -/
theorem handle_heeds {e : Event} (hopen : n.profile.closed = false) (ht : e.peerTerm? = some t)
    (hlt : n.profile.hard.term < t) (hover : n.profile.passesOver e = false) :
    Heeds (handle e) n t := by
  have hpost : n.profile.post = n.role.post := rfl
  unfold handle
  apply Action.ensures_get_bind
  cases hrole : n.role with
  | follower timer =>
    rw [hrole] at hpost
    exact Follower.handle_heeds hopen hpost ht hlt
  | candidate timer votes =>
    rw [hrole] at hpost
    exact Candidate.handle_heeds hopen hpost ht hlt hover
  | leader l =>
    rw [hrole] at hpost
    exact Leader.handle_heeds hopen hpost ht hlt hover

/-- What is passed over changes nothing. -/
theorem handle_of_passesOver {e : Event} (h : n.profile.passesOver e = true) :
    (handle e).run n = .ok ⟨⟩ n := by
  have hpost : n.profile.post = n.role.post := rfl
  have hskip : ∀ {t : Nat} {y : Action Node Unit}, (t != n.profile.hard.term) = true →
      (if t = n.term then y else pure ⟨⟩ : Action Node Unit).run n = .ok ⟨⟩ n := by
    intro t y ht
    have hne : ¬ t = n.term := bne_iff_ne.1 ht
    rw [if_neg hne]
    rfl
  unfold Profile.passesOver at h
  cases hrole : n.role with
  | follower timer =>
    rw [hpost, hrole] at h
    cases h
  | candidate timer votes =>
    rw [hpost, hrole] at h
    rw [run_handle_candidate hrole]
    cases e with
    | voteResult peer term r => exact hskip h
    | _ => cases h
  | leader l =>
    rw [hpost, hrole] at h
    rw [run_handle_leader hrole]
    cases e with
    | appendResult peer request r => exact hskip h
    | timeoutNowResult peer term r => exact hskip h
    | _ => cases h

end Node

end Raft
