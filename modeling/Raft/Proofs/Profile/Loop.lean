import Raft.Proofs.Node.Loop
import Raft.Proofs.Profile.Leader

/-!
# Turns of the loop

Whatever comes up in the loop, an event, a tick or a role event, the node makes turns. A role event
is taken from the queue before it is handled; the turns are those of the node that still has it.

* `Node.handle_makes`, `Node.tick_makes`: an event or a tick.
* `Work.run_takes`: whatever comes up.
-/

namespace Raft

namespace Node

variable {src : Option Event} {o : Profile} {n : Node}

theorem run_handle_candidate {timer : ElectionTimer} {votes : List NodeId}
    (hrole : n.role = .candidate timer votes) (e : Event) :
    (handle e).run n = (Candidate.handle e).run n := by
  simp only [handle, EStateM.run_bind, EStateM.run_get, hrole]

theorem run_handle_leader {l : LeaderState} (hrole : n.role = .leader l) (e : Event) :
    (handle e).run n = (Leader.handle e).run n := by
  simp only [handle, EStateM.run_bind, EStateM.run_get, hrole]

/-- **An event.** Whatever comes in, the node makes turns. -/
theorem handle_makes {e : Event} (hsrc : src = some e) (he : n.profile.Admits e) :
    Makes src o (handle e) n := by
  have hpost : n.profile.post = n.role.post := rfl
  unfold handle
  apply takes_get_bind
  cases hrole : n.role with
  | follower timer =>
    rw [hrole] at hpost
    exact Follower.handle_makes hsrc he hpost
  | candidate timer votes =>
    rw [hrole] at hpost
    exact Candidate.handle_makes hsrc he hpost
  | leader l => exact Leader.handle_makes hsrc he hrole

theorem tick_makes (hopen : n.profile.closed = false) : Makes src o tick n := by
  have hpost : n.profile.post = n.role.post := rfl
  unfold tick
  apply takes_get_bind
  cases hrole : n.role with
  | follower timer => exact Follower.tick_makes hopen
  | candidate timer votes =>
    rw [hrole] at hpost
    exact Candidate.tick_makes hopen hpost
  | leader l => exact Leader.tick_makes

/-! ## Role events -/

/-- The profile of a node that has still to take a role event. -/
def pending (n : Node) (e : RoleEvent) : Profile :=
  { n.profile with queue := e :: n.profile.queue }

/-- Another role event than one to step down is taken. -/
theorem takes_pending (e : RoleEvent) (hstays : stepsDown e = false) :
    Turn src (n.pending e) n.profile :=
  Turn.take (a := n.pending e) e n.profile.queue rfl hstays

theorem become_follower_profile (h : n.role.kind ≠ .follower) :
    (become .follower).Ensures n (fun _ m => m.profile = { n.profile with post := .follower })
      fun _ _ => False := by
  refine (become_follower_leaves h).weaken ?_
  rintro _ _ ⟨timer, seed, rfl⟩
  rfl

theorem become_candidate_profile (n : Node) :
    (become .candidate).Ensures n
      (fun _ m => n.profile.post = .follower
        ∧ m.profile = { n.profile with post := .candidate [] })
      fun _ m => m = n := by
  refine (become_leaves .candidate n).mono ?_ fun _ _ hf => hf.1.2
  rintro _ _ ⟨r, seed, hr, rfl⟩
  cases hr with
  | candidate timer old hrole =>
    refine ⟨?_, rfl⟩
    simp only [profile, hrole, Role.post]

theorem become_leader_profile (n : Node) :
    (become .leader).Ensures n
      (fun _ m => (∃ votes, n.profile.post = .candidate votes
          ∧ majority n.profile.voters ≤ votes.length)
        ∧ m.profile = { n.profile with post := .leader none })
      fun _ m => m = n := by
  refine (become_leaves .leader n).mono ?_ fun _ _ hf => hf.1.2
  rintro _ _ ⟨r, seed, hr, rfl⟩
  cases hr with
  | leader timer old votes hrole hmajority =>
    refine ⟨⟨votes, ?_, hmajority⟩, rfl⟩
    simp only [profile, hrole, Role.post]

theorem becomeFollower_profile (leader : Option NodeId) (n : Node) :
    (handleRole (.becomeFollower leader)).Ensures n
      (fun _ m => m.profile = { n.profile with
        post := .follower
        notes := n.profile.notes ++ n.profile.owed (Profile.settlement leader) })
      fun _ _ => False := by
  unfold handleRole
  refine Action.ensures_modify_bind (Action.ensures_get_bind ?_)
  generalize hk : ({ n with view := _ } : Node) = k
  have hprofile : k.profile = n.profile := by
    rw [← hk]
    cases leader <;> rfl
  have hpost : n.profile.post = k.role.post := by
    rw [← hprofile]
    rfl
  have hnone : n.profile.post.transfer? = none →
      n.profile.owed (Profile.settlement leader) = [] := by
    intro h
    apply Profile.owed_of_none
    unfold Profile.caller?
    rw [h]
    rfl
  cases hrole : k.role with
  | follower timer =>
    rw [hrole] at hpost
    have hfollower : n.profile.post = .follower := hpost
    refine Action.ensures_pure ?_
    rw [hprofile, hnone (by rw [hpost]; rfl), List.append_nil, ← hfollower]
  | candidate timer votes =>
    rw [hrole] at hpost
    refine (become_follower_profile (by rw [hrole]; simp [Role.kind])).weaken fun _ m hm => ?_
    rw [hm, hprofile, hnone (by rw [hpost]; rfl), List.append_nil]
  | leader l =>
    refine (Leader.onStepDown_profile leader hrole).bind ?_
    rintro _ m ⟨hkind, hm⟩
    refine (become_follower_profile (by rw [hkind]; simp)).weaken fun _ j hj => ?_
    rw [hj, hm, hprofile]

theorem becomeCandidate_takes (hopen : n.profile.closed = false) :
    (handleRole .becomeCandidate).Ensures n
      (fun _ m => Turns src (n.pending .becomeCandidate) m.profile)
      fun f m => Halts src (n.pending .becomeCandidate) f m.profile := by
  have htake : Turns src (n.pending .becomeCandidate) n.profile :=
    (takes_pending .becomeCandidate rfl).turns
  unfold handleRole
  refine Action.Ensures.bind ((become_candidate_profile n).mono (fun _ _ h => h) ?_) ?_
  · rintro f m rfl
    exact htake.halts
  · rintro _ m ⟨hpost, hm⟩
    refine startElection_ensures_turns (by rw [hm]; exact hopen) ?_ ⟨_, htake, by rw [hm]⟩
    rw [hm]
    exact htake.step (Turn.stand n.profile.hard.term
      (fun x hx => by rw [hpost] at hx; cases hx) (Nat.le_refl _))

theorem becomeLeader_takes (hopen : n.profile.closed = false) :
    (handleRole .becomeLeader).Ensures n
      (fun _ m => Turns src (n.pending .becomeLeader) m.profile)
      fun f m => Halts src (n.pending .becomeLeader) f m.profile := by
  have htake : Turns src (n.pending .becomeLeader) n.profile :=
    (takes_pending .becomeLeader rfl).turns
  unfold handleRole
  refine Action.Ensures.bind ((become_leader_profile n).mono (fun _ _ h => h) ?_) ?_
  · rintro f m rfl
    exact htake.halts
  · rintro _ m ⟨⟨votes, hpost, hmajority⟩, hm⟩
    refine (Leader.onElected_makes (by rw [hm]; exact hopen) ?_).weaken fun _ _ hk => hk.1
    rw [hm]
    exact htake.step (Turn.lead votes hpost hmajority)

end Node

/-! ## Work -/

/-- The profile of a node that has still to take up a work. -/
def Work.profile (n : Node) : Work → Profile
  | .role e => n.pending e
  | .tick => n.profile
  | .event _ => n.profile

/-- A work that can come up in a node: a request that was kept, or an event. -/
def Work.Comes (n : Node) : Work → Prop
  | .role (.replay e) => e.IsRequest
  | .event e => n.profile.Admits e
  | _ => True

/-- **Whatever comes up, the node makes turns.** -/
theorem Work.run_takes {n : Node} {w : Work} (hopen : n.profile.closed = false)
    (hw : w.Comes n) :
    w.run.Ensures n (fun _ m => Turns w.source (w.profile n) m.profile)
      fun f m => Halts w.source (w.profile n) f m.profile := by
  cases w with
  | role e =>
    cases e with
    | becomeFollower leader =>
      refine (Node.becomeFollower_profile leader n).mono_of_sure fun _ m hm => ?_
      rw [hm]
      exact (Turn.settle (a := n.pending (.becomeFollower leader)) leader n.profile.queue rfl).turns
    | becomeCandidate => exact Node.becomeCandidate_takes hopen
    | becomeLeader => exact Node.becomeLeader_takes hopen
    | newCommit i =>
      exact Action.ensures_modify (Node.takes_pending (.newCommit i) rfl).turns
    | replay e =>
      have hadmits : n.profile.Admits e := by
        refine ⟨hopen, Or.inl hw, ?_⟩
        rintro target caller rfl
        cases hw
      have htake : Turns (some e) (n.pending (.replay e)) n.profile :=
        (Node.takes_pending (.replay e) rfl).turns
      exact (Node.handle_makes rfl hadmits htake).weaken fun _ _ hm => hm.1
  | tick => exact (Node.tick_makes hopen (Turns.refl _)).weaken fun _ _ hm => hm.1
  | event e => exact (Node.handle_makes rfl hw (Turns.refl _)).weaken fun _ _ hm => hm.1

end Raft
