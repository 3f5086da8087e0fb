import Raft.Proofs.Handover.Leader
import Raft.Proofs.Network.Basic

/-!
# Handing over in the event loop

Whatever the event loop handles, a leader with a transfer under way leaves its log alone, and nobody
is asked to take over but the target of a transfer.

* `Node.handle_hands`, `Work.run_goes`: whatever comes up.
* `Site.handover`: what is seen at the place of a node.
* `Server.handle_goes`: a server handles something.
-/

namespace Raft

open Handover (Stays Prepares Goes)

/-- The request to take over that a note tells of, with its target. -/
def Note.asked? : Note → Option (NodeId × TimeoutNowRequest)
  | .asks target q => some (target, q)
  | .tells .. => none

/-! ## Without a transfer -/

section Turns

variable {src : Option Event} {a b : Profile}

/-- Without a transfer under way nobody is asked, and only a call begins one. -/
theorem Turn.unasked (h : Turn src a b) (hnone : a.post.transfer? = none)
    (hsrc : ∀ target c, src ≠ some (.transfer target c)) :
    b.post.transfer? = none
      ∧ b.notes.filterMap Note.asked? = a.notes.filterMap Note.asked? := by
  have hlacks : ∀ {t}, a.post ≠ .leader (some t) := by
    intro t ht
    rw [ht] at hnone
    cases hnone
  cases h with
  | settle l rest =>
    refine ⟨rfl, ?_⟩
    have howed : a.owed (Profile.settlement l) = [] := Profile.owed_of_none (by
      unfold Profile.caller?
      rw [hnone]
      rfl)
    rw [howed, List.append_nil]
  | begin target caller _ h => exact absurd h (hsrc target caller)
  | refuse target caller _ h => exact absurd h (hsrc target caller)
  | ask t hpost => exact absurd hpost hlacks
  | accept _ _ t _ _ _ _ hpost => exact absurd hpost hlacks
  | abort t _ hpost => exact absurd hpost hlacks
  | follow | queue | take | yield => exact ⟨hnone, rfl⟩
  | stand | count | lead => exact ⟨rfl, rfl⟩

theorem Turns.unasked (h : Turns src a b) (hnone : a.post.transfer? = none)
    (hsrc : ∀ target c, src ≠ some (.transfer target c)) :
    b.notes.filterMap Note.asked? = a.notes.filterMap Note.asked? := by
  refine (h.induct (P := fun p => p.post.transfer? = none
    ∧ p.notes.filterMap Note.asked? = a.notes.filterMap Note.asked?) ?_ ⟨hnone, rfl⟩).2
  rintro x y ⟨hx, hsame⟩ hturn
  obtain ⟨hy, hsame'⟩ := hturn.unasked hx hsrc
  exact ⟨hy, hsame'.trans hsame⟩

end Turns

namespace Node

variable {α : Type} {n m : Node} {x : Action Node α} {src : Option Event}

theorem asks_eq (n : Node) : n.handover.asks = n.profile.notes.filterMap Note.asked? := by
  unfold handover profile
  dsimp only
  rw [List.filterMap_filterMap]
  refine List.filterMap_congr fun d _ => ?_
  unfold Departure.note? Effect.asked? Effect.request?
  cases d.effect with
  | send target r => cases r <;> rfl
  | answer caller a => cases a <;> rfl

theorem transfer_eq (n : Node) : n.handover.transfer = n.profile.post.transfer? := by
  unfold handover leader? profile
  dsimp only
  cases n.role <;> rfl

theorem prepares_of_turns {p q : Profile} (h : Turns src p q) (hpost : p.post = n.profile.post)
    (hnotes : p.notes = n.profile.notes) (hsaid : m.profile.notes = q.notes)
    (hnone : n.handover.transfer = none) (hsrc : ∀ target c, src ≠ some (.transfer target c)) :
    n.handover.Prepares src m.handover := by
  rw [transfer_eq, ← hpost] at hnone
  refine .free ?_ ?_ fun target c hcall => absurd hcall (hsrc target c)
  · rw [transfer_eq, ← hpost]
    exact hnone
  · rw [asks_eq, asks_eq, hsaid, ← hnotes]
    exact h.unasked hnone hsrc

theorem hands_of_turns {p : Profile} (hpost : p.post = n.profile.post)
    (hnotes : p.notes = n.profile.notes) (hnone : n.handover.transfer = none)
    (hsrc : ∀ target c, src ≠ some (.transfer target c))
    (h : x.Ensures n (fun _ m => Turns src p m.profile) fun f m => Halts src p f m.profile) :
    Hands src n.handover x n := by
  intro _
  refine h.mono (fun _ m hm => Or.inl ?_) ?_
  · exact prepares_of_turns hm hpost hnotes rfl hnone hsrc
  · rintro f m ⟨k, hk, hsaid, -⟩
    exact prepares_of_turns hk hpost hnotes hsaid hnone hsrc

/-! ## Events -/

theorem handle_hands {e : Event} (hopen : n.profile.closed = false)
    (hstays : e.IsRequest ∨ n.profile.retires = false) :
    Hands (some e) n.handover (handle e) n := by
  by_cases hx : n.handover.transfer = none
  · by_cases hcall : ∃ target c, e = .transfer target c
    · obtain ⟨target, c, rfl⟩ := hcall
      unfold handle
      refine hands_get_bind ?_
      cases hrole : n.role with
      | follower timer => exact hands_get_bind (Abides.hands (perform_abides rfl))
      | candidate timer votes => exact hands_get_bind (Abides.hands (perform_abides rfl))
      | leader l =>
        rw [handover_of_leader hrole] at hx
        exact hands_get_bind (Leader.onTransfer_hands rfl hrole hx (hstays.resolve_left fun h => h))
    · have hadmits : n.profile.Admits e :=
        ⟨hopen, hstays, fun target c he => absurd ⟨target, c, he⟩ hcall⟩
      refine hands_of_turns rfl rfl hx ?_
        ((handle_makes rfl hadmits (Turns.refl _)).weaken fun _ _ hm => hm.1)
      rintro target c he
      exact hcall ⟨target, c, Option.some.inj he⟩
  · obtain ⟨l, t, hrole, -⟩ := exists_of_transfer hx
    unfold handle
    refine hands_get_bind ?_
    rw [hrole]
    exact Leader.handle_hands hx hopen hstays

/-! ## Ticks and role events -/

theorem tick_hands (hopen : n.profile.closed = false) : Hands none n.handover tick n := by
  by_cases hx : n.handover.transfer = none
  · exact hands_of_turns rfl rfl hx nofun
      ((tick_makes hopen (Turns.refl _)).weaken fun _ _ hm => hm.1)
  · obtain ⟨l, t, hrole, -⟩ := exists_of_transfer hx
    unfold tick
    refine hands_get_bind ?_
    rw [hrole]
    exact Leader.tick_abides.hands

theorem onStepDown_abides (leader : Option NodeId) {l : LeaderState} (hrole : n.role = .leader l) :
    Abides (Leader.onStepDown leader) n := by
  refine (Leader.onStepDown_leaves leader hrole).mono_of_sure ?_
  rintro _ _ rfl
  rw [handover_of_leader hrole, handover_of_leader (l := { l with transfer := none }) rfl]
  have hnobody : ((Leader.redirects n.applier.waiters leader ++ Leader.parting leader l).map
      n.departure).filterMap (fun d => d.effect.asked?) = [] := by
    refine List.filterMap_eq_nil_iff.2 fun d hd => ?_
    obtain ⟨e, he, rfl⟩ := List.mem_map.1 hd
    rcases List.mem_append.1 he with he | he
    · obtain ⟨w, -, rfl⟩ := List.mem_map.1 he
      rfl
    · obtain ⟨c, x, rfl⟩ := Leader.answer_of_mem_parting he
      rfl
  refine ⟨rfl, Nat.le_max_left _ _, ?_, nofun, fun _ _ => Nat.le_refl _⟩
  simp only [List.filterMap_append, hnobody, List.append_nil]

/-- Whoever follows has no transfer under way. -/
theorem become_follower_abides : Abides (become .follower) n := by
  refine (become_leaves .follower n).mono ?_ ?_
  · rintro _ _ ⟨r, seed, hr, rfl⟩
    cases hr with
    | follower timer =>
      exact ⟨rfl, Nat.le_max_left _ _, rfl, nofun, fun hne => absurd rfl hne⟩
  · rintro f _ ⟨⟨-, rfl⟩, -⟩
    exact Stays.refl _

/-- A leader takes no other role than that of a follower. -/
theorem become_refused {l : LeaderState} (hrole : n.role = .leader l) {target : RoleKind}
    (htarget : target ≠ .follower) :
    (become target).Ensures n (fun _ _ => False) fun _ m => m = n := by
  refine (become_leaves target n).mono ?_ fun _ _ hf => hf.1.2
  rintro _ _ ⟨r, seed, hr, -⟩
  cases hr with
  | follower => exact htarget rfl
  | candidate _ old h => cases hrole.symm.trans h
  | leader _ old votes h => cases hrole.symm.trans h

theorem becomeFollower_abides (leader : Option NodeId) :
    Abides (handleRole (.becomeFollower leader)) n := by
  unfold handleRole
  refine Abides.bind (Action.ensures_modify (stays_of_leader? rfl rfl rfl rfl)) fun _ k => ?_
  refine abides_get_bind ?_
  cases hrole : k.role with
  | follower timer => exact abides_pure
  | candidate timer votes => exact become_follower_abides
  | leader l => exact (onStepDown_abides leader hrole).bind fun _ j => become_follower_abides

theorem handleRole_hands {e : RoleEvent} (hopen : n.profile.closed = false)
    (hstays : ∀ x, e = .replay x → x.IsRequest ∨ n.profile.retires = false) :
    Hands (Work.role e).source n.handover (handleRole e) n := by
  by_cases hreplay : ∃ x, e = .replay x
  · obtain ⟨x, rfl⟩ := hreplay
    exact handle_hands hopen (hstays x rfl)
  · have hsrc : (Work.role e).source = none := by
      cases e with
      | replay x => exact absurd ⟨x, rfl⟩ hreplay
      | _ => rfl
    rw [hsrc]
    by_cases hx : n.handover.transfer = none
    · have hcomes : (Work.role e).Comes n := by
        cases e with
        | replay x => exact absurd ⟨x, rfl⟩ hreplay
        | _ => trivial
      have hturns := Work.run_takes hopen hcomes
      rw [hsrc] at hturns
      exact hands_of_turns (p := n.pending e) rfl rfl hx nofun hturns
    · obtain ⟨l, t, hrole, -⟩ := exists_of_transfer hx
      have hrefused : ∀ {target : RoleKind} (y : Action Node Unit), target ≠ .follower →
          Hands none n.handover (become target >>= fun _ => y) n := fun y htarget hn =>
        Action.Ensures.bind ((become_refused hrole htarget).mono (fun _ _ hf => hf)
          fun _ m hm => hm ▸ hn) fun _ _ hf => hf.elim
      cases e with
      | becomeFollower leader => exact (becomeFollower_abides leader).hands
      | becomeCandidate => exact hrefused startElection nofun
      | becomeLeader => exact hrefused Leader.onElected nofun
      | newCommit i => exact Abides.hands (Action.ensures_modify (stays_of_leader? rfl rfl rfl rfl))
      | replay x => exact absurd ⟨x, rfl⟩ hreplay

end Node

/-- **Whatever comes up.** -/
theorem Work.run_goes {n : Node} {w : Work} (hopen : n.profile.closed = false)
    (hstays : ∀ e, w.source = some e → e.IsRequest ∨ n.profile.retires = false) :
    w.run.Ensures n (fun _ m => n.handover.Goes w.source m.handover)
      fun _ m => n.handover.Prepares w.source m.handover := by
  have hstart := Prepares.refl w.source n.handover
  cases w with
  | role e =>
    refine Node.handleRole_hands hopen ?_ hstart
    rintro x rfl
    exact hstays x rfl
  | tick => exact Node.tick_hands hopen hstart
  | event e => exact Node.handle_hands hopen (hstays e rfl) hstart

/-! ## Servers -/

/-- What is seen at the place of a node. A server whose event loop ended leads no more. -/
def Network.Site.handover : Network.Site → Handover
  | .up s => { s.node.handover with leads := if s.isRunning then s.node.handover.leads else none }
  | .down r => { entries := r.log.entries }

namespace Server

variable {s : Server} {w : Work}

theorem handover_of_running (hrun : s.isRunning = true) :
    (Network.Site.up s).handover = s.node.handover := by
  show ({ s.node.handover with leads := _ } : Handover) = _
  rw [if_pos hrun]

/-- **A server handles something.** -/
theorem handle_goes (hrun : s.isRunning = true) (hopen : s.node.profile.closed = false)
    (hstays : ∀ e, w.source = some e → e.IsRequest ∨ s.node.profile.retires = false) :
    s.node.handover.Goes w.source (Network.Site.up (s.handle w)).handover := by
  have h := Work.run_goes hopen hstays
  unfold Action.Ensures at h
  unfold handle
  cases hx : w.run.run s.node with
  | ok a n =>
    rw [hx] at h
    rwa [handover_of_running]
    exact hrun
  | error f n =>
    rw [hx] at h
    cases f with
    | overflow => exact Or.inl (h.stop none)
    | error e =>
      dsimp only [Action.outcome]
      split
      · exact Or.inl (h.stop none)
      · refine Or.inl ?_
        rwa [handover_of_running]
        exact hrun

end Server

end Raft
