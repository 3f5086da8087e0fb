import Raft.Proofs.Node.Loop

/-!
# What a node has committed

A node commits no more than its log holds, and applies no more than it has committed. Whatever it is
sent, by a leader or by somebody who is none, the committed part of its log stays as it is. All that
is asked of an append request is that its entries follow its position.

* `Outline.Intact o`: nothing is committed beyond the log, and nothing told or applied beyond what is
  committed; `Outline.Firm o` adds what waits in the queue of a node that runs.
* `Outline.Upholds o o'`: what was committed stays committed.
* `Move.upholds`: one move; `Work.run_upholds`: whatever the event loop handles.
-/

namespace Raft

/-- The entries of an append request follow its position. -/
def Event.InOrder : Event → Prop
  | .appendRequest r _ => Consecutive r.prevIndex r.entries
  | _ => True

variable {l new : List Entry}

/-- A log that agrees with all of a request reaches as far as the request does. -/
theorem AppendRequest.HeldBy.last_le {r : AppendRequest} (h : r.HeldBy l)
    (hr : Consecutive r.prevIndex r.entries) : r.last ≤ l.length := by
  unfold AppendRequest.last
  rcases Nat.eq_zero_or_pos r.entries.length with hnil | hpos
  · rw [hnil]
    exact le_length_of_termAt h.prev
  · have hlast : r.entries.length - 1 < r.entries.length := by omega
    obtain ⟨x, hx, -⟩ := knows_iff_exists.1 (h.entries _ (List.getElem_mem hlast))
    have hindex := hr _ _ (List.getElem?_eq_getElem hlast)
    have := (le_length_of_entryAt hx).2
    omega

namespace Node

/-! ## Outlines -/

namespace Outline

/-- What can wait in the queue of a node that has committed its log up to an index. -/
inductive Queued (commit : Nat) : List RoleEvent → Prop
  | nil : Queued commit []
  | inform (i : Nat) (hi : i ≤ commit) : Queued commit [.newCommit i]
  | yield (l : Option NodeId) : Queued commit [.becomeFollower l]
  | postpone (l : Option NodeId) (e : Event) (he : e.InOrder) :
    Queued commit [.becomeFollower l, .replay e]
  | replay (e : Event) (he : e.InOrder) : Queued commit [.replay e]
  | stand : Queued commit [.becomeCandidate]
  | lead : Queued commit [.becomeLeader]

/-- The log reaches up to the commit index, and the apply loop is not beyond it. -/
structure Intact (o : Outline) : Prop where
  positioned : Positioned o.log
  le_length : o.commit ≤ o.log.length
  signals : ∀ i ∈ o.signals, i ≤ o.commit
  told : o.applier.commit ≤ o.commit
  applied : o.applier.lastApplied ≤ o.commit

/-- A node that runs and is intact. -/
structure Firm (o : Outline) : Prop extends Intact o where
  queue : Queued o.commit o.queue
  opened : o.closed = false

/-- What was committed stays committed. -/
structure Upholds (o o' : Outline) : Prop where
  commit_le : o.commit ≤ o'.commit
  take_eq : o'.log.take o.commit = o.log.take o.commit

/-- What a run that fails leaves. A node that survives the failure can go on. -/
structure Falls (o : Outline) (f : Failure Error) (o' : Outline) : Prop where
  intact : o'.Intact
  upholds : o.Upholds o'
  firm : (∃ e, f = .error e ∧ e.isFatal = false) → o'.Firm

variable {o o' o'' : Outline} {f : Failure Error}

theorem Upholds.refl (o : Outline) : o.Upholds o := ⟨Nat.le_refl _, rfl⟩

theorem Upholds.trans (h : o.Upholds o') (h' : o'.Upholds o'') : o.Upholds o'' := by
  refine ⟨Nat.le_trans h.commit_le h'.commit_le, ?_⟩
  have hle : o.commit = min o.commit o'.commit := (Nat.min_eq_left h.commit_le).symm
  rw [← h.take_eq, hle, ← List.take_take, h'.take_eq, List.take_take]

theorem Upholds.of_log (hlog : o'.log = o.log) (hle : o.commit ≤ o'.commit) : o.Upholds o' :=
  ⟨hle, by rw [hlog]⟩

/-- Adding to a log leaves what is committed. -/
theorem Upholds.of_append (h : o.Intact) (hlog : o'.log = o.log ++ new)
    (hcommit : o'.commit = o.commit) : o.Upholds o' := by
  refine ⟨Nat.le_of_eq hcommit.symm, ?_⟩
  rw [hlog, List.take_append_of_le_length h.le_length]

theorem Firm.falls (h : o'.Firm) (hup : o.Upholds o') : o.Falls f o' :=
  ⟨h.toIntact, hup, fun _ => h⟩

theorem Upholds.falls (h : o.Upholds o') (hf : o'.Falls f o'') : o.Falls f o'' :=
  { hf with upholds := h.trans hf.upholds }

theorem Firm.of_mute (h : o.Firm) (hm : o'.mute = o.mute) : o'.Firm ∧ o.Upholds o' := by
  obtain ⟨self, members, voters, stance, hard, stored, commit, log, queue, closed, signals, effects,
    applier⟩ := o
  obtain ⟨-, -, -, -, -, -, rfl, rfl, rfl, rfl, rfl, -, rfl⟩ := Outline.mk.inj hm
  exact ⟨⟨⟨h.positioned, h.le_length, h.signals, h.told, h.applied⟩, h.queue, h.opened⟩,
    ⟨Nat.le_refl _, rfl⟩⟩

end Outline

open Outline (Intact Firm Upholds Falls Queued)

/-! ## Moves -/

section Moves

variable {src : Option Event} {o o' : Outline} {f : Failure Error}

/-- A commit index that the log reaches is taken over. -/
theorem firm_advance (h : o.Firm) {i : Nat} (hlt : o.commit < i) (hi : i ≤ o.log.length) :
    Firm { o with commit := i, queue := [.newCommit i] }
      ∧ o.Upholds { o with commit := i, queue := [.newCommit i] } := by
  have hle := Nat.le_of_lt hlt
  refine ⟨?_, Upholds.of_log rfl hle⟩
  exact
    { positioned := h.positioned
      le_length := hi
      signals := fun j hj => Nat.le_trans (h.signals j hj) hle
      told := Nat.le_trans h.told hle
      applied := Nat.le_trans h.applied hle
      queue := .inform i (Nat.le_refl i)
      opened := h.opened }

/-- What the first role event in the queue says about itself and the others. -/
theorem queued_cons {commit : Nat} {e : RoleEvent} {rest : List RoleEvent}
    (h : Queued commit (e :: rest)) :
    Queued commit rest ∧ (stepsDown e = false → rest = [])
      ∧ (∀ i, e = .newCommit i → i ≤ commit) ∧ ∀ x, e = .replay x → x.InOrder := by
  refine ⟨?_, ?_, ?_, ?_⟩
  · cases h with
    | postpone l x hx => exact .replay x hx
    | _ => exact .nil
  · intro hstays
    cases h with
    | postpone => cases hstays
    | _ => rfl
  · rintro i rfl
    cases h with
    | inform _ hi => exact hi
  · rintro x rfl
    cases h with
    | replay _ hx => exact hx

/-- **One move.** A node that runs stays intact, and what it committed stays. -/
theorem Move.upholds (h : o.Firm) (hsrc : ∀ e, src = some e → e.InOrder) (hmove : Move src o o') :
    o'.Firm ∧ o.Upholds o' := by
  cases hmove with
  | merge r caller l _ _ _ _ hl =>
    refine ⟨{ h with
      positioned := hl.positioned h.positioned
      le_length := hl.le_length h.le_length }, ?_⟩
    exact ⟨Nat.le_refl _, hl.take_eq h.le_length⟩
  | learn r caller i hr _ _ _ hheld hlt hi =>
    have hr : Consecutive r.prevIndex r.entries := hsrc _ hr
    -- the log reaches as far as the request, and what is learned no further
    have hlast := (hheld hr).last_le hr
    exact firm_advance h hlt (by omega)
  | commit i m _ _ hlt hterm =>
    obtain ⟨e, he, -⟩ := Option.map_eq_some_iff.1 hterm
    exact firm_advance h hlt (le_length_of_entryAt he).2
  | lead | append =>
    refine ⟨{ h with
      positioned := h.positioned.append_last rfl
      le_length := ?_ }, Upholds.of_append h.toIntact rfl rfl⟩
    rw [List.length_append]
    exact Nat.le_add_right_of_le h.le_length
  | inform i rest hqueue =>
    have hq := h.queue
    rw [hqueue] at hq
    obtain ⟨hrest, -, hi, -⟩ := queued_cons hq
    refine ⟨{ h with signals := fun j hj => ?_, queue := hrest }, .of_log rfl (Nat.le_refl _)⟩
    rcases List.mem_append.1 hj with hj | hj
    · exact h.signals j hj
    · rw [List.mem_singleton.1 hj]
      exact hi i rfl
  | settle l rest hqueue =>
    have hq := h.queue
    rw [hqueue] at hq
    exact ⟨{ h with queue := (queued_cons hq).1 }, .of_log rfl (Nat.le_refl _)⟩
  | take e rest hqueue =>
    have hq := h.queue
    rw [hqueue] at hq
    exact ⟨{ h with queue := (queued_cons hq).1 }, .of_log rfl (Nat.le_refl _)⟩
  | yield l => exact ⟨{ h with queue := .yield l }, .of_log rfl (Nat.le_refl _)⟩
  | postpone e l he =>
    exact ⟨{ h with queue := .postpone l e (hsrc e he) }, .of_log rfl (Nat.le_refl _)⟩
  | summon => exact ⟨{ h with queue := .stand }, .of_log rfl (Nat.le_refl _)⟩
  | elect => exact ⟨{ h with queue := .lead }, .of_log rfl (Nat.le_refl _)⟩
  -- the rest touches neither the log nor what is committed
  | utter | adopt | grant | stand | count | tally =>
    exact ⟨{ h with }, .of_log rfl (Nat.le_refl _)⟩
  | register | dismiss => exact ⟨{ h with }, .of_log rfl (Nat.le_refl _)⟩

theorem Moves.upholds (h : o.Firm) (hsrc : ∀ e, src = some e → e.InOrder)
    (hmoves : Moves src o o') : o'.Firm ∧ o.Upholds o' := by
  induction hmoves with
  | refl => exact ⟨h, Upholds.refl o⟩
  | tail _ hmove ih =>
    obtain ⟨hm, hup⟩ := ih
    obtain ⟨hfirm, hup'⟩ := hmove.upholds hm hsrc
    exact ⟨hfirm, hup.trans hup'⟩

theorem Wreck.intact (h : o.Intact) (hw : Wreck o o') : o'.Intact ∧ o.Upholds o' := by
  have hcommit := hw.commit
  refine ⟨?_, Upholds.of_log hw.log (Nat.le_of_eq hcommit.symm)⟩
  constructor
  · rw [hw.log]
    exact h.positioned
  · rw [hw.log, hcommit]
    exact h.le_length
  · rw [hw.signals, hcommit]
    exact h.signals
  · rw [hw.applier, hcommit]
    exact h.told
  · rw [hw.applier, hcommit]
    exact h.applied

/-- A run that fails. -/
theorem Fails.falls (h : o.Firm) (hsrc : ∀ e, src = some e → e.InOrder) (hf : Fails src o f o') :
    o.Falls f o' := by
  have hbreaks : Breaks src o o' → o'.Intact ∧ o.Upholds o' := by
    rintro ⟨m, hmoves, hw⟩
    obtain ⟨hm, hup⟩ := hmoves.upholds h hsrc
    obtain ⟨hintact, hup'⟩ := hw.intact hm.toIntact
    exact ⟨hintact, hup.trans hup'⟩
  cases f with
  | overflow =>
    obtain ⟨hintact, hup⟩ := hbreaks hf
    exact ⟨hintact, hup, nofun⟩
  | error e =>
    unfold Fails at hf
    dsimp only at hf
    split at hf
    · rename_i hfatal
      obtain ⟨hintact, hup⟩ := hbreaks hf
      refine ⟨hintact, hup, ?_⟩
      rintro ⟨x, hx, hsurvives⟩
      obtain rfl := Failure.error.inj hx
      rw [hfatal] at hsurvives
      cases hsurvives
    · obtain ⟨hfirm, hup⟩ := hf.upholds h hsrc
      exact hfirm.falls hup

end Moves

/-! ## Runs -/

variable {α β : Type} {src : Option Event} {o : Outline} {n m : Node} {x : Action Node α}
  {Q : α → Node → Prop} {R : β → Node → Prop}

/-- A run that goes on from what upholds `o` still does when it ends, in `Q` if it succeeds. -/
def Sustains (o : Outline) (x : Action Node α) (n : Node) (Q : α → Node → Prop) : Prop :=
  n.outline.Firm → o.Upholds n.outline →
    x.Ensures n (fun a m => (m.outline.Firm ∧ o.Upholds m.outline) ∧ Q a m)
      fun f m => o.Falls f m.outline

/-- The run changes effects alone, however it ends. -/
def Speaks (x : Action Node α) (n : Node) : Prop :=
  x.Ensures n (fun _ m => m.outline.mute = n.outline.mute) fun _ m =>
    m.outline.mute = n.outline.mute

theorem Sustains.bind {f : α → Action Node β} (h : Sustains o x n Q)
    (hf : ∀ a m, Q a m → Sustains o (f a) m R) : Sustains o (x >>= f) n R := by
  intro hn hup
  refine Action.Ensures.bind (h hn hup) ?_
  rintro a m ⟨⟨hm, hupm⟩, hQ⟩
  exact hf a m hQ hm hupm

theorem sustains_pure {a : α} (h : Q a n) : Sustains o (pure a) n Q :=
  fun hn hup => ⟨⟨hn, hup⟩, h⟩

theorem sustains_get_bind {f : Node → Action Node α} (h : Sustains o (f n) n Q) :
    Sustains o (get >>= f) n Q := h

theorem Does.sustains (h : Does src x n Q) (hsrc : ∀ e, src = some e → e.InOrder) :
    Sustains o x n Q := by
  intro hn hup
  refine Action.Ensures.mono h ?_ ?_
  · rintro a m ⟨hmoves, hQ⟩
    obtain ⟨hm, hup'⟩ := hmoves.upholds hn hsrc
    exact ⟨⟨hm, hup.trans hup'⟩, hQ⟩
  · intro f m hf
    exact hup.falls (hf.falls hn hsrc)

/-- Moves that no event is behind. -/
theorem Does.sustains_of_none (h : Does none x n Q) : Sustains o x n Q := by
  refine h.sustains fun e he => ?_
  cases he

theorem Quiet.sustains_bind {f : α → Action Node β} (h : Quiet x n Q)
    (hf : ∀ a m, m.outline = n.outline → Q a m → Sustains o (f a) m R) :
    Sustains o (x >>= f) n R :=
  h.does.sustains_of_none.bind fun a m hm => hf a m hm.1 hm.2

theorem Speaks.sustains (h : Speaks x n) : Sustains o x n fun _ _ => True := by
  intro hn hup
  refine Action.Ensures.mono h ?_ ?_
  · intro a m hm
    obtain ⟨hfirm, hup'⟩ := hn.of_mute hm
    exact ⟨⟨hfirm, hup.trans hup'⟩, trivial⟩
  · intro f m hm
    obtain ⟨hfirm, hup'⟩ := hn.of_mute hm
    exact hfirm.falls (hup.trans hup')

theorem sustains_ofExcept {y : Except (Failure Error) α} :
    Sustains o (Action.ofExcept y) n fun _ m => n = m := by
  intro hn hup
  refine Action.ensures_ofExcept ?_ ?_
  · exact fun _ _ => ⟨⟨hn, hup⟩, rfl⟩
  · exact fun _ _ => hn.falls hup

theorem sustains_modifyLeader {g : LeaderState → LeaderState} {l : LeaderState}
    (hrole : n.role = .leader l) :
    Sustains o (modifyLeader g) n fun _ m => m = { n with role := .leader (g l) } := by
  intro hn hup
  refine (modifyLeader_leaves hrole).mono_of_sure ?_
  rintro _ m rfl
  exact ⟨⟨{ hn with }, { hup with }⟩, rfl⟩

/-! ## Append results

Whom a leader sends entries is of no matter here, so that a result may come from anybody. -/

namespace Leader

theorem replicateTo_speaks (peer : NodeId) (n : Node) : Speaks (replicateTo peer) n := by
  refine (replicateTo_leaves peer n).mono ?_ ?_
  · rintro _ _ (rfl | ⟨l, next, r, hrole, -, -, -, rfl⟩)
    · rfl
    · simp [Outline.mute, outline, hrole, Role.stance]
  · rintro f _ ⟨rfl, -⟩
    rfl

theorem askTarget_speaks (peer : NodeId) (n : Node) : Speaks (askTarget peer) n := by
  refine (askTarget_leaves peer n).mono_of_sure ?_
  rintro (_ | _) m hm
  · obtain rfl : m = n := hm
    rfl
  · obtain ⟨l, t, hrole, -, -, -, -, rfl⟩ := hm
    simp [Outline.mute, outline, hrole, Role.stance]

theorem onMatched_sustains {peer : NodeId} {matched : Nat} (h : n.outline.Leading) :
    Sustains o (onMatched peer matched) n fun _ _ => True := by
  unfold onMatched
  refine sustains_ofExcept.bind ?_
  rintro after _ rfl
  cases hrole : n.role with
  | follower | candidate =>
    obtain ⟨m, hm⟩ := h.stance
    simp only [outline, hrole, Role.stance] at hm
    cases hm
  | leader l =>
    refine (sustains_modifyLeader hrole).bind ?_
    intro _ m hm
    have hlead : m.outline.Leading := by
      rw [hm]
      exact ⟨h.closed, h.queue, _, rfl⟩
    refine (commitMajority_does hlead).sustains_of_none.bind fun _ k _ => ?_
    refine (askTarget_speaks peer k).sustains.bind fun asked j _ => ?_
    split
    · exact sustains_pure trivial
    · refine sustains_get_bind ?_
      split
      · split
        · exact (replicateTo_speaks peer j).sustains
        · exact sustains_pure trivial
      · exact sustains_pure trivial

theorem onConflict_sustains (peer : NodeId) (prevIndex : Nat) (hint : ConflictHint) (n : Node) :
    Sustains o (onConflict peer prevIndex hint) n fun _ _ => True := by
  unfold onConflict
  refine (count_quiet _ n).sustains_bind fun _ m _ _ => sustains_get_bind ?_
  refine sustains_ofExcept.bind ?_
  rintro next _ rfl
  refine Quiet.sustains_bind (modifyLeader_quiet fun _ _ => rfl) fun _ k _ _ => ?_
  exact (replicateTo_speaks peer k).sustains

theorem onAppendResult_sustains {peer : NodeId} {request : AppendMeta}
    {r : Except Error AppendResponse} (h : n.outline.Leading) :
    Sustains o (onAppendResult peer request r) n fun _ _ => True := by
  unfold onAppendResult
  refine sustains_get_bind ?_
  split
  · refine Quiet.sustains_bind (modifyLeader_quiet fun _ _ => rfl) fun _ m hm _ => ?_
    rw [← hm] at h
    cases r with
    | error e => exact sustains_pure trivial
    | ok r =>
      dsimp only
      split
      · exact onMatched_sustains h
      · exact sustains_pure trivial
      · exact (stepDown_does h).sustains_of_none
      · exact onConflict_sustains peer _ _ m
  · exact sustains_pure trivial

end Leader

/-! ## Work -/

theorem handle_sustains {e : Event} (he : e.InOrder) (hopen : n.outline.closed = false)
    (hqueue : n.outline.queue = []) : Sustains o (handle e) n fun _ _ => True := by
  have hsrc : ∀ x, some e = some x → x.InOrder := by
    rintro x ⟨⟩
    exact he
  by_cases hresult : ∃ peer request r, e = .appendResult peer request r
  · obtain ⟨peer, request, r, rfl⟩ := hresult
    unfold handle
    refine sustains_get_bind ?_
    have hstance : n.outline.stance = n.role.stance := rfl
    cases hrole : n.role with
    | follower timer =>
      rw [hrole] at hstance
      exact (Follower.handle_does rfl hstance hopen hqueue).sustains hsrc
    | candidate timer votes =>
      rw [hrole] at hstance
      exact (Candidate.handle_does rfl hstance hopen hqueue).sustains hsrc
    | leader l =>
      rw [hrole] at hstance
      exact Leader.onAppendResult_sustains ⟨hopen, hqueue, _, hstance⟩
  · refine (handle_does rfl ?_ hopen hqueue).sustains hsrc
    cases e with
    | appendResult peer request r => exact absurd ⟨peer, request, r, rfl⟩ hresult
    | _ => trivial

end Node

open Node.Outline (Firm Upholds Falls Queued)

/-- **Whatever the event loop handles.** A role event is taken from the queue before it is handled;
everything else is handled with an empty queue. -/
theorem Work.run_upholds {n : Node} {w : Work} (hfirm : (w.outline n).Firm)
    (hidle : w = .tick ∨ (∃ e, w = .event e) → n.outline.queue = [])
    (hevent : ∀ e, w = .event e → e.InOrder) :
    w.run.Ensures n (fun _ m => m.outline.Firm ∧ (w.outline n).Upholds m.outline)
      fun f m => (w.outline n).Falls f m.outline := by
  have hopen : n.outline.closed = false := by cases w <;> exact hfirm.opened
  have hmoves : w.IsDue n → w.source = none →
      w.run.Ensures n (fun _ m => m.outline.Firm ∧ (w.outline n).Upholds m.outline)
        fun f m => (w.outline n).Falls f m.outline := by
    intro hdue hnone
    have hsrc : ∀ e, w.source = some e → e.InOrder := by
      intro e he
      rw [hnone] at he
      cases he
    exact (Work.run_ensures hopen hdue).mono (fun _ _ h => h.upholds hfirm hsrc)
      fun _ _ hf => hf.falls hfirm hsrc
  cases w with
  | tick => exact hmoves (hidle (.inl rfl)) rfl
  | event e =>
    have hqueue := hidle (.inr ⟨e, rfl⟩)
    exact (Node.handle_sustains (hevent e rfl) hopen hqueue hfirm (Upholds.refl _)).weaken
      fun _ _ h => h.1
  | role e =>
    have hq : Queued n.outline.commit (e :: n.outline.queue) := hfirm.queue
    obtain ⟨hrest, hlast, -, hreplay⟩ := Node.queued_cons hq
    cases e with
    | becomeFollower | newCommit => exact hmoves trivial rfl
    | becomeCandidate | becomeLeader => exact hmoves (hlast rfl) rfl
    | replay x =>
      -- the rest of the queue is empty, and the event is handled as if it came in now
      have hn : n.outline.Firm := { hfirm with queue := hrest }
      have hup : (Work.outline n (.role (.replay x))).Upholds n.outline :=
        .of_log rfl (Nat.le_refl _)
      exact (Node.handle_sustains (hreplay x rfl) hopen (hlast rfl) hn hup).weaken fun _ _ h => h.1

end Raft
