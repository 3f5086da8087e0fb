import Raft.Proofs.Handover.Basic
import Raft.Proofs.Profile.Loop

/-!
# Leaders that hand over

The handlers of a leader that has a transfer under way leave its log alone and ask nobody, but for
one: a confirmation can show that the target holds the whole log, and then it is asked, as the last
thing that is done. A leader without a transfer begins one when it is called for.

* `Node.Abides x n`: the run of `x` from `n` leaves the log alone and asks nobody, whatever comes of
  it.
* `Leader.askTarget_ripe`: who is asked, and when.
* `Node.Hands src h0 x n`: the run of `x` goes on from what happened since `h0`, and may ask the
  target at its end.
* `Leader.handle_hands`, `Leader.onTransfer_hands`: the events.
-/

namespace Raft

open Handover (Stays)

namespace Node

variable {α β : Type} {n m : Node} {x : Action Node α} {src : Option Event}

/-! ## What is seen of a node -/

theorem handover_of_leader {l : LeaderState} (hrole : n.role = .leader l) :
    n.handover = ⟨n.log.entries, n.commit, l.transfer, l.matched,
      if n.queue.any stepsDown then none else some n.term,
      n.effects.filterMap fun d => d.effect.asked?⟩ := by
  simp [handover, leader?, hrole]

theorem exists_of_transfer (hx : n.handover.transfer ≠ none) :
    ∃ l t, n.role = .leader l ∧ l.transfer = some t := by
  obtain ⟨t, ht⟩ := Option.ne_none_iff_exists'.1 hx
  obtain ⟨l, hl, hlt⟩ := Option.bind_eq_some_iff.1 ht
  exact ⟨l, t, role_of_leader? hl, hlt⟩

/-- The state of the leader stays, and nothing happens to the log. -/
theorem stays_of_leader? (hleader : m.leader? = n.leader?) (hlog : m.log = n.log)
    (hcommit : m.commit = n.commit) (hasks : m.handover.asks = n.handover.asks) :
    n.handover.Stays m.handover where
  entries := congrArg Log.entries hlog
  commit_le := by
    show m.commit ≤ _
    rw [hcommit]
    exact Nat.le_max_left _ _
  asks := hasks
  transfer y hy := by
    refine ⟨y, ?_, rfl, rfl⟩
    unfold handover at hy ⊢
    rwa [hleader] at hy
  matched _ p := by
    refine Nat.le_of_eq ?_
    unfold Handover.matchIndex handover
    rw [hleader]

theorem stays_of_eq (h : m.handover = n.handover) : n.handover.Stays m.handover :=
  h ▸ Stays.refl _

/-! ## Runs that ask nobody -/

/-- The run leaves the log alone and asks nobody, whatever comes of it. -/
def Abides (x : Action Node α) (n : Node) : Prop :=
  x.Ensures n (fun _ m => n.handover.Stays m.handover) fun _ m => n.handover.Stays m.handover

theorem Abides.bind {f : α → Action Node β} (h : Abides x n) (hf : ∀ a m, Abides (f a) m) :
    Abides (x >>= f) n := by
  refine Action.Ensures.bind h fun a m hm => ?_
  exact (hf a m).mono (fun _ _ hk => hm.trans hk) fun _ _ hk => hm.trans hk

theorem abides_pure {a : α} : Abides (pure a) n := Stays.refl _

theorem abides_get_bind {f : Node → Action Node α} (h : Abides (f n) n) : Abides (get >>= f) n := h

theorem abides_ite {c : Prop} [Decidable c] {y z : Action Node α} (hy : Abides y n)
    (hz : Abides z n) : Abides (if c then y else z) n := by
  split
  · exact hy
  · exact hz

theorem abides_ofExcept {y : Except (Failure Error) α} : Abides (Action.ofExcept y) n := by
  cases y <;> exact Stays.refl _

theorem perform_abides {e : Effect} (he : e.asked? = none) : Abides (perform e) n := by
  refine stays_of_leader? (m := { n with effects := n.effects ++ [n.departure e] }) rfl rfl rfl ?_
  simp [handover, departure, he]

theorem count_abides (f : Counters → Counters) : Abides (count f) n :=
  stays_of_leader? rfl rfl rfl rfl

theorem adoptTerm_abides (t : Nat) : Abides (adoptTerm t) n := by
  refine (adoptTerm_leaves t n).mono ?_ ?_
  · rintro _ _ (⟨-, rfl⟩ | ⟨-, savesLeft, rfl⟩)
    · exact Stays.refl _
    · exact stays_of_leader? rfl rfl rfl rfl
  · rintro f _ ⟨-, -, rfl⟩
    exact stays_of_leader? rfl rfl rfl rfl

theorem emit_abides (e : RoleEvent) : Abides (emit e) n := by
  refine (emit_leaves e n).mono ?_ ?_
  · rintro _ _ ⟨-, rfl⟩
    exact stays_of_leader? rfl rfl rfl rfl
  · rintro f _ ⟨-, -, rfl⟩
    exact Stays.refl _

theorem modifyLeader_abides {f : LeaderState → LeaderState}
    (htransfer : ∀ l y, n.role = .leader l → (f l).transfer = some y →
      ∃ x, l.transfer = some x ∧ y.target = x.target ∧ y.asked = x.asked)
    (hmatched : ∀ l p, (l.matched.lookup p).getD 0 ≤ ((f l).matched.lookup p).getD 0) :
    Abides (modifyLeader f) n := by
  refine Action.ensures_modify ?_
  cases hrole : n.role with
  | leader l =>
    rw [handover_of_leader hrole, handover_of_leader (l := f l) rfl]
    exact ⟨rfl, Nat.le_max_left _ _, rfl, fun y hy => htransfer l y hrole hy,
      fun _ p => hmatched l p⟩
  | follower | candidate => exact Stays.refl _

theorem modifyLeader_abides_of_eq {f : LeaderState → LeaderState}
    (htransfer : ∀ l, (f l).transfer = l.transfer) (hmatched : ∀ l, (f l).matched = l.matched) :
    Abides (modifyLeader f) n := by
  refine modifyLeader_abides (fun l y _ hy => ⟨y, ?_, rfl, rfl⟩) fun l p => ?_
  · rwa [htransfer] at hy
  · exact Nat.le_of_eq (by rw [hmatched l])

theorem resetTimer_abides : Abides resetTimer n := by
  refine (resetTimer_leaves n).mono_of_sure ?_
  rintro _ _ ⟨timer, seed, rfl⟩
  cases hrole : n.role with
  | leader l =>
    rw [handover_of_leader hrole, handover_of_leader (l := { l with timer := _ }) rfl]
    exact Stays.refl _
  | follower | candidate =>
    refine stays_of_leader? ?_ rfl rfl rfl
    unfold leader?
    rw [hrole]
    rfl

theorem advanceCommit_abides {i : Nat} (hi : i ≤ n.log.entries.length) :
    Abides (advanceCommit i) n := by
  have hset : n.handover.Stays ({ n with commit := i } : Node).handover :=
    ⟨rfl, Nat.le_trans hi (Nat.le_max_right _ _), rfl, fun y hy => ⟨y, hy, rfl, rfl⟩,
      fun _ _ => Nat.le_refl _⟩
  refine (advanceCommit_leaves i n).mono ?_ ?_
  · rintro _ _ (⟨-, rfl⟩ | ⟨-, -, rfl⟩)
    · exact Stays.refl _
    · exact hset.trans (stays_of_leader? rfl rfl rfl rfl)
  · rintro f _ ⟨-, -, -, rfl⟩
    exact hset

namespace Leader

/-! ## Replication -/

theorem replicateTo_abides (peer : NodeId) : Abides (replicateTo peer) n := by
  refine (replicateTo_leaves peer n).mono ?_ ?_
  · rintro _ _ (rfl | ⟨l, next, r, hrole, -, -, -, rfl⟩)
    · exact Stays.refl _
    · refine stays_of_eq ?_
      rw [handover_of_leader hrole, handover_of_leader (l := { l with inFlight := _ }) rfl]
      simp [term, departure, Effect.asked?, Effect.request?]
  · rintro f _ ⟨rfl, -⟩
    exact Stays.refl _

theorem replicateToAll_abides (peers : List NodeId) : Abides (replicateToAll peers) n := by
  induction peers generalizing n with
  | nil => exact abides_pure
  | cons peer rest ih => exact (replicateTo_abides peer).bind fun _ m => ih

theorem commitMajority_abides : Abides commitMajority n := by
  refine ensures_commitMajority (Stays.refl _) fun l i _ hi => ?_
  obtain ⟨e, he, -⟩ := Option.map_eq_some_iff.1 (majority_le_countP_of_majorityIndex hi).2.1
  exact advanceCommit_abides (le_length_of_entryAt he).2

/-! ## Transfers -/

/-- **The target is asked** only if it was not asked before, by a leader that counts it for the
whole log. -/
theorem askTarget_ripe (peer : NodeId) (hstays : n.queue.any stepsDown = false) :
    (askTarget peer).Ensures n
      (fun asked m => if asked then ∃ x q, n.handover.Ripe x q ∧ m.handover = n.handover.ask x q
        else m = n)
      fun _ _ => False := by
  refine (askTarget_leaves peer n).weaken ?_
  rintro (_ | _) m hm
  · exact hm
  obtain ⟨l, x, hrole, hx, rfl, hasked, hle, rfl⟩ := hm
  refine ⟨x, ⟨n.term, n.id⟩, ⟨?_, hasked, ?_, ?_⟩, ?_⟩ <;> rw [handover_of_leader hrole]
  · exact hx
  · exact hle
  · show (if n.queue.any stepsDown then none else some n.term) = _
    rw [hstays]
    rfl
  · rw [handover_of_leader (l := { l with transfer := some { x with asked := true } }) rfl]
    simp [Handover.ask, departure, Effect.asked?, Effect.request?]
    rfl

theorem abortTransfer_abides (error : NodeId → Error) : Abides (abortTransfer error) n := by
  refine (abortTransfer_leaves error n).mono_of_sure ?_
  rintro _ _ (⟨-, rfl⟩ | ⟨l, t, hrole, -, rfl⟩)
  · exact Stays.refl _
  have hsilent : (t.caller.toList.map fun c =>
      n.departure (.answer c (.transfer (.error (error t.target))))).filterMap
        (fun d => d.effect.asked?) = [] := by
    cases t.caller <;> rfl
  rw [handover_of_leader hrole, handover_of_leader (l := { l with transfer := none }) rfl,
    List.filterMap_append, hsilent, List.append_nil]
  exact ⟨rfl, Nat.le_max_left _ _, rfl, nofun, fun _ _ => Nat.le_refl _⟩

theorem stepDown_abides (t : Nat) : Abides (stepDown t) n :=
  (adoptTerm_abides t).bind fun _ _ => emit_abides _

theorem yield_abides (t : Nat) (l : Option NodeId) (e : Event) :
    Abides (adoptTerm t >>= fun _ => stepDownAndReplay l e) n :=
  (adoptTerm_abides t).bind fun _ _ => (emit_abides _).bind fun _ _ => emit_abides _

theorem onTimeoutNowResult_abides (term : Nat) (r : Except Error TimeoutNowResponse) :
    Abides (onTimeoutNowResult term r) n := by
  unfold onTimeoutNowResult
  refine abides_get_bind (abides_ite ?_ abides_pure)
  cases r with
  | error e => exact abortTransfer_abides _
  | ok r =>
    refine abides_ite (stepDown_abides _) (abides_ite ?_ (abortTransfer_abides _))
    cases hrole : n.role with
    | leader l =>
      simp only [leader?, hrole, Option.bind_some]
      split
      · rename_i x hx
        split
        · refine Abides.bind (modifyLeader_abides (fun l' y hl hy => ?_) fun _ _ => Nat.le_refl _)
            fun _ m => perform_abides rfl
          obtain rfl := Role.leader.inj (hrole.symm.trans hl)
          obtain rfl := Option.some.inj hy
          exact ⟨x, hx, rfl, rfl⟩
        · exact abides_pure
      · exact abides_pure
    | follower | candidate =>
      simp only [leader?, hrole, Option.bind_none]
      exact abides_pure

theorem onConflict_abides (peer : NodeId) (prevIndex : Nat) (hint : ConflictHint) :
    Abides (onConflict peer prevIndex hint) n := by
  unfold onConflict
  refine (count_abides _).bind fun _ m => abides_get_bind (abides_ofExcept.bind fun next k => ?_)
  exact Abides.bind (modifyLeader_abides_of_eq (fun _ => rfl) fun _ => rfl) fun _ j =>
    replicateTo_abides peer

theorem tick_abides : Abides tick n := by
  have hheartbeat : ∀ m : Node, Abides (do
      let k ← get
      if k.role.isExpired k.now then
        resetTimer
        replicateToAll k.view.peers) m := fun m =>
    abides_get_bind (abides_ite (resetTimer_abides.bind fun _ k => replicateToAll_abides _)
      abides_pure)
  unfold tick
  refine abides_get_bind ?_
  split
  · refine abides_ite ?_ (hheartbeat n)
    exact (abortTransfer_abides _).bind fun _ m => hheartbeat m
  · exact hheartbeat n

/-! ## Runs that may ask the target -/

end Leader

variable {h0 : Handover}

/-- A run that goes on from what can happen before anybody is asked. -/
def Hands (src : Option Event) (h0 : Handover) (x : Action Node α) (n : Node) : Prop :=
  h0.Prepares src n.handover →
    x.Ensures n (fun _ m => h0.Goes src m.handover) fun _ m => h0.Prepares src m.handover

theorem Abides.hands (h : Abides x n) : Hands src h0 x n := fun hn =>
  h.mono (fun _ _ hm => Or.inl (hn.next hm)) fun _ _ hm => hn.next hm

theorem Abides.hands_bind {f : α → Action Node β} {Q : α → Node → Prop}
    {E : Failure Error → Node → Prop} (h : Abides x n) (hQ : x.Ensures n Q E)
    (hf : ∀ a m, Q a m → Hands src h0 (f a) m) : Hands src h0 (x >>= f) n := by
  intro hn
  refine Action.Ensures.bind ((h.and hQ).mono (fun _ _ hm => hm) fun _ _ hm => hn.next hm.1) ?_
  rintro a m ⟨hm, hQm⟩
  exact hf a m hQm (hn.next hm)

theorem hands_get_bind {f : Node → Action Node α} (h : Hands src h0 (f n) n) :
    Hands src h0 (get >>= f) n := h

theorem hands_ite {c : Prop} [Decidable c] {y z : Action Node α} (hy : Hands src h0 y n)
    (hz : Hands src h0 z n) : Hands src h0 (if c then y else z) n := by
  split
  · exact hy
  · exact hz

namespace Leader

/-- Whoever is asked is asked last. -/
theorem askTarget_hands (peer : NodeId) {y : Action Node Unit} (hstays : n.profile.retires = false)
    (hy : Abides y n) :
    Hands src h0 (do
      let asked ← askTarget peer
      if asked then pure ⟨⟩ else y) n := by
  intro hn
  refine (askTarget_ripe peer hstays).bind_of_sure ?_
  rintro (_ | _) m hm
  · obtain rfl : m = n := hm
    exact hy.hands hn
  · obtain ⟨x, q, hripe, hask⟩ := hm
    exact Or.inr ⟨n.handover, x, q, hn, hripe, hask⟩

/-- A confirmation may show that the target of the transfer holds the whole log. -/
theorem onMatched_hands (peer : NodeId) (matched : Nat) (hopen : n.profile.closed = false)
    (hstays : n.profile.retires = false) : Hands src h0 (onMatched peer matched) n := by
  unfold onMatched
  refine Abides.hands_bind (Q := fun _ m => m = n) (E := fun _ _ => True) abides_ofExcept ?_ ?_
  · exact Action.ensures_ofExcept (fun _ _ => rfl) fun _ _ => trivial
  rintro after _ rfl
  refine Abides.hands_bind (modifyLeader_abides (fun l y _ hy => ⟨y, hy, rfl, rfl⟩) fun l p => ?_)
    (modifyLeader_idle fun _ => rfl) fun _ m hm => ?_
  · show _ ≤ ((PeerMap.put peer _ l.matched).lookup p).getD 0
    rw [PeerMap.lookup_put]
    by_cases hp : p = peer
    · rw [if_pos hp, hp]
      exact Nat.le_max_left _ _
    · exact Nat.le_of_eq (by rw [if_neg hp])
  have hturns : Turns src m.profile m.profile := Turns.refl _
  refine commitMajority_abides.hands_bind
    (commitMajority_takes (by rw [hm]; exact hopen) hturns) ?_
  rintro _ k ⟨-, -, hk⟩
  refine askTarget_hands peer (by rw [hk, hm]; exact hstays) (abides_get_bind ?_)
  split
  · exact abides_ite (replicateTo_abides peer) abides_pure
  · exact abides_pure

theorem onAppendResult_hands (peer : NodeId) (request : AppendMeta)
    (r : Except Error AppendResponse) (hopen : n.profile.closed = false)
    (hstays : n.profile.retires = false) : Hands src h0 (onAppendResult peer request r) n := by
  unfold onAppendResult
  refine hands_get_bind (hands_ite ?_ abides_pure.hands)
  refine Abides.hands_bind (modifyLeader_abides_of_eq (fun _ => rfl) fun _ => rfl)
    (modifyLeader_idle fun _ => rfl) fun _ m hm => ?_
  cases r with
  | error e => exact abides_pure.hands
  | ok r =>
    dsimp only
    split
    · exact onMatched_hands peer _ (by rw [hm]; exact hopen) (by rw [hm]; exact hstays)
    · exact abides_pure.hands
    · exact (stepDown_abides _).hands
    · exact (onConflict_abides peer _ _).hands

/-- **Events** with a transfer under way. Clients and callers of other transfers are refused. -/
theorem handle_hands {e : Event} (hx : n.handover.transfer ≠ none)
    (hopen : n.profile.closed = false) (hstays : e.IsRequest ∨ n.profile.retires = false) :
    Hands src h0 (handle e) n := by
  obtain ⟨l, x, hrole, hlx⟩ := exists_of_transfer hx
  have hstays' : ¬ e.IsRequest → n.profile.retires = false := hstays.resolve_left
  unfold handle
  refine hands_get_bind ?_
  cases e with
  | voteRequest r caller =>
    exact (abides_ite (yield_abides _ _ _) (abides_get_bind (perform_abides rfl))).hands
  | appendRequest r caller =>
    exact (abides_ite (yield_abides _ _ _) (abides_get_bind (perform_abides rfl))).hands
  | timeoutNowRequest r caller =>
    exact (abides_ite (yield_abides _ _ _) (abides_get_bind (perform_abides rfl))).hands
  | propose r request caller =>
    unfold onPropose
    refine hands_get_bind ?_
    simp only [leader?, hrole, Option.bind_some, hlx]
    exact Abides.hands (perform_abides rfl)
  | transfer target caller =>
    unfold onTransfer
    refine hands_get_bind ?_
    simp only [leader?, hrole, Option.bind_some, hlx]
    exact Abides.hands (perform_abides rfl)
  | voteResult peer term r =>
    cases r with
    | ok r => exact (abides_ite (stepDown_abides _) abides_pure).hands
    | error e => exact abides_pure.hands
  | appendResult peer request r =>
    exact onAppendResult_hands peer request r hopen (hstays' fun h => h)
  | timeoutNowResult peer term r => exact (onTimeoutNowResult_abides term r).hands

/-- **A call for a transfer** without one under way. It is refused, or a transfer begins. -/
theorem onTransfer_hands {target : NodeId} {caller : Caller} {l : LeaderState}
    (hsrc : src = some (.transfer target caller)) (hrole : n.role = .leader l)
    (hnone : l.transfer = none) (hstays : n.profile.retires = false) :
    Hands src n.handover (onTransfer target caller) n := by
  have htransfer : n.handover.transfer = none := by
    rw [handover_of_leader hrole]
    exact hnone
  have hrefuse : ∀ e, Hands src n.handover (answer caller (.transfer (.error e))) n := fun e =>
    Abides.hands (perform_abides rfl)
  unfold onTransfer
  refine hands_get_bind ?_
  simp only [leader?, hrole, Option.bind_some, hnone]
  refine hands_ite (hrefuse _) fun _ => ?_
  refine Action.ensures_modify_bind ?_
  generalize hk : ({ n with counters := _ } : Node) = k
  have hrole' : k.role = .leader l := by
    rw [← hk]
    exact hrole
  refine (modifyLeader_leaves hrole').bind_of_sure ?_
  rintro _ m rfl
  subst hk
  refine askTarget_hands target hstays (replicateTo_abides target) ?_
  exact .begins _ caller hsrc htransfer rfl rfl rfl (Nat.le_max_left _ _) rfl

end Leader

end Node

end Raft
