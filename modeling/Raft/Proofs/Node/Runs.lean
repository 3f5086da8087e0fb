import Raft.Proofs.Node.Acts
import Raft.Proofs.Node.Outline

/-!
# Runs as moves

A handler is followed through its parts. `Does src x n Q` says that the run of `x` on the node `n`
consists of moves, and that `Q` holds when it succeeds; an error that does not stop the node leaves
it after some of the moves, one that does leaves a wreck.

* `Quiet x n Q`: the run changes nothing of the outline.
* The small actions that handlers are built of are taken one by one.
-/

namespace Raft.Node

variable {α β : Type} {src : Option Event} {x : Action Node α} {n m : Node}
  {Q Q' : α → Node → Prop} {R : β → Node → Prop}

/-- How a run can fail: with an error that the node survives, after some moves, or with one that
stops it. -/
def Fails (src : Option Event) (o : Outline) (f : Failure Error) (o' : Outline) : Prop :=
  match f with
  | .error e => if e.isFatal then Breaks src o o' else Moves src o o'
  | .overflow => Breaks src o o'

/-- The run consists of moves, and ends in `Q` if it succeeds. -/
def Does (src : Option Event) (x : Action Node α) (n : Node) (Q : α → Node → Prop) : Prop :=
  x.Ensures n (fun a m => Moves src n.outline m.outline ∧ Q a m)
    fun f m => Fails src n.outline f m.outline

/-- The run succeeds and does not change the outline. -/
def Quiet (x : Action Node α) (n : Node) (Q : α → Node → Prop) : Prop :=
  x.Ensures n (fun a m => m.outline = n.outline ∧ Q a m) fun _ _ => False

theorem Fails.of_breaks {o o' : Outline} {f : Failure Error} (h : Breaks src o o')
    (hf : f = .overflow ∨ ∃ e, f = .error e ∧ e.isFatal = true) : Fails src o f o' := by
  rcases hf with rfl | ⟨e, rfl, he⟩
  · exact h
  · unfold Fails
    simpa [he] using h

theorem Fails.of_moves {o o' : Outline} {f : Failure Error} (h : Moves src o o') :
    Fails src o f o' := by
  cases f with
  | error e =>
    unfold Fails
    dsimp only
    split
    · exact h.breaks
    · exact h
  | overflow => exact h.breaks

theorem Moves.fails {o o' o'' : Outline} {f : Failure Error} (h : Moves src o o')
    (h' : Fails src o' f o'') : Fails src o f o'' := by
  cases f with
  | error e =>
    unfold Fails at h' ⊢
    dsimp only at h' ⊢
    split
    · rename_i he
      rw [if_pos he] at h'
      exact h.trans_breaks h'
    · rename_i he
      rw [if_neg he] at h'
      exact h.trans h'
  | overflow => exact h.trans_breaks h'

/-! ## Putting runs together -/

theorem Does.bind {f : α → Action Node β} (h : Does src x n Q)
    (hf : ∀ a m, Q a m → Does src (f a) m R) : Does src (x >>= f) n R := by
  refine Action.Ensures.bind h ?_
  rintro a m ⟨hmoves, hQ⟩
  exact (hf a m hQ).mono (fun b k hk => ⟨hmoves.trans hk.1, hk.2⟩) fun _ _ hk => hmoves.fails hk

theorem Does.weaken (h : Does src x n Q) (hQ : ∀ a m, Q a m → Q' a m) : Does src x n Q' :=
  Action.Ensures.weaken h fun a m hm => ⟨hm.1, hQ a m hm.2⟩

theorem Quiet.does (h : Quiet x n Q) : Does src x n fun a m => m.outline = n.outline ∧ Q a m :=
  h.mono_of_sure fun _ _ hm => ⟨Moves.of_eq hm.1, hm⟩

/-- A quiet part of a run is passed over. -/
theorem Quiet.does_bind {f : α → Action Node β} (h : Quiet x n Q)
    (hf : ∀ a m, m.outline = n.outline → Q a m → Does src (f a) m R) : Does src (x >>= f) n R :=
  Does.bind h.does fun a m hm => hf a m hm.1 hm.2

/-- A run of moves from where moves have led. -/
theorem Does.after {o : Outline} (hmoves : Moves src o n.outline) (h : Does src x n Q) :
    x.Ensures n (fun a m => Moves src o m.outline ∧ Q a m)
      fun f m => Fails src o f m.outline :=
  h.mono (fun _ _ hm => ⟨hmoves.trans hm.1, hm.2⟩) fun _ _ hm => hmoves.fails hm

theorem quiet_modify {g : Node → Node} {Q : PUnit → Node → Prop}
    (h : (g n).outline = n.outline) (hQ : Q ⟨⟩ (g n)) : Quiet (modify g) n Q := ⟨h, hQ⟩

theorem does_pure {a : α} (h : Q a n) : Does src (pure a) n Q := ⟨Moves.refl _, h⟩

theorem does_get_bind {f : Node → Action Node α} (h : Does src (f n) n Q) :
    Does src (get >>= f) n Q := h

theorem does_modify_bind {g : Node → Node} {f : PUnit → Action Node α}
    (hg : Moves src n.outline (g n).outline) (h : Does src (f ⟨⟩) (g n) Q) :
    Does src (modify g >>= f) n Q := by
  refine Action.Ensures.mono (s := n) (E := fun f m => Fails src (g n).outline f m.outline)
    (Q := fun a m => Moves src (g n).outline m.outline ∧ Q a m) h ?_ ?_
  · exact fun a m hm => ⟨hg.trans hm.1, hm.2⟩
  · exact fun f m hm => hg.fails hm

theorem does_set_bind {k : Node} {f : PUnit → Action Node α}
    (hk : Moves src n.outline k.outline) (h : Does src (f ⟨⟩) k Q) :
    Does src (set k >>= f) n Q := does_modify_bind (g := fun _ => k) hk h

theorem does_ite_bind {c : Prop} [Decidable c] {y : Action Node PUnit} {f : PUnit → Action Node β}
    (h : Does src ((if c then y else pure ⟨⟩) >>= f) n R) :
    Does src (if c then y >>= f else f ⟨⟩) n R := by
  rwa [Action.ite_bind]

theorem does_ite {c : Prop} [Decidable c] {y z : Action Node α} (hy : c → Does src y n Q)
    (hz : ¬ c → Does src z n Q) : Does src (if c then y else z) n Q := by
  split
  · rename_i hc
    exact hy hc
  · rename_i hc
    exact hz hc

theorem does_fail {e : Error} : Does src (Action.fail e : Action Node α) n Q :=
  Action.ensures_fail (Fails.of_moves (Moves.refl n.outline))

theorem does_ofExcept_bind {y : Except (Failure Error) β} {f : β → Action Node α}
    (h : ∀ b, y = .ok b → Does src (f b) n Q) : Does src (Action.ofExcept y >>= f) n Q := by
  cases y with
  | ok b => exact h b rfl
  | error e => exact Fails.of_moves (Moves.refl n.outline)

theorem does_ofResult_bind {y : Except Error β} {f : β → Action Node α}
    (h : ∀ b, y = .ok b → Does src (f b) n Q) : Does src (Action.ofResult y >>= f) n Q := by
  cases y with
  | ok b => exact h b rfl
  | error e => exact (does_fail (Q := fun _ _ => False)).bind fun _ _ hf => hf.elim

/-! ## Small actions -/

theorem perform_ensures (e : Effect) (n : Node) :
    (perform e).Ensures n
      (fun _ m => m.role = n.role
        ∧ m.outline = { n.outline with effects := n.outline.effects ++ [e] })
      fun _ _ => False := by
  refine Action.ensures_modify ⟨rfl, ?_⟩
  simp only [outline, List.map_append, List.map_singleton, departure]

theorem perform_does {e : Effect} (h : Utters src n.outline e) :
    Does src (perform e) n fun _ m =>
      m.outline = { n.outline with effects := n.outline.effects ++ [e] } := by
  refine (perform_ensures e n).mono_of_sure fun _ m ⟨_, hm⟩ => ⟨?_, hm⟩
  rw [hm]
  exact (Move.utter e h).moves

theorem answer_does {caller : Caller} {a : Answer}
    (h : Utters src n.outline (.answer caller a)) :
    Does src (answer caller a) n fun _ m => m.outline.mute = n.outline.mute :=
  (perform_does h).weaken fun _ m hm => by rw [hm]; rfl

theorem send_does {target : NodeId} {r : Request}
    (h : Utters src n.outline (.send target r)) :
    Does src (send target r) n fun _ m => m.outline.mute = n.outline.mute :=
  (perform_does h).weaken fun _ m hm => by rw [hm]; rfl

theorem stance_restart (timer : ElectionTimer) (now : Nat) (r : Role) :
    (r.restart timer now).stance = r.stance := by
  cases r <;> rfl

theorem resetTimer_quiet (n : Node) :
    Quiet resetTimer n fun _ m => m.role.kind = n.role.kind := by
  refine (resetTimer_leaves n).weaken ?_
  rintro _ _ ⟨timer, seed, rfl⟩
  refine ⟨?_, Role.kind_restart timer n.now n.role⟩
  simp only [outline, stance_restart]

theorem count_quiet (f : Counters → Counters) (n : Node) :
    Quiet (count f) n fun _ m => m.role = n.role := quiet_modify rfl rfl

/-- What a leader changes in its bookkeeping alone. -/
theorem modifyLeader_quiet {f : LeaderState → LeaderState}
    (hf : ∀ l, n.role = .leader l → (f l).matched = l.matched) :
    Quiet (modifyLeader f) n fun _ m =>
      m.role.kind = n.role.kind ∧ ∀ l, n.role = .leader l → m.role = .leader (f l) := by
  refine quiet_modify ?_ ?_
  · cases h : n.role with
    | follower | candidate => rfl
    | leader l => simp only [outline, Role.stance, h, hf l h]
  · cases h : n.role with
    | follower timer => simp [h]
    | candidate timer votes => simp [h]
    | leader l => simp [Role.kind]

theorem modifyLeader_does {f : LeaderState → LeaderState} {l : LeaderState}
    (hrole : n.role = .leader l)
    (hmoves : Moves src n.outline { n.outline with stance := .leader (f l).matched }) :
    Does src (modifyLeader f) n fun _ m =>
      m.outline = { n.outline with stance := .leader (f l).matched } := by
  refine (modifyLeader_leaves hrole).mono_of_sure ?_
  rintro _ m rfl
  exact ⟨hmoves, rfl⟩

/-- Storing the hard state succeeds, or stops the node. -/
theorem setHard_ensures (h : HardState) (n : Node) :
    (setHard h).Ensures n (fun _ m => m.outline = n.outline.store h)
      (fun f m => (∃ e, f = .error e ∧ e.isFatal = true)
        ∧ m.outline = { n.outline with hard := h }) := by
  refine (setHard_leaves h n).mono ?_ ?_
  · rintro _ _ ⟨savesLeft, rfl⟩
    rfl
  · rintro f _ ⟨⟨e, rfl⟩, rfl⟩
    exact ⟨⟨_, rfl, Error.isFatal_persistence _ e⟩, rfl⟩

/-- A failure to store a term and a vote stops the node. -/
theorem fails_of_store {o o' : Outline} {f : Failure Error} {h : HardState}
    (hf : ∃ e, f = .error e ∧ e.isFatal = true) (hle : o.hard.term ≤ h.term)
    (ho : o' = { o with hard := h }) : Fails src o f o' := by
  refine Fails.of_breaks ⟨o, Moves.refl o, ?_⟩ (Or.inr hf)
  rw [ho]
  exact ⟨rfl, rfl, rfl, Or.inl rfl, hle, rfl, rfl, rfl, rfl, rfl⟩

theorem setHard_does {h : HardState} (hmoves : Moves src n.outline (n.outline.store h))
    (hle : n.outline.hard.term ≤ h.term) :
    Does src (setHard h) n fun _ m => m.outline = n.outline.store h := by
  refine (setHard_ensures h n).mono (fun _ m hm => ⟨?_, hm⟩) ?_
  · rwa [hm]
  · rintro f m ⟨hf, hm⟩
    exact fails_of_store hf hle hm

theorem Outline.adopt_of_lt {o : Outline} {t : Nat} (h : o.hard.term < t) :
    o.adopt t = o.store ⟨t, none⟩ := by
  unfold Outline.adopt
  rw [if_pos h, if_pos h]
  rfl

theorem Outline.adopt_of_le {o : Outline} {t : Nat} (h : t ≤ o.hard.term) : o.adopt t = o := by
  unfold Outline.adopt
  rw [if_neg (Nat.not_lt.2 h), if_neg (Nat.not_lt.2 h)]

theorem Outline.term_adopt {o : Outline} {t : Nat} (h : o.hard.term ≤ t) :
    (o.adopt t).hard.term = t := by
  rcases Nat.lt_or_ge o.hard.term t with hlt | hge
  · rw [adopt_of_lt hlt]
    rfl
  · rw [adopt_of_le hge]
    omega

theorem adoptTerm_ensures (t : Nat) (n : Node) :
    (adoptTerm t).Ensures n (fun _ m => m.outline = n.outline.adopt t)
      (fun f m => (∃ e, f = .error e ∧ e.isFatal = true) ∧ n.outline.hard.term < t
        ∧ m.outline = { n.outline with hard := ⟨t, none⟩ }) := by
  refine (adoptTerm_leaves t n).mono ?_ ?_
  · rintro _ m (⟨hle, rfl⟩ | ⟨hlt, savesLeft, rfl⟩)
    · exact (Outline.adopt_of_le (o := m.outline) hle).symm
    · exact (Outline.adopt_of_lt (o := n.outline) hlt).symm
  · rintro f _ ⟨⟨e, rfl⟩, hlt, rfl⟩
    exact ⟨⟨_, rfl, Error.isFatal_persistence _ e⟩, hlt, rfl⟩

theorem moves_adopt {o : Outline} (t : Nat) (hphase : o.phase = .idle) :
    Moves src o (o.adopt t) := by
  rcases Nat.lt_or_ge o.hard.term t with hlt | hge
  · rw [Outline.adopt_of_lt hlt]
    exact (Move.adopt t hphase hlt).moves
  · exact Moves.of_eq (Outline.adopt_of_le hge)

theorem adoptTerm_does {t : Nat} (hphase : n.outline.phase = .idle) :
    Does src (adoptTerm t) n fun _ m => m.outline = n.outline.adopt t := by
  refine (adoptTerm_ensures t n).mono (fun _ m hm => ⟨?_, hm⟩) ?_
  · rw [hm]
    exact moves_adopt t hphase
  · rintro f m ⟨hf, ht, hm⟩
    exact fails_of_store hf (Nat.le_of_lt ht) hm

theorem emit_ensures {e : RoleEvent} (hopen : n.outline.closed = false) :
    (emit e).Ensures n
      (fun _ m => m.outline = { n.outline with queue := n.outline.queue ++ [e] })
      fun _ _ => False := by
  refine (emit_leaves_of_open hopen).weaken ?_
  rintro _ _ rfl
  rfl

theorem emit_does {e : RoleEvent} {o : Outline} (hopen : n.outline.closed = false)
    (ho : { n.outline with queue := n.outline.queue ++ [e] } = o)
    (hmoves : Moves src n.outline o) : Does src (emit e) n fun _ m => m.outline = o := by
  refine (emit_ensures hopen).mono_of_sure fun _ m hm => ?_
  rw [ho] at hm
  exact ⟨by rwa [hm], hm⟩

/-- The outline of a node that raised its commit index. -/
def Outline.advance (o : Outline) (i : Nat) : Outline :=
  if o.commit < i then { o with commit := i, queue := [.newCommit i] } else o

theorem advanceCommit_does {i : Nat} (hopen : n.outline.closed = false)
    (hqueue : n.outline.queue = [])
    (hmove : n.outline.commit < i →
      Move src n.outline { n.outline with commit := i, queue := [.newCommit i] }) :
    Does src (advanceCommit i) n fun _ m => m.outline = n.outline.advance i := by
  refine (advanceCommit_leaves_of_open hopen).mono_of_sure ?_
  rintro _ m (⟨hle, rfl⟩ | ⟨hlt, rfl⟩)
  · exact ⟨Moves.refl _, (if_neg (Nat.not_lt.2 hle)).symm⟩
  · have ho : ({ n with commit := i, queue := n.queue ++ [.newCommit i] } : Node).outline
        = { n.outline with commit := i, queue := [.newCommit i] } := by
      show ({ n.outline with commit := i, queue := n.outline.queue ++ [.newCommit i] } : Outline) = _
      rw [hqueue]
      rfl
    refine ⟨?_, ho.trans (if_pos hlt).symm⟩
    rw [ho]
    exact (hmove hlt).moves

/-! ## The log -/

theorem outline_log (n : Node) (l : Log) (w : Bool) :
    ({ n with log := l, writeFailed := w } : Node).outline
      = { n.outline with log := l.entries } := rfl

theorem tryLog_does {y : Action Log α} {P : α → Log → Prop} {E : Failure Error → Log → Prop}
    (h : y.Ensures n.log P E)
    (hP : ∀ a l, P a l → Moves src n.outline ({ n with log := l } : Node).outline)
    (hE : ∀ f l, E f l → Moves src n.outline ({ n with log := l } : Node).outline) :
    Does src (tryLog y) n fun r m => ∃ l w, m = { n with log := l, writeFailed := w } ∧ match r with
      | .ok a => P a l
      | .error e => E (.error e) l := by
  refine (tryLog_leaves h).mono ?_ ?_
  · rintro (e | a) m ⟨l, w, rfl, -, hl⟩
    · exact ⟨hE _ l hl, l, w, rfl, hl⟩
    · exact ⟨hP a l hl, l, w, rfl, hl⟩
  · rintro f m ⟨l, rfl, rfl, hl⟩
    exact (hE _ l hl).breaks

/-! ## Refusals -/

theorem refuseVote_does (caller : Caller) : Does src (refuseVote caller) n fun _ _ => True := by
  refine does_get_bind ((answer_does (utters_vote fun hgranted => ?_)).weaken fun _ _ _ => trivial)
  cases hgranted

theorem refuseAppend_does (caller : Caller) :
    Does src (refuseAppend caller) n fun _ _ => True := by
  refine does_get_bind ((answer_does (utters_append fun hsuccess => ?_)).weaken
    fun _ _ _ => trivial)
  cases hsuccess

theorem answerTimeoutNow_does (caller : Caller) (accepted : Bool) :
    Does src (answerTimeoutNow caller accepted) n fun _ m => m.outline.mute = n.outline.mute :=
  does_get_bind (answer_does utters_timeoutNow)

/-! ## Stepping down -/

/-- A node may ask itself to step down and enter a newer term in one go. -/
theorem moves_yield {o : Outline} (t : Nat) (l : Option NodeId) (hqueue : o.queue = []) :
    Moves src o { o.adopt t with queue := [.becomeFollower l] } := by
  have hyield : Moves src o _ := (Move.yield l hqueue).moves
  have hidle : ({ o with queue := [.becomeFollower l] } : Outline).phase = .idle :=
    Outline.phase_of_any rfl
  exact hyield.trans (moves_adopt t hidle)

/-- A newer term is entered, and the node asks itself to step down. -/
theorem yield_does {t : Nat} {l : Option NodeId} (hopen : n.outline.closed = false)
    (hqueue : n.outline.queue = []) :
    Does src (adoptTerm t >>= fun _ => emit (.becomeFollower l)) n fun _ m =>
      m.outline = { n.outline.adopt t with queue := [.becomeFollower l] } := by
  have hend : ∀ m : Node, m.outline = { n.outline.adopt t with queue := [.becomeFollower l] } →
      Moves src n.outline m.outline
        ∧ m.outline = { n.outline.adopt t with queue := [.becomeFollower l] } := by
    intro m hm
    refine ⟨?_, hm⟩
    rw [hm]
    exact moves_yield t l hqueue
  refine Action.Ensures.bind (Q := fun _ m => m.outline = n.outline.adopt t)
    ((adoptTerm_ensures t n).mono (fun _ _ h => h) ?_) ?_
  · rintro f m ⟨hf, ht, hm⟩
    exact fails_of_store hf (Nat.le_of_lt ht) hm
  · intro _ m hm
    refine (emit_ensures (by rw [hm]; exact hopen)).mono_of_sure fun _ k hk => ?_
    refine hend k ?_
    rw [hk, hm]
    show { n.outline.adopt t with queue := n.outline.queue ++ [RoleEvent.becomeFollower l] } = _
    rw [hqueue]
    rfl

/-- A newer term is entered, and the event is kept until the node has stepped down. -/
theorem stepDownAndReplay_does {t : Nat} {l : Option NodeId} {e : Event} (hsrc : src = some e)
    (hopen : n.outline.closed = false) (hqueue : n.outline.queue = []) :
    Does src (adoptTerm t >>= fun _ => stepDownAndReplay l e) n fun _ _ => True := by
  rw [adoptTerm_stepDownAndReplay]
  refine (yield_does hopen hqueue).bind fun _ m hm => ?_
  have hopen' : m.outline.closed = false := by
    rw [hm]
    exact hopen
  refine (emit_does hopen' rfl ?_).weaken fun _ _ _ => trivial
  rw [hm]
  exact (Move.postpone e l hsrc rfl).moves

end Raft.Node
