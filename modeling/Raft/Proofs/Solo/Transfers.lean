import Mathlib.Data.List.Induction
import Raft.Proofs.Profile.Terms
import Raft.Proofs.Solo.Leadership

/-!
# How transfers end

The caller of a transfer waits until it is told how the transfer ended, and it is told once,
whatever comes in and whatever fails.

* `Solo.Waits n k`, `Solo.outcomes n k`: the caller waits, and what it was told.
* `Solo.Hears`: the answer of a peer to the request to take over reaches the leader in time.
* `Solo.Course`: what is kept from the call on.
* `Solo.transfer_outcome` is the result.
* `deposed_leader_reports_success`: a leader that steps down does not wait for its target's answer.
-/

namespace Raft

/-- What a note tells a caller of a transfer, and the term of the node. -/
def Note.outcome? (k : Caller) : Note → Option (Except Error Unit × Nat)
  | .tells c x t => if c = k then some (x, t) else none
  | .asks .. => none

section Outcomes

variable {notes : List Note} {k : Caller} {x : Except Error Unit} {u : Nat}

theorem outcomes_eq_nil (h : k ∉ notes.filterMap Note.caller?) :
    notes.filterMap (Note.outcome? k) = [] := by
  rw [List.filterMap_eq_nil_iff]
  intro y hy
  cases y with
  | asks => rfl
  | tells c x t =>
    refine if_neg ?_
    rintro rfl
    exact h (List.mem_filterMap.2 ⟨_, hy, rfl⟩)

/-- A caller that is told something is told nothing else. -/
theorem outcomes_eq_singleton (hnodup : (notes.filterMap Note.caller?).Nodup)
    (h : .tells k x u ∈ notes) : notes.filterMap (Note.outcome? k) = [(x, u)] := by
  obtain ⟨a, b, rfl⟩ := List.append_of_mem h
  simp only [List.filterMap_append, List.filterMap_cons, Note.caller?] at hnodup
  obtain ⟨-, hb, hapart⟩ := List.nodup_append.1 hnodup
  have ha : k ∉ a.filterMap Note.caller? := fun hk => hapart k hk k (List.mem_cons_self ..) rfl
  have hb : k ∉ b.filterMap Note.caller? := (List.nodup_cons.1 hb).1
  simp [outcomes_eq_nil ha, outcomes_eq_nil hb, Note.outcome?]

end Outcomes

namespace Solo

variable {n n' since : Solo} {a : Act} {k : Caller} {target : NodeId} {t : Nat}
  {accepts accepts' : Nat → Prop} {lost lost' : Prop}

/-! ## What is observed -/

/-- The caller of a transfer waits at a leader. -/
def Waits (n : Solo) (k : Caller) : Prop :=
  ∃ s, n.site = .up s ∧ s.isRunning = true ∧ s.node.transferCaller? = some k

/-- The event loop is about to take a tick or an event, in a term. -/
def FreeIn (n : Solo) (t : Nat) : Prop :=
  ∃ s, n.site = .up s ∧ s.isRunning = true ∧ s.node.queue = [] ∧ s.node.term = t

/-- What the node said about transfers since an earlier moment. -/
def saidSince (n since : Solo) : List Note := n.notes.drop since.notes.length

/-- What the caller of a transfer was told, with the term of the node by then. -/
def outcomes (n : Solo) (k : Caller) : List (Except Error Unit × Nat) :=
  n.notes.filterMap (Note.outcome? k)

/-- The answer of a peer to the request to take over, which was made in a term, reaches a leader in
that term while a caller waits, and shows no newer term. That is after `xs` of the acts `during`
that follow the acts `start`. -/
def Hears (r : Node.Remains) (start during xs : List Act) (k : Caller) (peer : NodeId) (t : Nat)
    (a : TimeoutNowResponse) : Prop :=
  (∃ ys, during = xs ++ Act.event (.timeoutNowResult peer t (.ok a)) :: ys)
    ∧ (run r (start ++ xs)).Waits k ∧ (run r (start ++ xs)).FreeIn t ∧ a.term ≤ t

instance (n : Solo) (k : Caller) : Decidable (n.Waits k) :=
  decidable_of_iff (n.server?.any (fun s => s.isRunning && s.node.transferCaller? == some k) = true)
    (by
      unfold server? Waits
      cases n.site <;> simp)

theorem transferCaller?_eq (n : Node) : n.transferCaller? = n.profile.caller? := by
  unfold Node.transferCaller? Node.leader? Profile.caller?
  show _ = n.role.post.transfer?.bind _
  cases n.role <;> rfl

theorem waits_iff : n.Waits k ↔ ∃ p, n.phase = .runs p ∧ p.caller? = some k := by
  constructor
  · rintro ⟨s, hs, hrun, hcaller⟩
    exact ⟨_, phase_of_running hs hrun, transferCaller?_eq s.node ▸ hcaller⟩
  · rintro ⟨p, hp, hcaller⟩
    obtain ⟨s, hs, hrun, rfl⟩ := exists_of_phase hp
    exact ⟨s, hs, hrun, (transferCaller?_eq s.node).trans hcaller⟩

theorem freeIn_of_phase {p : Profile} (hp : n.phase = .runs p) (hqueue : p.queue = []) :
    n.FreeIn p.hard.term := by
  obtain ⟨s, hs, hrun, rfl⟩ := exists_of_phase hp
  exact ⟨s, hs, hrun, hqueue, rfl⟩

theorem saidSince_append {notes : List Note} (h : since.notes <+: n.notes)
    (h' : n'.notes = n.notes ++ notes) : n'.saidSince since = n.saidSince since ++ notes := by
  unfold saidSince
  rw [h', List.drop_append_of_le_length h.length_le]

theorem not_told_of_waiting {p : Profile} (hnodup : n.callers.Nodup) (hp : n.phase = .runs p)
    (hc : p.caller? = some k) : k ∉ n.notes.filterMap Note.caller? := by
  have hwaits : k ∈ p.callers := by
    unfold Profile.callers
    rw [hc]
    exact List.mem_append_right _ (List.mem_singleton_self _)
  rw [callers_of_phase hp] at hnodup
  exact fun hk => (List.nodup_append.1 hnodup).2.2 k hk k hwaits rfl

/-! ## The course of a transfer -/

/-- From the call on, the caller waits, or it was told how its transfer ended, or it is forgotten.
-/
structure Course (n since : Solo) (accepts : Nat → Prop) (lost : Prop) (k : Caller)
    (target : NodeId) : Prop where
  said : since.notes <+: n.notes
  below : k < n.inbound.length
  course : (∃ p t, n.phase = .runs p ∧ p.Waiting (n.saidSince since) k target t)
    ∨ Concluded (n.saidSince since) accepts k target
    ∨ k ∉ n.callers ∧ (n.phase = .ended ∨ lost)

theorem Passes.notes_kept (h : Passes n a n') : n.notes <+: n'.notes := by
  cases h with
  | same _ hnotes | crash _ _ hnotes | start _ _ _ _ _ _ _ hnotes =>
    exact hnotes ▸ List.prefix_rfl
  | work p m src _ _ _ _ _ hnotes =>
    rw [hnotes]
    exact List.prefix_append _ _

/-- The turns of a node whose caller waits: it still does, or it was told, or the event loop ended.
-/
theorem course_of_work {p m : Profile} {src : Option Event} (h : n.Steady)
    (hsaid : since.notes <+: n.notes) (hp : n.phase = .runs p)
    (hwaits : p.Waiting (n.saidSince since) k target t) (hturns : Turns src p m)
    (hphase : n'.phase = .runs { m with notes := [] } ∨ n'.phase = .ended)
    (hnotes : n'.notes = n.notes ++ m.notes)
    (haccepts : ∀ peer y, src = some (.timeoutNowResult peer t (.ok y)) → y.accepted = true →
      y.term ≤ t → accepts t) :
    (∃ p t, n'.phase = .runs p ∧ p.Waiting (n'.saidSince since) k target t)
      ∨ Concluded (n'.saidSince since) accepts k target
      ∨ k ∉ n'.callers ∧ (n'.phase = .ended ∨ lost) := by
  rw [saidSince_append hsaid hnotes]
  have hcourse : p.Course (n.saidSince since) accepts k target t := Or.inl hwaits
  rcases hcourse.turns hturns haccepts with hm | hm
  · rcases hphase with hphase | hphase
    · obtain ⟨x, hpost, htarget, hcaller, hasked⟩ := hm.transfer
      refine Or.inl ⟨_, t, hphase, ⟨x, hpost, htarget, hcaller, fun hx => ?_⟩, hm.level⟩
      rw [List.append_nil]
      exact hasked hx
    · -- nobody is left who could tell the caller
      refine Or.inr (Or.inr ⟨?_, Or.inl hphase⟩)
      have hold := not_told_of_waiting h.nodup hp hwaits.caller?
      have hnew := (List.nodup_append.1 (hturns.callers (h.callers_nodup hp)).1).2.2
      unfold callers
      rw [hphase, hnotes, List.append_nil, List.filterMap_append, List.mem_append, not_or]
      refine ⟨hold, fun hk => hnew k hk k ?_ rfl⟩
      rw [hm.caller?]
      exact List.mem_singleton_self _
  · exact Or.inr (Or.inl hm)

/-- The answer that a work of a node with a waiting caller takes up is one that comes in, while the
loop is free: answers are not put back. -/
theorem arrives_of_waiting {p : Profile} {src : Option Event} {peer : NodeId}
    {y : TimeoutNowResponse} {notes : List Note} (hp : n.phase = .runs p)
    (hwaits : p.Waiting notes k target t)
    (hsrc : (∃ e, a = .event e ∧ src = some (e.withCaller n.inbound.length) ∧ p.queue = [])
      ∨ ∀ x, src = some x → x.IsRequest)
    (hy : src = some (.timeoutNowResult peer t (.ok y))) :
    a = .event (.timeoutNowResult peer t (.ok y)) ∧ n.Waits k ∧ n.FreeIn t := by
  rcases hsrc with ⟨e, rfl, he, hqueue⟩ | hrequest
  · have hevent : e = .timeoutNowResult peer t (.ok y) := by
      have hsame := Option.some.inj (he.symm.trans hy)
      cases e <;> simp [Event.withCaller] at hsame ⊢
      exact hsame
    have hterm : p.hard.term = t := by
      rcases hwaits.level with ⟨-, hterm⟩ | ⟨hretires, -⟩
      · exact hterm
      · rw [Profile.retires, hqueue] at hretires
        cases hretires
    exact ⟨by rw [hevent], waits_iff.2 ⟨p, hp, hwaits.caller?⟩, hterm ▸ freeIn_of_phase hp hqueue⟩
  · exact (hrequest _ hy).elim

/-- What an act makes of a caller that waits. -/
theorem course_of_waiting {p : Profile} (h : n.Steady) (hsaid : since.notes <+: n.notes)
    (hp : n.phase = .runs p) (hwaits : p.Waiting (n.saidSince since) k target t)
    (hpasses : Passes n a n') (hcrash : a = .crash → lost)
    (haccepts : ∀ peer t y, a = .event (.timeoutNowResult peer t (.ok y)) → y.accepted = true →
      y.term ≤ t → n.Waits k → n.FreeIn t → accepts t) :
    (∃ p t, n'.phase = .runs p ∧ p.Waiting (n'.saidSince since) k target t)
      ∨ Concluded (n'.saidSince since) accepts k target
      ∨ k ∉ n'.callers ∧ (n'.phase = .ended ∨ lost) := by
  cases hpasses with
  | same hphase hsame =>
    left
    refine ⟨p, t, hphase.trans hp, ?_⟩
    unfold saidSince at hwaits ⊢
    rwa [hsame]
  | crash hact hphase hsame =>
    -- nobody waits after a crash, and who waited was told nothing
    refine Or.inr (Or.inr ⟨?_, Or.inr (hcrash hact)⟩)
    unfold callers
    rw [hphase, hsame, List.append_nil]
    exact not_told_of_waiting h.nodup hp hwaits.caller?
  | start _ hdown =>
    rw [hp] at hdown
    cases hdown
  | work q m src hold _ hsrc hturns hphase hsame =>
    obtain rfl := Phase.runs.inj (hp.symm.trans hold)
    refine course_of_work h hsaid hp hwaits hturns hphase hsame fun peer y hy hyes hle => ?_
    obtain ⟨hact, hw, hfree⟩ := arrives_of_waiting hp hwaits hsrc hy
    exact haccepts peer t y hact hyes hle hw hfree

/-- A loop that ended stays so until the node crashes. -/
theorem Passes.ended (h : Passes n a n') (hend : n.phase = .ended) :
    n'.phase = .ended ∨ a = .crash := by
  cases h with
  | same hphase => exact Or.inl (hphase.trans hend)
  | crash hact => exact Or.inr hact
  | start _ hdown =>
    rw [hend] at hdown
    cases hdown
  | work _ _ _ hold =>
    rw [hend] at hold
    cases hold

theorem Course.passes (hn : n.Course since accepts lost k target) (h : n.Steady)
    (hpasses : Passes n a n') (hinbound : n'.inbound = n.inbound ++ n.incoming a)
    (hmono : ∀ t, accepts t → accepts' t) (hlost : lost → lost') (hcrash : a = .crash → lost')
    (haccepts : ∀ peer t y, a = .event (.timeoutNowResult peer t (.ok y)) → y.accepted = true →
      y.term ≤ t → n.Waits k → n.FreeIn t → accepts' t) :
    n'.Course since accepts' lost' k target := by
  obtain ⟨notes, hnotes⟩ := hpasses.notes_kept
  refine ⟨hn.said.trans ⟨notes, hnotes⟩, ?_, ?_⟩
  · rw [hinbound, List.length_append]
    exact Nat.lt_of_lt_of_le hn.below (Nat.le_add_right _ _)
  rcases hn.course with ⟨p, t, hp, hwaits⟩ | hconcluded | ⟨hforgotten, hend⟩
  · exact course_of_waiting h hn.said hp hwaits hpasses hcrash haccepts
  · -- how the transfer ended was said, and stays said
    rw [saidSince_append hn.said hnotes.symm]
    exact Or.inr (Or.inl (hconcluded.mono (List.subset_append_left _ _) hmono))
  · -- the caller is forgotten, and its number is not given to another
    refine Or.inr (Or.inr ⟨fun hk => ?_, ?_⟩)
    · rcases (hpasses.callers h hinbound).2 k hk with hk | ⟨rfl, -⟩
      · exact hforgotten hk
      · exact Nat.lt_irrefl _ hn.below
    · rcases hend with hend | hend
      · exact (hpasses.ended hend).imp_right hcrash
      · exact Or.inr (hlost hend)

/-- The call for a transfer: its caller waits, or it was told how the transfer ended. -/
theorem course_of_call {c : Caller} (h : n.Steady) (hk : n.inbound.length = k)
    (hpasses : Passes n (.event (.transfer target c)) n')
    (hinbound : n'.inbound = n.inbound ++ n.incoming (.event (.transfer target c)))
    (hwaits : n'.Waits k) : n'.Course n accepts lost k target := by
  have hfresh : k ∉ n.callers := fun hmem => Nat.lt_irrefl _ (hk ▸ h.below k hmem)
  obtain ⟨q, hq, hcaller⟩ := waits_iff.1 hwaits
  refine ⟨hpasses.notes_kept, ?_, ?_⟩
  · rw [hinbound, ← hk]
    simp [incoming]
  cases hpasses with
  | same hphase =>
    refine absurd ?_ hfresh
    unfold callers Profile.callers
    rw [← hphase, hq]
    simp [hcaller]
  | crash hact => cases hact
  | start p _ hphase hpost =>
    obtain rfl := Phase.runs.inj (hphase.symm.trans hq)
    unfold Profile.caller? at hcaller
    rw [hpost] at hcaller
    cases hcaller
  | work p m src hold hsilent hsrc hturns hphase hnotes =>
    rcases hphase with hphase | hphase <;> rw [hphase] at hq <;> cases hq
    have hmem : k ∈ m.callers := by
      unfold Profile.callers
      rw [show m.caller? = some k from hcaller]
      exact List.mem_append_right _ (List.mem_singleton_self _)
    -- the caller is new, so it is the one whose call the work takes up
    rw [callers_of_phase hold, List.mem_append, not_or] at hfresh
    rcases hsrc with ⟨e, he, hsrc, -⟩ | hrequest
    · obtain rfl := Act.event.inj he
      have hsrc : src = some (.transfer target k) := by
        rw [hsrc, ← hk]
        rfl
      rw [hsrc] at hturns
      have hnone : n.saidSince n = [] := List.drop_length
      have hcourse : k ∉ m.callers ∨ ∃ t, m.Course [] accepts k target t :=
        Profile.course_of_call hfresh.2 hturns
      rcases hcourse with hk | ⟨t, ht⟩
      · exact absurd hmem hk
      · rw [saidSince_append List.prefix_rfl hnotes, hnone]
        rcases ht with ⟨⟨x, hpost, htarget, hcaller, hasked⟩, hlevel⟩ | ht
        · refine Or.inl ⟨_, t, hphase, ⟨x, hpost, htarget, hcaller, fun hx => ?_⟩, hlevel⟩
          rw [List.append_nil]
          exact hasked hx
        · exact Or.inr (Or.inl ht)
    · rcases (hturns.callers (h.callers_nodup hold)).2.2 k hmem with hk | ⟨target', hk⟩
      · exact absurd hk hfresh.2
      · exact (hrequest _ hk).elim

theorem notes_kept_run (r : Node.Remains) (acts later : List Act) :
    (run r acts).notes <+: (run r (acts ++ later)).notes := by
  induction later using List.reverseRecOn with
  | nil => simpa only [List.append_nil] using List.prefix_refl (run r acts).notes
  | append_singleton later a ih =>
    rw [← List.append_assoc]
    exact ih.trans (goes_run r _ a).1.notes_kept

/-- The course of a transfer over any acts. -/
theorem course_run {r : Node.Remains} {before start : List Act} {c : Caller}
    (hstart : start = before ++ [.event (.transfer target c)])
    (hk : (run r before).inbound.length = k) (hwaits : (run r start).Waits k) (during : List Act) :
    (run r (start ++ during)).Course (run r before)
      (fun t => ∃ xs peer a, Hears r start during xs k peer t a ∧ a.accepted = true)
      (.crash ∈ during) k target := by
  induction during using List.reverseRecOn with
  | nil =>
    have hcall := goes_run r before (.event (.transfer target c))
    rw [← hstart] at hcall
    rw [List.append_nil]
    refine course_of_call (steady_run r before) hk hcall.1 ?_ hwaits
    rw [hstart, run_append]
    exact inbound_step (run r before) (.event (.transfer target c))
  | append_singleton during a ih =>
    rw [← List.append_assoc]
    refine ih.passes (steady_run r _) (goes_run r _ a).1 ?_ ?_ ?_ ?_ ?_
    · rw [run_append r (start ++ during)]
      exact inbound_step _ _
    · -- what was heard before is heard still
      rintro t ⟨xs, peer, y, ⟨⟨ys, hys⟩, hrest⟩, hyes⟩
      exact ⟨xs, peer, y, ⟨⟨ys ++ [a], by rw [hys]; simp⟩, hrest⟩, hyes⟩
    · exact fun hmem => List.mem_append_left _ hmem
    · rintro rfl
      exact List.mem_append_right _ (List.mem_singleton_self _)
    · rintro peer t y rfl hyes hle hw hfree
      exact ⟨during, peer, y, ⟨⟨[], rfl⟩, hw, hfree, hle⟩, hyes⟩

/-! ## Answers of peers -/

/-- An answer that is heard in time is told to the caller, whoever it comes from. -/
theorem exists_told_of_heard {y : TimeoutNowResponse} (peer : NodeId) (hwaits : n.Waits k)
    (hfree : n.FreeIn t) (hle : y.term ≤ t) :
    ∃ x, Note.tells k x t ∈ (n.step (.event (.timeoutNowResult peer t (.ok y)))).notes
      ∧ (x = .ok () ↔ y.accepted = true) := by
  obtain ⟨s, hs, hrun, hcaller⟩ := hwaits
  obtain ⟨s', hs', -, hqueue, rfl⟩ := hfree
  obtain rfl := Network.Site.up.inj (hs.symm.trans hs')
  rw [transferCaller?_eq] at hcaller
  obtain ⟨x, hx, hxk⟩ := Option.bind_eq_some_iff.1 hcaller
  obtain ⟨m, hhandle, hm⟩ := Node.handle_answered (Post.eq_leader_of_transfer? hx) peer
    (r := .ok y) fun a ha => Except.ok.inj ha ▸ hle
  have hnode : (s.handle (.event (.timeoutNowResult peer s.node.term (.ok y)))).node = m := by
    unfold Server.handle Work.run
    dsimp only
    rw [hhandle]
    rfl
  have hnotes : (n.step (.event (.timeoutNowResult peer s.node.term (.ok y)))).notes
      = n.notes ++ m.profile.notes := by
    rw [← hnode, ← notes_settle, step_event_of_free _ hs hrun hqueue]
    rfl
  obtain ⟨z, hz, hok⟩ := Profile.exists_told_of_answered hx hxk y
  rw [hnotes, hm]
  exact ⟨z, List.mem_append_right _ hz, hok⟩

/-- So the caller is told as soon as an answer is heard, and is told nothing else later. -/
theorem exists_outcome_of_heard {r : Node.Remains} {start during xs : List Act} {peer : NodeId}
    {y : TimeoutNowResponse} (h : Hears r start during xs k peer t y) :
    ∃ x, (run r (start ++ during)).outcomes k = [(x, t)] ∧ (x = .ok () ↔ y.accepted = true) := by
  obtain ⟨⟨ys, rfl⟩, hwaits, hfree, hle⟩ := h
  obtain ⟨x, hx, hok⟩ := exists_told_of_heard peer hwaits hfree hle
  have hsplit : start ++ (xs ++ Act.event (.timeoutNowResult peer t (.ok y)) :: ys)
      = start ++ xs ++ [Act.event (.timeoutNowResult peer t (.ok y))] ++ ys := by simp
  have htold := (List.nodup_append.1 (steady_run r
    (start ++ xs ++ [Act.event (.timeoutNowResult peer t (.ok y))] ++ ys)).nodup).1
  rw [hsplit]
  refine ⟨x, outcomes_eq_singleton htold ((notes_kept_run r _ ys).subset ?_), hok⟩
  rw [run_append]
  exact hx

/-! ## The result -/

/-- **Transfers.** A caller whose call for a transfer was taken up waits until the node crashes, its
event loop ends, or it was told how the transfer ended, which it is told once. It is told of success
in two cases only: the leader steps down after the target was asked, and is in a newer term by then,
or an acceptance reached the leader in time. Any answer that reaches it in time is told as what it
is: the first one ends the matter, and a rejection is never success. The leader does not ask whose
answer it is, nor does it wait for one when it steps down. -/
theorem transfer_outcome (r : Node.Remains) (before during : List Act) (target : NodeId)
    (c : Caller) {start : List Act} {k : Caller}
    (hstart : start = before ++ [.event (.transfer target c)])
    (hk : (run r before).inbound.length = k) (htaken : (run r start).Waits k) :
    let n := run r (start ++ during)
    (n.outcomes k = [] ∧ (n.Waits k ∨ n.phase = .ended ∨ .crash ∈ during)
        ∨ ∃ x u, n.outcomes k = [(x, u)] ∧ ¬ n.Waits k
          ∧ (x = .ok () → (∃ t, t < u ∧ AskedIn (n.saidSince (run r before)) target t)
            ∨ ∃ xs peer a, Hears r start during xs k peer u a ∧ a.accepted = true))
      ∧ ∀ xs peer t a, Hears r start during xs k peer t a →
        ∃ x, n.outcomes k = [(x, t)] ∧ (x = .ok () ↔ a.accepted = true) := by
  have hsteady := steady_run r (start ++ during)
  have htold : ((run r (start ++ during)).notes.filterMap Note.caller?).Nodup :=
    (List.nodup_append.1 hsteady.nodup).1
  intro n
  refine ⟨?_, fun _ _ _ _ hears => exists_outcome_of_heard hears⟩
  rcases (course_run hstart hk htaken during).course with
    ⟨p, t, hp, hwaits⟩ | ⟨x, u, hx, hok⟩ | ⟨hforgotten, hend⟩
  · exact Or.inl ⟨outcomes_eq_nil (not_told_of_waiting hsteady.nodup hp hwaits.caller?),
      Or.inl (waits_iff.2 ⟨p, hp, hwaits.caller?⟩)⟩
  · have hmem : Note.tells k x u ∈ n.notes := List.mem_of_mem_drop hx
    refine Or.inr ⟨x, u, outcomes_eq_singleton htold hmem, fun hw => ?_, hok⟩
    obtain ⟨p, hp, hcaller⟩ := waits_iff.1 hw
    exact not_told_of_waiting hsteady.nodup hp hcaller (List.mem_filterMap.2 ⟨_, hmem, rfl⟩)
  · exact Or.inl ⟨outcomes_eq_nil fun hk => hforgotten (List.mem_append_left _ hk), Or.inr hend⟩

/-- An elected node finds out that the second one holds its log. -/
def leadTwo : List Act :=
  electAlone ++ [Act.event (.appendResult 2 ⟨1, 0, 1⟩ (.ok (.accepted 2 1 1))), .role]

/-- The second node accepts to take over. -/
def acceptance : List Act := [.event (.timeoutNowResult 2 1 (.ok ⟨1, true⟩))]

/-- The target accepts, and the caller is told of success, for that reason: the leader asked in its
own term, and in no older one. -/
theorem transfer_outcome_of_acceptance :
    (run {} leadTwo).inbound.length = 2
      ∧ (run {} (leadTwo ++ [Act.event (.transfer 2 0)])).Waits 2
      ∧ (run {} (leadTwo ++ [Act.event (.transfer 2 0)] ++ acceptance)).outcomes 2 = [(.ok (), 1)]
      ∧ ∃ xs peer a, Hears {} (leadTwo ++ [Act.event (.transfer 2 0)]) acceptance xs 2 peer 1 a
        ∧ a.accepted = true := by
  have hplace : (run {} leadTwo).inbound.length = 2 := by cbv
  have hwaits : (run {} (leadTwo ++ [Act.event (.transfer 2 0)])).Waits 2 :=
    of_decide_eq_true (by cbv)
  have houtcome : (run {} (leadTwo ++ [Act.event (.transfer 2 0)] ++ acceptance)).outcomes 2
      = [(.ok (), 1)] := by cbv
  have hsaid : (run {} (leadTwo ++ [Act.event (.transfer 2 0)] ++ acceptance)).saidSince
      (run {} leadTwo) = [.asks 2 ⟨1, 1⟩, .tells 2 (.ok ()) 1] := by cbv
  refine ⟨hplace, hwaits, houtcome, ?_⟩
  rcases (transfer_outcome {} leadTwo acceptance 2 0 rfl hplace hwaits).1 with
    ⟨hnone, -⟩ | ⟨x, u, hx, -, hok⟩
  · rw [houtcome] at hnone
    cases hnone
  obtain ⟨rfl, rfl⟩ := Prod.mk.inj (List.cons.inj (houtcome.symm.trans hx)).1
  rcases hok rfl with ⟨t, hlt, q, hq, rfl⟩ | hheard
  · rw [hsaid] at hq
    simp only [List.mem_cons, Note.asks.injEq, List.not_mem_nil, or_false, reduceCtorEq,
      true_and] at hq
    rw [hq] at hlt
    exact absurd hlt (Nat.lt_irrefl 1)
  · exact hheard

/-- A leader that asked the target of a transfer hears of a newer term from a third node and steps
down. It tells the caller of success, and nobody ever answered the request to take over. -/
theorem deposed_leader_reports_success :
    (run {} (leadTwo ++ [Act.event (.transfer 2 0)])).Waits 2
      ∧ (run {} (leadTwo ++ [Act.event (.transfer 2 0)]
          ++ [Act.event (.voteRequest ⟨5, 3, 1, 1⟩ 0), Act.role])).outcomes 2 = [(.ok (), 5)]
      ∧ ∀ peer t x, .timeoutNowResult peer t x ∉ (run {} (leadTwo ++ [Act.event (.transfer 2 0)]
          ++ [Act.event (.voteRequest ⟨5, 3, 1, 1⟩ 0), Act.role])).inbound := by
  have hwaits : (run {} (leadTwo ++ [Act.event (.transfer 2 0)])).Waits 2 :=
    of_decide_eq_true (by cbv)
  have houtcome : (run {} (leadTwo ++ [Act.event (.transfer 2 0)]
      ++ [Act.event (.voteRequest ⟨5, 3, 1, 1⟩ 0), Act.role])).outcomes 2 = [(.ok (), 5)] := by cbv
  have hinbound : (run {} (leadTwo ++ [Act.event (.transfer 2 0)]
      ++ [Act.event (.voteRequest ⟨5, 3, 1, 1⟩ 0), Act.role])).inbound
      = [.voteResult 2 1 (.ok ⟨1, true, 0, 0⟩), .appendResult 2 ⟨1, 0, 1⟩ (.ok (.accepted 2 1 1)),
        .transfer 2 2, .voteRequest ⟨5, 3, 1, 1⟩ 3] := by cbv
  refine ⟨hwaits, houtcome, fun peer t x => ?_⟩
  rw [hinbound]
  simp

end Solo

/-! ## Results of other requests -/

namespace Node

variable {n : Node} {l : LeaderState} {x : Transfer} {r : Except Error TimeoutNowResponse}

/-- **Results of requests to take over.** A leader that has a transfer under way takes the result of
a request of its term for the answer to it, from whichever peer it comes, if it shows no newer term.
An acceptance is told to the caller that waits; a rejection or a failure ends the transfer. So a
result leaves the transfer as it is only if it is of another term, or accepts what was accepted
before. -/
theorem result_taken (hrole : n.role = .leader l) (hx : l.transfer = some x) (peer : NodeId)
    (t : Nat) (hle : ∀ a, r = .ok a → a.term ≤ n.term) :
    ∃ m, (handle (.timeoutNowResult peer t r)).run n = .ok ⟨⟩ m
      ∧ m.profile = (if t = n.term then n.profile.answered r else n.profile)
      ∧ (m.role.post = .leader (some x)
        ↔ t ≠ n.term ∨ x.caller = none ∧ ∃ a, r = .ok a ∧ a.accepted = true) := by
  have hpost : n.profile.post = .leader (some x) := by
    show n.role.post = _
    rw [hrole, Role.post, hx]
  by_cases ht : t = n.term
  · subst ht
    obtain ⟨m, hrun, hm⟩ := handle_answered hpost peer hle
    refine ⟨m, hrun, hm.trans (if_pos rfl).symm, ?_⟩
    rw [show m.role.post = m.profile.post from rfl, hm, Profile.answered_post hpost]
    simp
  · refine ⟨n, ?_, (if_neg ht).symm, iff_of_true hpost (Or.inl ht)⟩
    rw [run_handle_leader hrole]
    show (if t = n.term then _ else pure ⟨⟩ : Action Node Unit).run n = _
    rw [if_neg ht]
    rfl

end Node

namespace Solo

/-- A transfer to the third node is given up when its time is over, and one to the second begins. -/
def transferAgain : List Act :=
  leadTwo ++ [Act.event (.appendResult 3 ⟨1, 0, 1⟩ (.ok (.accepted 3 1 1))),
    .event (.transfer 3 0), .setClock 10000, .tick, .event (.transfer 2 0)]

/-- The third node accepts to take over. -/
def lateAcceptance : Act := .event (.timeoutNowResult 3 1 (.ok ⟨1, true⟩))

/-- The answer of the third node comes late, and is taken for that of the second one. -/
theorem result_taken_of_late_acceptance :
    ∃ s l x m, (run {} transferAgain).site = .up s ∧ s.node.role = .leader l
      ∧ l.transfer = some x ∧ x.target = 2 ∧ x.caller = some 4
      ∧ (Node.handle (.timeoutNowResult 3 1 (.ok ⟨1, true⟩))).run s.node = .ok ⟨⟩ m
      ∧ m.role.post ≠ .leader (some x) := by
  obtain ⟨s, hs, hlook⟩ := exists_of_server? (n := run {} transferAgain) (f := fun s =>
    s.node.profile.post.transfer? == some ⟨2, 12000, some 4, true⟩ && s.node.term == 1) (by cbv)
  simp only [Bool.and_eq_true, beq_iff_eq] at hlook
  obtain ⟨hlook, hterm⟩ := hlook
  obtain ⟨l, hrole, hx⟩ := Node.Leader.exists_of_post_leader (Post.eq_leader_of_transfer? hlook)
  obtain ⟨m, hrun, -, hstill⟩ := Node.result_taken (r := .ok ⟨1, true⟩) hrole hx 3 1 (by
    intro a ha
    refine Nat.le_of_eq ?_
    rw [← Except.ok.inj ha, hterm])
  refine ⟨s, l, _, m, hs, hrole, hx, rfl, rfl, hrun, fun hpost => ?_⟩
  rcases hstill.1 hpost with hne | ⟨hnone, -⟩
  · exact hne hterm.symm
  · cases hnone

/-- So the caller of the transfer to the second node is told of success, which that node had no part
in. -/
theorem late_acceptance_taken :
    (run {} transferAgain).Waits 4 ∧ (run {} transferAgain).outcomes 4 = []
      ∧ (run {} (transferAgain ++ [lateAcceptance])).outcomes 4 = [(.ok (), 1)]
      ∧ ¬ (run {} (transferAgain ++ [lateAcceptance])).Waits 4 := by
  have hwaits : (run {} transferAgain).Waits 4
      ∧ ¬ (run {} (transferAgain ++ [lateAcceptance])).Waits 4 := of_decide_eq_true (by cbv)
  have hbefore : (run {} transferAgain).outcomes 4 = [] := by cbv
  have hafter : (run {} (transferAgain ++ [lateAcceptance])).outcomes 4 = [(.ok (), 1)] := by cbv
  exact ⟨hwaits.1, hbefore, hafter, hwaits.2⟩

end Solo

end Raft
