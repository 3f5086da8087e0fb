import Raft.Proofs.Solo.Turns

/-!
# Leadership is won

A node that stands for election has the votes that it counts: its own, and those that came in as
granted for the term it stands in. A leader counted a majority of them. While no role event waits
that makes it step down, the node is still in the term of its election.

* `Collected inbound node t votes`: the votes that were collected in a term.
* `Profile.Backed inbound p`: the votes of a candidate or a leader were collected.
* `Solo.leadership_won`: so it is with every status that shows a leader.
-/

namespace Raft

open Node (stepsDown)

/-! ## Votes -/

/-- The votes that a node collected in a term: its own, and those that came in as granted. -/
structure Collected (inbound : List Event) (node : NodeId) (t : Nat) (votes : List NodeId) :
    Prop where
  nodup : votes.Nodup
  granted : ∀ x ∈ votes, x = node
    ∨ ∃ a, .voteResult x t (.ok a) ∈ inbound ∧ a.granted = true ∧ a.term = t

/-- A node collected the votes of a majority in a term. -/
def Won (inbound : List Event) (node : NodeId) (voters t : Nat) : Prop :=
  ∃ votes, Collected inbound node t votes ∧ majority voters ≤ votes.length

section Collected

variable {inbound later : List Event} {node : NodeId} {t : Nat} {votes : List NodeId}

theorem collected_self (inbound : List Event) (node : NodeId) (t : Nat) :
    Collected inbound node t [node] where
  nodup := List.nodup_singleton node
  granted _ hx := Or.inl (List.mem_singleton.1 hx)

theorem Collected.mono (h : Collected inbound node t votes) (hsub : inbound ⊆ later) :
    Collected later node t votes where
  nodup := h.nodup
  granted x hx := (h.granted x hx).imp_right fun ⟨a, ha, hgranted⟩ => ⟨a, hsub ha, hgranted⟩

theorem Collected.count {peer : NodeId} {a : VoteResponse} (h : Collected inbound node t votes)
    (hnew : peer ∉ votes) (ha : .voteResult peer t (.ok a) ∈ inbound) (hgranted : a.granted = true)
    (hterm : a.term = t) : Collected inbound node t (votes ++ [peer]) where
  nodup := List.nodup_append.2 ⟨h.nodup, List.nodup_singleton peer, fun x hx y hy => by
    rw [List.mem_singleton.1 hy]
    rintro rfl
    exact hnew hx⟩
  granted x hx := by
    rcases List.mem_append.1 hx with hx | hx
    · exact h.granted x hx
    · rw [List.mem_singleton.1 hx]
      exact Or.inr ⟨a, ha, hgranted, hterm⟩

end Collected

namespace Profile

variable {inbound later : List Event} {src : Option Event} {p q : Profile} {t : Nat}
  {votes : List NodeId}

/-- The node stands on votes of a term that it has reached, and voted for itself there. It leaves
that term only to step down. -/
structure StandsOn (inbound : List Event) (p : Profile) (t : Nat) (votes : List NodeId) : Prop where
  collected : Collected inbound p.self t votes
  reached : t ≤ p.hard.term
  stays : p.retires = false → p.hard = ⟨t, some ⟨p.self, t⟩⟩

/-- The votes of a candidate or a leader were collected, and those of a leader are a majority. -/
def Backed (inbound : List Event) (p : Profile) : Prop :=
  match p.post with
  | .follower => True
  | .candidate votes => ∃ t, p.StandsOn inbound t votes
  | .leader _ => ∃ t votes, p.StandsOn inbound t votes ∧ majority p.voters ≤ votes.length

theorem backed_of_follower (h : p.post = .follower) : p.Backed inbound := by
  unfold Backed
  rw [h]
  trivial

theorem Backed.of_candidate (h : p.Backed inbound) (hpost : p.post = .candidate votes) :
    ∃ t, p.StandsOn inbound t votes := by
  unfold Backed at h
  rwa [hpost] at h

theorem Backed.of_leader {x : Option Transfer} (h : p.Backed inbound) (hpost : p.post = .leader x) :
    ∃ t votes, p.StandsOn inbound t votes ∧ majority p.voters ≤ votes.length := by
  unfold Backed at h
  rwa [hpost] at h

/-- What does not touch the election keeps the votes. -/
theorem StandsOn.congr (h : p.StandsOn inbound t votes) (hself : q.self = p.self)
    (hterm : p.hard.term ≤ q.hard.term)
    (hstays : q.retires = false → p.retires = false ∧ q.hard = p.hard) :
    q.StandsOn inbound t votes where
  collected := hself ▸ h.collected
  reached := Nat.le_trans h.reached hterm
  stays hq := by
    obtain ⟨hp, hhard⟩ := hstays hq
    rw [hhard, hself]
    exact h.stays hp

/-- The votes behind a role go with it. -/
theorem Backed.map (h : p.Backed inbound) (hvoters : q.voters = p.voters) (hpost : q.post = p.post)
    (hmap : ∀ {t votes}, p.StandsOn inbound t votes → q.StandsOn later t votes) :
    q.Backed later := by
  unfold Backed at h ⊢
  rw [hpost, hvoters]
  split
  · trivial
  · rename_i votes hvotes
    rw [hvotes] at h
    obtain ⟨t, ht⟩ := h
    exact ⟨t, hmap ht⟩
  · rename_i x hx
    rw [hx] at h
    obtain ⟨t, votes, ht, hmajority⟩ := h
    exact ⟨t, votes, hmap ht, hmajority⟩

theorem Backed.congr (h : p.Backed inbound) (hself : q.self = p.self)
    (hvoters : q.voters = p.voters) (hpost : q.post = p.post) (hterm : p.hard.term ≤ q.hard.term)
    (hstays : q.retires = false → p.retires = false ∧ q.hard = p.hard) : q.Backed inbound :=
  h.map hvoters hpost fun ht => ht.congr hself hterm hstays

theorem Backed.mono (h : p.Backed inbound) (hsub : inbound ⊆ later) : p.Backed later :=
  h.map rfl rfl fun ht => { ht with collected := ht.collected.mono hsub }

theorem Backed.lead {x y : Option Transfer} (h : p.Backed inbound) (notes : List Note)
    (hpost : p.post = .leader x) :
    ({ p with post := .leader y, notes } : Profile).Backed inbound := by
  obtain ⟨t, votes, ht, hmajority⟩ := h.of_leader hpost
  exact ⟨t, votes, ht.congr rfl (Nat.le_refl _) fun hq => ⟨hq, rfl⟩, hmajority⟩

theorem Backed.turn (h : p.Backed inbound) (hturn : Turn src p q)
    (hsrc : ∀ peer t r, src = some (.voteResult peer t r) → .voteResult peer t r ∈ inbound) :
    q.Backed inbound := by
  cases hturn with
  | follow h hpost => exact backed_of_follower hpost
  | settle l rest => exact backed_of_follower rfl
  | queue e hstays =>
    refine h.congr rfl rfl rfl (Nat.le_refl _) fun hq => ⟨?_, rfl⟩
    rwa [retires_queue, hstays, Bool.or_false] at hq
  | yield t l hterm =>
    refine h.congr rfl rfl rfl ?_ fun hq => ?_
    · show _ ≤ (p.adopt t).hard.term
      rw [term_adopt hterm]
      exact hterm
    · simp [retires, stepsDown] at hq
  | take e rest hqueue hstays =>
    refine h.congr rfl rfl rfl (Nat.le_refl _) fun hq => ⟨?_, rfl⟩
    rwa [retires_take hqueue hstays] at hq
  | stand t => exact ⟨t + 1, collected_self _ _ _, Nat.le_refl _, fun _ => rfl⟩
  | count peer r votes hsource hgranted hterm hstays hpost hnew =>
    obtain ⟨t, ht⟩ := h.of_candidate hpost
    have hhard := ht.stays hstays
    have hsame : p.hard.term = t := by rw [hhard]
    rw [hsame] at hsource hterm
    exact ⟨t, ht.collected.count hnew (hsrc _ _ _ hsource) hgranted hterm, ht.reached, ht.stays⟩
  | lead votes hpost hmajority =>
    obtain ⟨t, ht⟩ := h.of_candidate hpost
    exact ⟨t, votes, ht.congr rfl (Nat.le_refl _) fun hq => ⟨hq, rfl⟩, hmajority⟩
  | refuse => exact h.congr rfl rfl rfl (Nat.le_refl _) fun hq => ⟨hq, rfl⟩
  | begin _ _ _ _ _ hpost => exact h.lead p.notes hpost
  | ask _ hpost | accept _ _ _ _ _ _ _ hpost | abort _ _ hpost => exact h.lead _ hpost

theorem Backed.turns (h : p.Backed inbound) (hturns : Turns src p q)
    (hsrc : ∀ peer t r, src = some (.voteResult peer t r) → .voteResult peer t r ∈ inbound) :
    q.Backed inbound :=
  hturns.induct (P := fun x => x.Backed inbound) (fun _ _ hx hturn => hx.turn hturn hsrc) h

end Profile

/-! ## A node by itself -/

namespace Solo

variable {n n' : Solo} {a : Act}

/-- The votes of a node that runs were collected. -/
def Backed (n : Solo) : Prop := ∀ p, n.phase = .runs p → p.Backed n.inbound

theorem Backed.passes (h : n.Backed) (hpasses : Passes n a n')
    (hinbound : n'.inbound = n.inbound ++ n.incoming a) : n'.Backed := by
  have hsub : n.inbound ⊆ n'.inbound := by
    rw [hinbound]
    exact List.subset_append_left _ _
  intro q hq
  cases hpasses with
  | same hphase => exact (h q (hphase ▸ hq)).mono hsub
  | crash _ hphase =>
    rw [hphase] at hq
    cases hq
  | start p _ hphase hpost =>
    obtain rfl := Phase.runs.inj (hphase.symm.trans hq)
    exact Profile.backed_of_follower hpost
  | work p m src hold _ hsrc hturns hphase =>
    rcases hphase with hphase | hphase <;> rw [hphase] at hq <;> cases hq
    refine (((h p hold).mono hsub).turns hturns ?_).congr rfl rfl rfl (Nat.le_refl _)
      fun hm => ⟨hm, rfl⟩
    -- a vote that is counted has just come in
    intro peer t r hvote
    rcases hsrc with ⟨e, rfl, he, -⟩ | hrequest
    · rw [hinbound, ← Option.some.inj (he.symm.trans hvote)]
      exact List.mem_append_right _ (List.mem_singleton_self _)
    · exact (hrequest _ hvote).elim

theorem backed_run (r : Node.Remains) (acts : List Act) : (run r acts).Backed := by
  refine ((steady_down r).induct (sound_down r) (fun n a _ hn hpasses => ?_) ?_).2
  · exact hn.passes hpasses (inbound_step n a)
  · rintro p ⟨⟩

/-- A status that shows a leader shows a term that the node had reached as the winner of an
election; it is the term of that election unless the node is about to step down. -/
theorem leadership_won (r : Node.Remains) (acts : List Act) {s : Server}
    (hs : (run r acts).site = .up s) (hrun : s.isRunning = true) (hrole : s.status.role = .leader) :
    ∃ t ≤ s.status.term,
      Won (run r acts).inbound s.node.id s.node.settings.cluster.members.length t
        ∧ (s.node.queue.any stepsDown = false → s.status.term = t) := by
  obtain ⟨hshown, hterm⟩ := (steady_run r acts).shows s hs hrun
  have hbacked := backed_run r acts _ (phase_of_running hs hrun)
  rw [hrole] at hshown
  cases hpost : s.node.profile.post with
  | follower | candidate =>
    rw [hpost] at hshown
    cases hshown
  | leader x =>
    obtain ⟨t, votes, ht, hmajority⟩ := hbacked.of_leader hpost
    rw [hterm]
    refine ⟨t, ht.reached, ⟨votes, ht.collected, hmajority⟩, fun hstays => ?_⟩
    rw [ht.stays hstays]

/-- A node is elected in the first term with the vote of the second one. -/
def electAlone : List Act :=
  [startOne, .setClock 1000, .tick, .role, .event (.voteResult 2 1 (.ok ⟨1, true, 0, 0⟩)), .role]

end Solo

end Raft
