import Raft.Proofs.Profile.Terms
import Raft.Proofs.Solo.Turns

/-!
# Newer terms, for a node by itself

What a node makes of an event that tells of a term, when it has handled the event and the role
events that followed.

* `newer_term_heeded` is the result.
* `late_refusal_passed_over`: a candidate that stands again does not look at a late answer.
-/

namespace Raft

theorem Event.peerTerm?_withCaller (c : Caller) (e : Event) :
    (e.withCaller c).peerTerm? = e.peerTerm? := by
  cases e <;> rfl

theorem Profile.passesOver_withCaller (p : Profile) (c : Caller) (e : Event) :
    p.passesOver (e.withCaller c) = p.passesOver e := by
  unfold passesOver
  cases p.post <;> cases e <;> rfl

namespace Server

variable {s : Server} {e : Event} {t : Nat}

/-- A server that goes on after a newer term has heeded it. -/
theorem handle_heeds (hopen : s.node.profile.closed = false) (ht : e.peerTerm? = some t)
    (hlt : s.node.profile.hard.term < t) (hover : s.node.profile.passesOver e = false) :
    (s.handle (.event e)).ended.isSome = true
      ∨ (s.handle (.event e)).node.profile.Heeds t := by
  have h := Node.handle_heeds hopen ht hlt hover
  unfold Node.Heeds Action.Ensures at h
  unfold handle Work.run
  dsimp only
  cases hrun : (Node.handle e).run s.node with
  | ok a n =>
    rw [hrun] at h
    exact Or.inr h
  | error f n =>
    rw [hrun] at h
    left
    rcases h with rfl | ⟨x, rfl, hx⟩
    · rfl
    · dsimp only [Action.outcome]
      rw [if_pos hx]
      rfl

theorem handle_of_passesOver (h : s.node.profile.passesOver e = true) :
    s.handle (.event e) = { s with status := s.node.status } := by
  unfold handle Work.run
  dsimp only
  rw [Node.handle_of_passesOver h]
  rfl

end Server

namespace Solo

variable {n : Solo} {s : Server} {t : Nat}

/-- A server without role events stays as it is when one should be handled. -/
theorem steps_role_of_free (hsound : n.Sound) (hs : n.site = .up s) (hqueue : s.node.queue = [])
    (k : Nat) : n.steps (List.replicate k .role) = n := by
  induction k with
  | zero => rfl
  | succ k ih =>
    have hstep : n.step .role = n := by
      apply onServer_of_still hsound hs
      unfold Network.workRole
      rw [hqueue]
    show (n.step .role).steps _ = n
    rw [hstep]
    exact ih

/-- A node that waits for nothing heeds a newer term, unless it is passed over. -/
theorem holds_heeds {e : Event} (h : n.Steady) (hs : n.site = .up s) (hrun : s.isRunning = true)
    (hqueue : s.node.queue = []) (ht : e.peerTerm? = some t) (hlt : s.node.term < t)
    (hover : s.node.profile.passesOver e = false) :
    Holds (fun p => p.Heeds t) (n.step (.event e)) := by
  have hopen := h.opened _ (phase_of_running hs hrun)
  have hphase := phase_of_up (congrArg Solo.site (step_event_of_free e hs hrun hqueue))
  rw [← Profile.passesOver_withCaller s.node.profile n.inbound.length e] at hover
  have hheeds := Server.handle_heeds hopen ((Event.peerTerm?_withCaller _ e).trans ht) hlt hover
  generalize s.handle (.event (e.withCaller n.inbound.length)) = handled at hphase hheeds
  rcases hheeds with hended | hheeds
  · refine Or.inl (hphase.trans (if_neg ?_))
    intro hgoes
    have hgoes : handled.ended.isNone = true := hgoes
    rw [Option.isNone_iff_eq_none.1 hgoes] at hended
    cases hended
  · by_cases hgoes : handled.isRunning = true
    · exact Or.inr ⟨_, hphase.trans (if_pos hgoes), hheeds⟩
    · exact Or.inl (hphase.trans (if_neg hgoes))

/-- What is passed over changes nothing, and no role event comes of it. -/
theorem node_eq_of_passesOver {e : Event} {k : Nat} {s' : Server} (hsound : n.Sound)
    (hsound' : (n.step (.event e)).Sound) (hs : n.site = .up s) (hrun : s.isRunning = true)
    (hqueue : s.node.queue = [])
    (hs' : ((n.step (.event e)).steps (List.replicate k .role)).site = .up s')
    (hover : s.node.profile.passesOver e = true) : s'.node = s.node := by
  rw [← Profile.passesOver_withCaller s.node.profile n.inbound.length e] at hover
  have hfirst := congrArg Solo.site (step_event_of_free e hs hrun hqueue)
  rw [Server.handle_of_passesOver hover] at hfirst
  rw [steps_role_of_free hsound' hfirst hqueue, hfirst] at hs'
  obtain rfl := Network.Site.up.inj hs'
  have htaken : s.takeEffects.2 = s :=
    Network.Site.up.inj ((congrArg Solo.site (settle_of_taken hsound hs)).trans hs)
  show s.takeEffects.2.node = s.node
  rw [htaken]

/-- A term that was reached stays so: terms do not fall. -/
theorem holds_term_le (h : n.Steady) (hsound : n.Sound) (hs : n.site = .up s)
    (hrun : s.isRunning = true) (hge : t ≤ s.node.term) (e : Event) :
    Holds (fun p => t ≤ p.hard.term) (n.step (.event e)) :=
  Holds.step (fun _ _ _ hp hturn => Nat.le_trans hp hturn.term_le) (fun _ _ hp => hp)
    (Or.inr ⟨_, phase_of_running hs hrun, hge⟩) (a := .event e) nofun (goes_step h hsound _).1

/-- Who heeds a term and has nothing to do follows, or has stood for election since. -/
theorem follows_of_heeds {node : Node} (h : node.profile.Heeds t) (hqueue : node.queue = []) :
    node.role.kind = .follower
      ∨ t < node.term ∧ node.hard.vote = some ⟨node.id, node.term⟩ := by
  rcases h.2 with hpost | hretires | hstood
  · left
    rw [Role.kind_eq]
    exact congrArg Post.kind hpost
  · -- a step down that was still owed would wait in the queue
    have hretires : node.queue.any Node.stepsDown = true := hretires
    rw [hqueue] at hretires
    cases hretires
  · exact Or.inr hstood

/-- **Newer terms are heeded.** A node that waits for nothing handles an event which tells of a
term, and then any number of role events. If it still runs, it has reached the term; and if the term
was newer, it follows when nothing waits any more, or it has stood for election in a later term.
Only a result that is passed over does nothing at all: a vote of a candidate, or an append or a
transfer of a leader, that was asked for in another term. -/
theorem newer_term_heeded (r : Node.Remains) (acts : List Act) (e : Event) (k : Nat) {t : Nat}
    {s s' : Server} (hs : (run r acts).site = .up s) (hrun : s.isRunning = true)
    (hqueue : s.node.queue = []) (ht : e.peerTerm? = some t)
    (hs' : (run r (acts ++ Act.event e :: List.replicate k .role)).site = .up s')
    (hrun' : s'.isRunning = true) :
    (s.node.profile.passesOver e = true → s'.node = s.node)
      ∧ (s.node.profile.passesOver e = false → t ≤ s'.node.term
        ∧ (s.node.term < t → s'.node.queue = [] →
          s'.node.role.kind = .follower
            ∨ t < s'.node.term ∧ s'.node.hard.vote = some ⟨s'.node.id, s'.node.term⟩)) := by
  have hsteady := steady_run r acts
  have hsound := sound_run r acts
  rw [run_append] at hs'
  generalize run r acts = n at hs hsteady hsound hs'
  have hsteady' := (goes_step hsteady hsound (.event e)).steady hsteady (inbound_step n _)
  have hsound' := (keeps_step hsound (.event e)).1
  replace hs' : ((n.step (.event e)).steps (List.replicate k .role)).site = .up s' := hs'
  have hroles : ∀ a ∈ List.replicate k Act.role, a ≠ .crash := by
    intro a ha
    rw [List.eq_of_mem_replicate ha]
    nofun
  refine ⟨node_eq_of_passesOver hsound hsound' hs hrun hqueue hs', fun hover => ?_⟩
  rcases Nat.lt_or_ge s.node.term t with hlt | hge
  · have hholds := Holds.steps (fun _ _ _ hp hturn => hp.turn hturn) (fun _ _ hp => hp) hsteady'
      hsound' (holds_heeds hsteady hs hrun hqueue ht hlt hover) hroles
    have hheeds := hholds.of_running hs' hrun'
    exact ⟨hheeds.1, fun _ hqueue' => follows_of_heeds hheeds hqueue'⟩
  · have hholds := Holds.steps (fun _ _ _ hp hturn => Nat.le_trans hp hturn.term_le)
      (fun _ _ hp => hp) hsteady' hsound' (holds_term_le hsteady hsound hs hrun hge e) hroles
    exact ⟨hholds.of_running hs' hrun', fun hlt => absurd hlt (Nat.not_lt.2 hge)⟩

/-- A node stands for election in the first term, and again in the second. -/
def standTwice : List Act := [startOne, .setClock 1000, .tick, .role, .setClock 2000, .tick]

/-- The second node, which is in term 9, refuses the vote that it was asked for in a term. -/
def refusalOf (term : Nat) : Event := .voteResult 2 term (.ok ⟨9, false, 0, 0⟩)

/-- The refusal of the second term's vote makes the candidate follow in the newer term. -/
theorem newer_term_heeded_of_refusal :
    ∃ s s', (run {} standTwice).site = .up s ∧ s.node.role.kind = .candidate ∧ s.node.term = 2
      ∧ (run {} (standTwice ++ [Act.event (refusalOf 2), Act.role])).site = .up s'
      ∧ 9 ≤ s'.node.term ∧ s'.node.role.kind = .follower := by
  obtain ⟨s, hs, hbefore⟩ := exists_of_server? (n := run {} standTwice)
    (f := fun s => s.isRunning && s.node.queue.isEmpty && s.node.role.kind == .candidate
      && s.node.term == 2 && !s.node.profile.passesOver (refusalOf 2)) (by decide +kernel)
  obtain ⟨s', hs', hafter⟩ := exists_of_server?
    (n := run {} (standTwice ++ [Act.event (refusalOf 2), Act.role]))
    (f := fun s => s.isRunning && s.node.queue.isEmpty && s.node.term == 9) (by decide +kernel)
  simp only [Bool.and_eq_true, List.isEmpty_iff, beq_iff_eq, Bool.not_eq_true'] at hbefore hafter
  obtain ⟨⟨⟨⟨hrun, hqueue⟩, hkind⟩, hterm⟩, hover⟩ := hbefore
  obtain ⟨⟨hrun', hqueue'⟩, hterm'⟩ := hafter
  obtain ⟨hle, hleft⟩ := (newer_term_heeded {} standTwice (refusalOf 2) 1 hs hrun hqueue rfl hs'
    hrun').2 hover
  refine ⟨s, s', hs, hkind, hterm, hs', hle, ?_⟩
  have hlater := hleft (by rw [hterm]; decide) hqueue'
  rw [hterm'] at hlater
  exact hlater.resolve_right fun h => absurd h.1 (by decide)

/-- The refusal of the first term's vote comes late. The candidate passes over it: it stays in the
second term, and stands for election there. -/
theorem late_refusal_passed_over :
    ∃ s s', (run {} standTwice).site = .up s ∧ s.isRunning = true ∧ s.node.queue = []
      ∧ s.node.role.kind = .candidate ∧ s.node.term = 2 ∧ (refusalOf 1).peerTerm? = some 9
      ∧ (run {} (standTwice ++ [Act.event (refusalOf 1), Act.role])).site = .up s'
      ∧ s'.isRunning = true ∧ s'.node.queue = []
      ∧ s'.node.role.kind = .candidate ∧ s'.node.term = 2 := by
  obtain ⟨s, hs, hbefore⟩ := exists_of_server? (n := run {} standTwice)
    (f := fun s => s.isRunning && s.node.queue.isEmpty && s.node.role.kind == .candidate
      && s.node.term == 2) (by decide +kernel)
  obtain ⟨s', hs', hafter⟩ := exists_of_server?
    (n := run {} (standTwice ++ [Act.event (refusalOf 1), Act.role]))
    (f := fun s => s.isRunning && s.node.queue.isEmpty && s.node.role.kind == .candidate
      && s.node.term == 2) (by decide +kernel)
  simp only [Bool.and_eq_true, List.isEmpty_iff, beq_iff_eq] at hbefore hafter
  obtain ⟨⟨⟨hrun, hqueue⟩, hkind⟩, hterm⟩ := hbefore
  obtain ⟨⟨⟨hrun', hqueue'⟩, hkind'⟩, hterm'⟩ := hafter
  exact ⟨s, s', hs, hrun, hqueue, hkind, hterm, rfl, hs', hrun', hqueue', hkind', hterm'⟩

end Solo

end Raft
