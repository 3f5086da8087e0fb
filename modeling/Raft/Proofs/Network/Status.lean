import Raft.Proofs.Network.Safety
import Raft.Proofs.Solo.Leadership

/-!
# Leaderships that are shown

What a member publishes is its role and its term as they are between two steps of its event loop. A
leader that has entered a newer term, and has still to step down, shows a leadership that nobody
won.

* `Network.Displays n p t`: a member shows that it leads a term.
* `published_leadership`: apart from those that step down, whoever shows that it leads a term was
  elected in it, and no other member ever shows the same.
* `two_leaders_shown`: the exception.
-/

namespace Raft

open Node (stepsDown)

/-- A server that handled something and goes on has published its status. -/
theorem Server.handle_shows {s : Server} {w : Work} (hrun : (s.handle w).isRunning = true) :
    (s.handle w).Shows := by
  unfold handle at hrun ⊢
  dsimp only at hrun ⊢
  split
  · exact shows_of_status rfl
  · rename_i e he
    rw [he] at hrun
    dsimp only at hrun
    split
    · rename_i hfatal
      rw [if_pos hfatal] at hrun
      cases hrun
    · exact shows_of_status rfl
  · rename_i he
    rw [he] at hrun
    cases hrun

namespace Network

open Protocol (Record)

variable {members : List NodeId} {n : Network} {r : Record} {p q : NodeId} {t : Nat}

/-! ## Statuses -/

/-- A server that runs shows the status of its node. -/
def Site.Shows : Site → Prop
  | .up s => s.isRunning = true → s.Shows
  | .down _ => True

def Shown (n : Network) : Prop := ∀ p, (n.site p).Shows

theorem shown_update (h : n.Shown) {n' : Network} {x : Site}
    (hsite : n'.site = Function.update n.site p x) (hx : x.Shows) : n'.Shown := by
  intro q
  rw [hsite]
  by_cases hq : q = p
  · rw [hq, Function.update_self]
    exact hx
  · rw [Function.update_of_ne hq]
    exact h q

theorem shown_onServer (h : n.Shown) {f : Server → Server}
    (hf : ∀ s, n.site p = .up s → (Site.up (f s)).Shows) : (n.onServer p f).Shown := by
  unfold onServer
  split
  · rename_i s hs
    exact shown_update h rfl fun hrun => hf s hs hrun
  · exact h

/-- Whatever leaves the status and the profile alone. -/
theorem shown_still (h : n.Shown) {f : Server → Server}
    (hf : ∀ s, (f s).node.profile = s.node.profile ∧ (f s).status = s.status
      ∧ (f s).ended = s.ended) : (n.onServer p f).Shown := by
  apply shown_onServer h
  intro s hs hrun
  obtain ⟨hprofile, hstatus, hended⟩ := hf s
  have hshows := h p
  rw [hs] at hshows
  unfold Server.isRunning at hrun
  rw [hended] at hrun
  exact (hshows hrun).congr hstatus hprofile

theorem shown_work (h : n.Shown) (w : Work) : (n.work p w).Shown := by
  apply shown_onServer h
  intro s hs
  unfold workFree
  split
  · exact fun hrun => Server.handle_shows hrun
  · have hshows := h p
    rwa [hs] at hshows

theorem shown_workRole (h : n.Shown) : (n.onServer p workRole).Shown := by
  apply shown_onServer h
  intro s hs
  have hshows := h p
  rw [hs] at hshows
  unfold workRole
  split
  · split
    · exact fun hrun => Server.handle_shows hrun
    · exact hshows
  · exact hshows

theorem shown_start (h : n.Shown) (cluster : List Member) (settings : Settings) (window now : Nat)
    (seed : Seed) (fresh : Bool) : (n.start cluster p settings window now seed fresh).Shown := by
  unfold start
  split
  · exact h
  · split
    · dsimp only
      split
      · rename_i s hs
        exact shown_update h rfl fun _ => (Server.start_profile hs).2.1
      · exact h
    · exact h

theorem shown_crash (h : n.Shown) : (n.crash p).Shown := by
  unfold crash
  split
  · exact shown_update h rfl trivial
  · exact h

theorem shown_onStore (h : n.Shown) (f : Node.Remains → Node.Remains) :
    (n.onStore p f).Shown := by
  unfold onStore
  split
  · rename_i s hs
    have hshows := h p
    rw [hs] at hshows
    exact shown_update h rfl fun hrun => hshows hrun
  · exact shown_update h rfl trivial

theorem shown_step (cluster : List Member) (h : n.Shown) (a : Act) : (n.step cluster a).Shown := by
  -- who calls shows nothing
  have hcall : ∀ x, (n.call x).Shown := fun _ => h
  cases a with
  | start p settings window now seed fresh =>
    exact shown_start h cluster settings window now seed fresh
  | crash p => exact shown_crash h
  | role p => exact shown_workRole h
  | tick p => exact shown_work h _
  | request k =>
    simp only [step]
    split
    · exact shown_work (hcall _) _
    · exact h
  | result k =>
    simp only [step]
    split
    · unfold pass
      split
      · exact shown_work h _
      · exact h
    · exact h
  | failure k e =>
    simp only [step]
    split
    · exact shown_work h _
    · exact h
  | propose p q request =>
    show (n.propose p q request).Shown
    unfold propose
    split
    · exact shown_work (hcall _) _
    · exact h
  | transfer p target => exact shown_work (hcall _) _
  | signal p =>
    apply shown_still h
    intro s
    unfold takeSignal
    split <;> exact ⟨rfl, rfl, rfl⟩
  | round p => exact shown_still h fun s => ⟨rfl, rfl, rfl⟩
  | withdraw p request => exact shown_still h fun s => ⟨rfl, rfl, rfl⟩
  | setClock p now => exact shown_still h fun s => ⟨rfl, rfl, rfl⟩
  | disturb p faults saves broken => exact shown_onStore h _

theorem shown_run (cluster : List Member) (whole : NodeId → Bool) (acts : List Act) :
    (run cluster whole acts).Shown := by
  have hsteps : ∀ (acts : List Act) (n : Network), n.Shown → (n.steps cluster acts).Shown := by
    intro acts
    induction acts with
    | nil => exact fun _ h => h
    | cons a acts ih => exact fun n h => ih _ (shown_step cluster h a)
  exact hsteps acts _ fun _ => trivial

/-! ## Leaders -/

/-- A member shows that it leads a term. -/
def Displays (n : Network) (p : NodeId) (t : Nat) : Prop :=
  ∃ s, n.site p = .up s ∧ s.isRunning = true ∧ s.status.role = .leader ∧ s.status.term = t

/-- A member is about to step down. -/
def StepsDown (n : Network) (p : NodeId) : Prop :=
  ∃ s, n.site p = .up s ∧ s.node.queue.any stepsDown = true

instance (n : Network) (p : NodeId) (t : Nat) : Decidable (n.Displays p t) :=
  decidable_of_iff (n.look p (fun s => s.isRunning && s.status.role == .leader
    && s.status.term == t) = true) (by simp [look_iff, Displays, and_assoc])

instance (n : Network) (p : NodeId) : Decidable (n.StepsDown p) :=
  decidable_of_iff (n.look p (fun s => s.node.queue.any stepsDown) = true) look_iff

/-- Whoever shows that it leads a term, and does not step down, is the leader of the record. -/
theorem Sound.leader_of_displays (h : Sound members n r) (hn : n.Shown) (hp : n.Displays p t)
    (hstays : ¬ n.StepsDown p) : r.leader t = some p := by
  obtain ⟨s, hs, hrun, hrole, rfl⟩ := hp
  have hshows := hn p
  rw [hs] at hshows
  obtain ⟨hkind, hterm⟩ := hshows hrun
  have hqueue : s.node.queue.any stepsDown = false := by
    by_contra hq
    exact hstays ⟨s, hs, by simpa using hq⟩
  rw [hrole] at hkind
  cases hpost : s.node.role with
  | leader l =>
    rw [hterm]
    exact (h.leading hs hrun hqueue hpost).1
  | follower | candidate =>
    rw [show s.node.profile.post = s.node.role.post from rfl, hpost] at hkind
    cases hkind

/-- **Published leaderships.** Whatever happens to a node: a status that shows a leader shows a term
that the node has reached as the winner of an election, and it is the term of that election unless
the node is about to step down. So, in any cluster, once a member shows that it leads a term, no
other member ever shows the same, where neither is about to step down. -/
theorem published_leadership (r : Node.Remains) (alone : List Solo.Act) (cluster : List Member)
    (whole : NodeId → Bool) (acts later : List Act) :
    (∀ s, (Solo.run r alone).site = .up s → s.isRunning = true → s.status.role = .leader →
      ∃ t ≤ s.status.term,
        Won (Solo.run r alone).inbound s.node.id s.node.settings.cluster.members.length t
          ∧ (s.node.queue.any stepsDown = false → s.status.term = t))
      ∧ ∀ p q t, (run cluster whole acts).Displays p t → ¬ (run cluster whole acts).StepsDown p →
        (run cluster whole (acts ++ later)).Displays q t →
        ¬ (run cluster whole (acts ++ later)).StepsDown q → p = q := by
  refine ⟨fun s hs hrun hrole => Solo.leadership_won r alone hs hrun hrole, ?_⟩
  intro p q t hp hstays hq hstays'
  obtain ⟨record, record', h, g, h'⟩ := exists_sound cluster whole acts later
  have hleader := g.leader t p (h.leader_of_displays (shown_run cluster whole acts) hp hstays)
  rw [h'.leader_of_displays (shown_run cluster whole _) hq hstays'] at hleader
  exact (Option.some.inj hleader).symm

/-- A node by itself shows the term that it won, and so does the first member of three. -/
theorem published_leadership_of_trio :
    (∃ s, (Solo.run {} Solo.electAlone).site = .up s ∧ s.status.role = .leader ∧ s.status.term = 1
        ∧ Won (Solo.run {} Solo.electAlone).inbound s.node.id
          s.node.settings.cluster.members.length 1)
      ∧ (run trio strict electFirst).Displays 1 1
      ∧ ∀ q, (run trio strict (electFirst ++ commitFirst)).Displays q 1 →
        ¬ (run trio strict (electFirst ++ commitFirst)).StepsDown q → 1 = q := by
  obtain ⟨halone, hcluster⟩ :=
    published_leadership {} Solo.electAlone trio strict electFirst commitFirst
  constructor
  · obtain ⟨s, hs, hlook⟩ := Solo.exists_of_server? (n := Solo.run {} Solo.electAlone)
      (f := fun s => s.isRunning && s.status.role == .leader && s.status.term == 1
        && !s.node.queue.any stepsDown) (by cbv)
    simp only [Bool.and_eq_true, beq_iff_eq, Bool.not_eq_true'] at hlook
    obtain ⟨⟨⟨hrun, hrole⟩, hterm⟩, hstays⟩ := hlook
    obtain ⟨t, -, hwon, hsame⟩ := halone s hs hrun hrole
    rw [← hsame hstays, hterm] at hwon
    exact ⟨s, hs, hrole, hterm, hwon⟩
  · obtain ⟨hfirst, hstays⟩ : (run trio strict electFirst).Displays 1 1
        ∧ ¬ (run trio strict electFirst).StepsDown 1 := of_decide_eq_true (by cbv)
    exact ⟨hfirst, fun q => hcluster 1 q 1 hfirst hstays⟩

/-- The second member is elected in the second term with the vote of the third. -/
def electSecond : List Act := [.setClock 2 9000, .tick 2, .role 2, .request 5, .result 1, .role 2]

/-- The request with which the second member asked for the first one's vote arrives late. The first
member enters the second term. Until it steps down, both show that they lead that term. -/
theorem two_leaders_shown :
    (run trio strict (electFirst ++ electSecond ++ [Act.request 4])).Displays 1 2
      ∧ (run trio strict (electFirst ++ electSecond ++ [Act.request 4])).Displays 2 2 :=
  of_decide_eq_true (by cbv)

end Network

end Raft
